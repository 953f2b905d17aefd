import FluidCss.Proofs.Clamp.Order
import FluidCss.Proofs.Scale.Couple

/-!
# Entries that span two pairs

With cross pairs, a scale keeps the entries of its pairs and gives one more for every two of them.
The least size of the lower pair is not above that of the other one, and so not above the greatest
size of the other one, so nothing is out of order that was in order before.

* `crossPairs_extend`: cross pairs add to a valid scale, and how much.
* `entriesOf_perm`: if all least sizes differ, the order of the pairs does not matter.
-/

namespace FluidCss.Scale

open Number Fluid

variable {pairs : List SizePair} {minWidth maxWidth : Number} {a b : SizePair} {entry : Entry}

/-! ## The lower pair -/

theorem lowerFirst_of_le (ha : a.least.IsReal) (hb : b.least.IsReal)
    (hle : a.least.value ≤ b.least.value) : lowerFirst (a, b) = (a, b) := by
  have hlt : ¬ b.least.lt a.least = true := fun hlt => hle.not_gt ((hb.lt_iff ha).1 hlt)
  simp [lowerFirst, hlt]

theorem lowerFirst_of_lt (ha : a.least.IsReal) (hb : b.least.IsReal)
    (hlt : b.least.value < a.least.value) : lowerFirst (a, b) = (b, a) := by
  simp [lowerFirst, (hb.lt_iff ha).2 hlt]

/-- Of two pairs with different least sizes, which is the lower one does not depend on their
order. -/
theorem lowerFirst_comm (ha : a.least.IsReal) (hb : b.least.IsReal)
    (hne : a.least.same b.least = false) : lowerFirst (a, b) = lowerFirst (b, a) := by
  have hvalues : a.least.value ≠ b.least.value := by
    intro heq
    exact absurd ((ha.same_iff hb).2 heq) (by simp [hne])
  rcases lt_or_gt_of_ne hvalues with hlt | hlt
  · rw [lowerFirst_of_le ha hb hlt.le, lowerFirst_of_lt hb ha hlt]
  · rw [lowerFirst_of_lt ha hb hlt, lowerFirst_of_le hb ha hlt.le]

/-! ## One entry -/

/-- An entry has the names of two pairs for its label, and goes from the least size of the first to
the greatest size of the second. -/
structure Spans (minWidth maxWidth : Number) (lower upper : SizePair) (entry : Entry) : Prop where
  label : entry.label = lower.name ++ "-" ++ upper.name
  rendered : fluidText lower.least upper.greatest minWidth maxWidth = .ok entry.rendered

/-- An entry spans two pairs, of which the first one is defined earlier, from the lower one to the
other. -/
inductive Joins (minWidth maxWidth : Number) (a b : SizePair) (entry : Entry) : Prop
  | inOrder (hle : a.least.value ≤ b.least.value) (hspans : Spans minWidth maxWidth a b entry)
  | turned (hlt : b.least.value < a.least.value) (hspans : Spans minWidth maxWidth b a entry)

theorem spans_of_crossEntry {couple : SizePair × SizePair}
    (h : crossEntry minWidth maxWidth couple = .ok entry) :
    Spans minWidth maxWidth (lowerFirst couple).1 (lowerFirst couple).2 entry := by
  obtain ⟨text, htext, h⟩ := bind_eq_ok.1 h
  obtain rfl := pure_eq_ok.1 h
  exact ⟨rfl, htext⟩

theorem joins_of_crossEntry (ha : a.least.IsReal) (hb : b.least.IsReal)
    (h : crossEntry minWidth maxWidth (a, b) = .ok entry) : Joins minWidth maxWidth a b entry := by
  have hspans := spans_of_crossEntry h
  rcases le_or_gt a.least.value b.least.value with hle | hlt
  · rw [lowerFirst_of_le ha hb hle] at hspans
    exact .inOrder hle hspans
  · rw [lowerFirst_of_lt ha hb hlt] at hspans
    exact .turned hlt hspans

theorem crossEntry_comm (ha : a.least.IsReal) (hb : b.least.IsReal)
    (hne : a.least.same b.least = false) :
    crossEntry minWidth maxWidth (a, b) = crossEntry minWidth maxWidth (b, a) := by
  unfold crossEntry
  rw [lowerFirst_comm ha hb hne]

theorem value_le_of_pairEntry (hleast : a.least.IsReal) (hgreatest : a.greatest.IsReal)
    (h : pairEntry minWidth maxWidth a = .ok entry) : a.least.value ≤ a.greatest.value := by
  obtain ⟨text, htext, -⟩ := bind_eq_ok.1 h
  obtain ⟨f, hf, -⟩ := map_eq_ok.1 htext
  exact value_le_of_between hleast hgreatest hf

/-- From the lower of two pairs with sizes in order, the sizes to the other pair are in order. -/
theorem failsOnly_crossEntry (hwidths : minWidth.lt maxWidth = true)
    (ha : a.least.IsReal ∧ a.greatest.IsReal) (hb : b.least.IsReal ∧ b.greatest.IsReal)
    (hale : a.least.value ≤ a.greatest.value) (hble : b.least.value ≤ b.greatest.value) :
    FailsOnly IsNoRange (crossEntry minWidth maxWidth (a, b)) := by
  -- Whichever pair is the lower one, the sizes of the span are in order.
  have hspan : ∀ {lower upper : SizePair}, lower.least.IsReal → upper.greatest.IsReal →
      lower.least.value ≤ upper.greatest.value → lowerFirst (a, b) = (lower, upper) →
      FailsOnly IsNoRange (crossEntry minWidth maxWidth (a, b)) := by
    intro lower upper hlower hupper hle hfirst
    unfold crossEntry
    rw [hfirst]
    have hbetween := failsOnly_between_of_le hlower hupper hle hwidths
    exact (hbetween.map Fluid.text).bind fun _ _ => .ok _
  rcases le_or_gt a.least.value b.least.value with hle | hlt
  · exact hspan ha.1 hb.2 (hle.trans hble) (lowerFirst_of_le ha.1 hb.1 hle)
  · exact hspan hb.1 ha.2 (hlt.le.trans hale) (lowerFirst_of_lt ha.1 hb.1 hlt)

/-! ## All entries -/

theorem entriesOf_plain_eq_ok_iff {base : List Entry} :
    entriesOf pairs minWidth maxWidth false = .ok base ↔
      pairs.mapM (pairEntry minWidth maxWidth) = .ok base := by
  constructor
  · intro h
    obtain ⟨entries, hentries, h⟩ := bind_eq_ok.1 h
    obtain ⟨none, hnone, h⟩ := bind_eq_ok.1 h
    rw [hentries, ← pure_eq_ok.1 h, ← pure_eq_ok.1 hnone, List.append_nil]
  · intro h
    unfold entriesOf
    rw [h]
    exact congrArg Except.ok (List.append_nil base)

/-- With cross pairs, there are entries if every pair and every two of them give one. -/
theorem entriesOf_cross_eq_ok_iff {entries : List Entry} :
    entriesOf pairs minWidth maxWidth true = .ok entries ↔
      pairs.map (pairEntry minWidth maxWidth) ++
        (couples pairs).map (crossEntry minWidth maxWidth) = entries.map .ok := by
  constructor
  · intro h
    obtain ⟨base, hbase, h⟩ := bind_eq_ok.1 h
    obtain ⟨cross, hcross, h⟩ := bind_eq_ok.1 h
    rw [← pure_eq_ok.1 h, List.map_append, mapM_eq_ok_iff.1 hbase, mapM_eq_ok_iff.1 hcross]
  · intro h
    obtain ⟨base, cross, rfl, hbase, hcross⟩ := List.append_eq_map_iff.1 h
    refine bind_eq_ok.2 ⟨base, mapM_eq_ok_iff.2 hbase.symm, ?_⟩
    exact bind_eq_ok.2 ⟨cross, mapM_eq_ok_iff.2 hcross.symm, rfl⟩

/-- **Cross pairs add to a valid scale and take nothing from it.** No size is found to be out of
order. The entries are those of the pairs, and then one for every two of them: for the first and the
second, the first and the third, and so on, each from the lower pair to the other. -/
theorem crossPairs_extend {base : List Entry}
    (hsizes : ∀ pair ∈ pairs, pair.least.IsReal ∧ pair.greatest.IsReal)
    (hwidths : minWidth.lt maxWidth = true)
    (hbase : entriesOf pairs minWidth maxWidth false = .ok base) :
    (∀ e, entriesOf pairs minWidth maxWidth true = .error e → e.kind ≠ .range) ∧
      ∀ entries, entriesOf pairs minWidth maxWidth true = .ok entries →
        ∃ cross, entries = base ++ cross ∧ cross.length = pairs.length * (pairs.length - 1) / 2 ∧
          ∃ places : List (Nat × Nat),
            places.Pairwise (Prod.Lex (· < ·) (· < ·)) ∧
            (∀ i j, (i, j) ∈ places ↔ i < j ∧ j < pairs.length) ∧
            List.Forall₂ (fun place entry => ∃ a b, pairs[place.1]? = some a ∧
              pairs[place.2]? = some b ∧ Joins minWidth maxWidth a b entry) places cross := by
  have hmapM := entriesOf_plain_eq_ok_iff.1 hbase
  have hordered : ∀ pair ∈ pairs, pair.least.value ≤ pair.greatest.value := by
    intro pair hpair
    have hmem : pairEntry minWidth maxWidth pair ∈ base.map Except.ok := by
      rw [← mapM_eq_ok_iff.1 hmapM]
      exact List.mem_map_of_mem hpair
    obtain ⟨entry, -, hentry⟩ := List.mem_map.1 hmem
    obtain ⟨hleast, hgreatest⟩ := hsizes pair hpair
    exact value_le_of_pairEntry hleast hgreatest hentry.symm
  constructor
  · show FailsOnly IsNoRange (entriesOf pairs minWidth maxWidth true)
    unfold entriesOf
    rw [hmapM]
    show FailsOnly IsNoRange ((couples pairs).mapM (crossEntry minWidth maxWidth) >>= _)
    refine (FailsOnly.mapM fun couple hcouple => ?_).bind fun _ _ => .ok _
    obtain ⟨hfirst, hsecond⟩ := mem_couples hcouple
    exact failsOnly_crossEntry hwidths (hsizes _ hfirst) (hsizes _ hsecond) (hordered _ hfirst)
      (hordered _ hsecond)
  · intro entries hentries
    obtain ⟨base', cross, rfl, hbase', hcross⟩ :=
      List.append_eq_map_iff.1 (entriesOf_cross_eq_ok_iff.1 hentries)
    have hsame : base' = base :=
      Except.ok.inj ((mapM_eq_ok_iff.2 hbase'.symm).symm.trans hmapM)
    have hlength : cross.length = (couples pairs).length := by
      rw [← List.length_map, hcross, List.length_map]
    have hplaces := forall₂_places (crossEntry minWidth maxWidth) pairs
    rw [← hcross, List.forall₂_map_right_iff] at hplaces
    refine ⟨cross, by rw [hsame], by rw [hlength, length_couples],
      couples (List.range pairs.length),
      pairwise_couples_range _, fun i j => mem_couples_range, hplaces.imp ?_⟩
    rintro place entry ⟨a, b, ha, hb, hentry⟩
    have hleasta := (hsizes a (List.mem_of_getElem? ha)).1
    have hleastb := (hsizes b (List.mem_of_getElem? hb)).1
    exact ⟨a, b, ha, hb, joins_of_crossEntry hleasta hleastb hentry⟩

/-- Three pairs, of which the second begins where the first does, and the third below both. -/
def mixedPairs : List SizePair :=
  [⟨"s", 16, 24⟩, ⟨"m", .double (Double.ofInt 16), 32⟩, ⟨"l", 8, 8⟩]

def mixedBase : List Entry :=
  [⟨"s", "clamp(1rem, 0.8696vw + 0.8261rem, 1.5rem)"⟩,
    ⟨"m", "clamp(1rem, 1.7391vw + 0.6522rem, 2rem)"⟩, ⟨"l", "0.5rem"⟩]

def mixedCross : List Entry :=
  [⟨"s-m", "clamp(1rem, 1.7391vw + 0.6522rem, 2rem)"⟩,
    ⟨"l-s", "clamp(0.5rem, 1.7391vw + 0.1522rem, 1.5rem)"⟩,
    ⟨"l-m", "clamp(0.5rem, 2.6087vw + -0.0217rem, 2rem)"⟩]

theorem crossPairs_extend_mixedPairs :
    (∀ pair ∈ mixedPairs, pair.least.IsReal ∧ pair.greatest.IsReal) ∧
      (320 : Number).lt 1240 = true ∧ entriesOf mixedPairs 320 1240 false = .ok mixedBase ∧
      entriesOf mixedPairs 320 1240 true = .ok (mixedBase ++ mixedCross) ∧
      ∃ places : List (Nat × Nat), places.Pairwise (Prod.Lex (· < ·) (· < ·)) ∧
        (∀ i j, (i, j) ∈ places ↔ i < j ∧ j < 3) ∧
        List.Forall₂ (fun place entry => ∃ a b, mixedPairs[place.1]? = some a ∧
          mixedPairs[place.2]? = some b ∧ Joins 320 1240 a b entry) places mixedCross := by
  have hsizes : ∀ pair ∈ mixedPairs, pair.least.IsReal ∧ pair.greatest.IsReal := by
    simp only [mixedPairs, List.forall_mem_cons]
    exact ⟨⟨trivial, trivial⟩, ⟨rfl, trivial⟩, ⟨trivial, trivial⟩, by simp⟩
  have hwidths : (320 : Number).lt 1240 = true := by decide +kernel
  have hbase : entriesOf mixedPairs 320 1240 false = .ok mixedBase := by decide +kernel
  have hentries : entriesOf mixedPairs 320 1240 true = .ok (mixedBase ++ mixedCross) := by
    decide +kernel
  obtain ⟨cross, heq, -, hplaces⟩ := (crossPairs_extend hsizes hwidths hbase).2 _ hentries
  obtain rfl := List.append_cancel_left heq
  exact ⟨hsizes, hwidths, hbase, hentries, hplaces⟩

/-! ## Other orders -/

theorem exists_of_perm {pairs' : List SizePair} {entries : List Entry} (h : pairs.Perm pairs')
    (hsizes : ∀ pair ∈ pairs, pair.least.IsReal)
    (hleast : pairs.Pairwise fun a b => a.least.same b.least = false)
    (hentries : entriesOf pairs minWidth maxWidth true = .ok entries) :
    ∃ entries', entriesOf pairs' minWidth maxWidth true = .ok entries' ∧
      entries.Perm entries' := by
  have hcomm : pairs.Pairwise fun a b =>
      crossEntry minWidth maxWidth (a, b) = crossEntry minWidth maxWidth (b, a) :=
    hleast.imp_of_mem fun ha hb hne => crossEntry_comm (hsizes _ ha) (hsizes _ hb) hne
  have hresults := (h.map (pairEntry minWidth maxWidth)).append (perm_map_couples h hcomm)
  rw [entriesOf_cross_eq_ok_iff.1 hentries] at hresults
  have hsplit := (congrFun₂ (List.eq_map_comp_perm (@Except.ok Error Entry)) _ entries).mpr
    hresults.symm
  obtain ⟨entries', heq, hperm⟩ := hsplit
  exact ⟨entries', entriesOf_cross_eq_ok_iff.2 heq, hperm.symm⟩

/-- **The order of the pairs does not matter for what entries there are**, if no two least sizes are
the same: there are none in either order, or the same ones as often in both. -/
theorem entriesOf_perm {pairs' : List SizePair} (h : pairs.Perm pairs')
    (hsizes : ∀ pair ∈ pairs, pair.least.IsReal)
    (hleast : pairs.Pairwise fun a b => a.least.same b.least = false) :
    (∃ e e', entriesOf pairs minWidth maxWidth true = .error e ∧
      entriesOf pairs' minWidth maxWidth true = .error e') ∨
    ∃ entries entries', entriesOf pairs minWidth maxWidth true = .ok entries ∧
      entriesOf pairs' minWidth maxWidth true = .ok entries' ∧ entries.Perm entries' := by
  cases hentries : entriesOf pairs minWidth maxWidth true with
  | ok entries =>
    obtain ⟨entries', hentries', hperm⟩ := exists_of_perm h hsizes hleast hentries
    exact .inr ⟨entries, entries', rfl, hentries', hperm⟩
  -- If the pairs failed in one order only, the other order would give entries for both.
  | error e =>
    cases hentries' : entriesOf pairs' minWidth maxWidth true with
    | error e' => exact .inl ⟨e, e', rfl, rfl⟩
    | ok entries' =>
      have hsizes' : ∀ pair ∈ pairs', pair.least.IsReal := fun pair hpair =>
        hsizes pair (h.mem_iff.2 hpair)
      have hsymm : ∀ {a b : SizePair}, a.least.same b.least = false →
          b.least.same a.least = false := by
        intro a b hne
        rwa [same_comm]
      have hleast' := (h.pairwise_iff hsymm).1 hleast
      obtain ⟨entries, hok, -⟩ := exists_of_perm h.symm hsizes' hleast' hentries'
      rw [hentries] at hok
      cases hok

/-- Three pairs with different least sizes, the least of them last. -/
def steppedPairs : List SizePair :=
  [⟨"s", 16, 24⟩, ⟨"m", .double (Double.ofInt 24), 32⟩, ⟨"l", 8, 8⟩]

theorem entriesOf_perm_steppedPairs :
    steppedPairs.Perm steppedPairs.reverse ∧ (∀ pair ∈ steppedPairs, pair.least.IsReal) ∧
      steppedPairs.Pairwise (fun a b => a.least.same b.least = false) ∧
      ∃ entries entries', entriesOf steppedPairs 320 1240 true = .ok entries ∧
        entriesOf steppedPairs.reverse 320 1240 true = .ok entries' ∧ entries.Perm entries' := by
  have hperm : steppedPairs.Perm steppedPairs.reverse := (List.reverse_perm _).symm
  have hsizes : ∀ pair ∈ steppedPairs, pair.least.IsReal := by
    simp only [steppedPairs, List.forall_mem_cons]
    exact ⟨trivial, rfl, trivial, by simp⟩
  have hleast : steppedPairs.Pairwise fun a b => a.least.same b.least = false := by decide +kernel
  refine ⟨hperm, hsizes, hleast, (entriesOf_perm hperm hsizes hleast).resolve_left ?_⟩
  have hok : (entriesOf steppedPairs 320 1240 true).isOk = true := by decide +kernel
  rintro ⟨e, e', herror, -⟩
  rw [herror] at hok
  cases hok

end FluidCss.Scale
