import FluidCss.Proofs.Component.Clean
import FluidCss.Proofs.Number.Decimal

/-!
# Tokens that are written

The texts that the library writes by itself are made of names, decimals with and without a unit,
strings between double quotes, calls and marks. Each of them is read as its token where the text
that follows cannot go on with it. -/

namespace FluidCss

/-! ## Names -/

/-- A name that begins with a letter and has no escapes. -/
structure IsName (name : Text) : Prop where
  start : ∃ p t, name = p :: t ∧ Name.isStart p
  isPart : ∀ p ∈ name, Name.isPart p

instance (name : Text) : Decidable (IsName name) :=
  decidable_of_iff (name.head?.any Name.isStart ∧ ∀ p ∈ name, Name.isPart p) (by
    refine ⟨fun ⟨hstart, hpart⟩ => ⟨?_, hpart⟩, fun ⟨⟨p, t, hname, hstart⟩, hpart⟩ => ⟨?_, hpart⟩⟩
    · cases name with
      | nil => cases hstart
      | cons p t => exact ⟨p, t, rfl, hstart⟩
    · rw [hname]
      exact hstart)

/-- A code point that ends a name and makes neither a call nor a range of it. -/
def EndsName (p : CodePoint) : Prop :=
  Name.isPart p = false ∧ p ≠ '\\' ∧ p ≠ '(' ∧ p ≠ '+'

instance (p : CodePoint) : Decidable (EndsName p) := inferInstanceAs (Decidable (_ ∧ _))

theorem endsName_of_isStop {p : CodePoint} (h : isStop p) : EndsName p := by
  rcases isStop_iff.1 h with rfl | rfl | rfl | rfl | rfl | rfl | rfl <;> decide

theorem endsName_head {p : CodePoint} {t : Text} (h : EndsName p) :
    ∀ q ∈ (p :: t).head?, EndsName q := by
  intro q hq
  obtain rfl := Option.some.inj hq
  exact h

namespace Name

theorem isStart_facts {p : CodePoint} (h : isStart p) : isSpace p = false ∧ p ≠ '-' := by
  refine ⟨isSpace_eq_false_of_isPart (by simp [isPart, h]), ?_⟩
  rintro rfl
  exact absurd h (by decide)

theorem startsIdent_of_isStart {p : CodePoint} (h : isStart p) (t : Text) :
    startsIdent (p :: t) = true := by
  simp [startsIdent, h]

/-- A name is read to its end, if what follows does not go on with it. -/
theorem read_name {name after : Text} (hname : ∀ p ∈ name, isPart p)
    (hafter : ∀ p ∈ after.head?, isPart p = false ∧ p ≠ '\\') :
    read 0 (name ++ after) = (name, name.length) := by
  have htake : (name ++ after).takeWhile isPart = name := by
    rw [takeWhile_append_of_head fun p hp => (hafter p hp).1, List.takeWhile_eq_self_iff.2 hname]
  have hdrop : (name ++ after).dropWhile isPart = after := by
    rw [List.dropWhile_append_of_pos hname]
    cases after with
    | nil => rfl
    | cons p after => simp [(hafter p rfl).1]
  rw [read_eq_takeWhile, htake]
  rw [hdrop]
  exact fun p hp => (hafter p hp).2

end Name

namespace Scan

theorem startsRange_name {name after : Text} (h : IsName name)
    (hafter : ∀ p ∈ after.head?, p ≠ '+') : startsRange (name ++ after) = false := by
  obtain ⟨p, t, rfl, -⟩ := h.start
  cases hrange : startsRange (p :: t ++ after) with
  | false => rfl
  | true =>
    unfold startsRange at hrange
    split at hrange
    · rename_i c d tail heq
      obtain ⟨-, htail⟩ := List.cons.inj heq
      cases t with
      | nil =>
        have hhead : after = .char '+' :: d :: tail := htail
        exact absurd rfl (hafter (.char '+') (by rw [hhead]; rfl))
      | cons q t =>
        obtain ⟨rfl, -⟩ := List.cons.inj htail
        exact absurd (h.isPart (.char '+') (by simp)) (by decide)
    · cases hrange

theorem token_name {p : CodePoint} {t after : Text} (h : IsName (p :: t))
    (hafter : ∀ q ∈ after.head?, q ≠ '+') :
    token p (t ++ after) = identLike (p :: t ++ after) := by
  have hstart : Name.isStart p := by
    obtain ⟨q, t', heq, hq⟩ := h.start
    rwa [(List.cons.inj heq).1]
  obtain ⟨hspace, hminus⟩ := Name.isStart_facts hstart
  have hrange := startsRange_name h hafter
  have harrow : (p :: (t ++ after)).take 3 ≠ ("-->" : Text) := fun he => hminus (List.cons.inj he).1
  rw [List.cons_append] at hrange
  unfold token
  simp only [hspace, hrange, harrow, Name.startsIdent_of_isStart hstart, Bool.false_eq_true,
    if_false, if_true, List.cons_append]

/-! ## Decimals -/

/-- What begins neither a name nor a range begins with its number, if there is one. -/
theorem token_eq_numeric {c : CodePoint} {cs : Text} {n : Nat} (hspace : Name.isSpace c = false)
    (hrange : c ≠ 'U' ∧ c ≠ 'u') (harrow : (c :: cs).take 3 ≠ ("-->" : Text))
    (hident : Name.startsIdent (c :: cs) = false) (hnumber : numberLength (c :: cs) = n + 1) :
    token c cs = numeric (c :: cs) (n + 1) := by
  have hrange' : startsRange (c :: cs) = false := by
    unfold startsRange
    split
    · rename_i heq
      obtain ⟨rfl, -⟩ := List.cons.inj heq
      simp [hrange.1, hrange.2]
    · rfl
  unfold token
  simp only [hspace, hrange', harrow, hident, hnumber, Bool.false_eq_true, if_false]

/-- What begins with a decimal is a number, a percentage or a dimension. -/
theorem token_decimal {sign whole fraction v : Text} (h : IsDecimal sign whole fraction)
    (hv : ∀ p ∈ v.head?, EndsDecimal p) : ∃ c cs, sign ++ whole ++ fraction = c :: cs ∧
      token c (cs ++ v) = numeric (c :: cs ++ v) (c :: cs).length := by
  have hnumber := numberLength_decimal h hv
  obtain ⟨d, ds, hwhole, hd⟩ := h.whole.exists_cons
  obtain ⟨hspace, hstart, hminus, -, -, hescape⟩ := CodePoint.IsDigit.facts hd
  subst hwhole
  rcases h.sign with rfl | rfl
  · refine ⟨d, ds ++ fraction, by simp, ?_⟩
    refine token_eq_numeric hspace ?_ (fun he => hminus (List.cons.inj he).1) ?_ hnumber
    · constructor <;> rintro rfl <;> exact absurd hstart (by decide)
    · simp [Name.startsIdent, hstart, hminus, Name.startsEscape_cons hescape]
  · refine ⟨'-', d :: ds ++ fraction, by simp; rfl, ?_⟩
    refine token_eq_numeric (by decide) (by decide)
      (fun he => hminus (List.cons.inj (List.cons.inj he).2).1) ?_ hnumber
    have hhyphen : Name.isStart (.char '-') = false := by decide
    simp [Name.startsIdent, hhyphen, hstart, hminus, Name.startsEscape_cons hescape]

/-! ## Strings -/

theorem string_closed {t : Text} (ht : ∀ p ∈ t, p ≠ '"' ∧ p ≠ '\\' ∧ p ≠ '\n') (after : Text) :
    string '"' 0 (t ++ .char '"' :: after) = (t, t.length + 1, .closed) := by
  induction t with
  | nil => simp [string]
  | cons p t ih =>
    obtain ⟨hquote, hescape, hend⟩ := ht p List.mem_cons_self
    simp [string, hquote, hescape, hend, ih fun q hq => ht q (List.mem_cons_of_mem p hq)]

end Scan

/-! ## Pieces -/

namespace Piece

open Scan

theorem readsIn_ident {name after : Text} (h : IsName name)
    (hafter : ∀ p ∈ after.head?, EndsName p) :
    ReadsIn ⟨name, .leaf (.ident name)⟩ after := by
  obtain ⟨p, t, rfl, -⟩ := h.start
  refine ⟨p, t, rfl, ?_⟩
  have hread := Name.read_name h.isPart fun q hq => ⟨(hafter q hq).1, (hafter q hq).2.1⟩
  rw [token_name h fun q hq => (hafter q hq).2.2.2]
  simp only [identLike, hread, List.drop_left]
  split
  · exact absurd rfl (hafter _ rfl).2.2.1
  · rfl

theorem readsIn_function {name : Text} (h : IsName name) (hurl : name.map CodePoint.toLower ≠ "url")
    (after : Text) : ReadsIn ⟨name ++ "(", .function name⟩ after := by
  obtain ⟨p, t, rfl, -⟩ := h.start
  refine ⟨p, t ++ "(", rfl, ?_⟩
  have hopening : ∀ q ∈ (("(" : Text) ++ after).head?, q = .char '(' := by
    intro q hq
    exact (Option.some.inj hq).symm
  have hread : Name.read 0 (p :: t ++ (("(" : Text) ++ after)) = _ :=
    Name.read_name h.isPart fun q hq => by
      rw [hopening q hq]
      decide
  rw [List.append_assoc, token_name h fun q hq => by rw [hopening q hq]; decide]
  simp only [identLike, hread, List.drop_left]
  show (if (p :: t).map CodePoint.toLower = "url" ∧ _ then _ else _) = _
  rw [if_neg fun h => hurl h.1, List.length_append]
  rfl

theorem readsIn_number {sign whole fraction after : Text} (h : IsDecimal sign whole fraction)
    (hident : Name.startsIdent after = false)
    (hafter : ∀ p ∈ after.head?, EndsDecimal p ∧ p ≠ '%') :
    ReadsIn ⟨sign ++ whole ++ fraction, .leaf (.number (sign ++ whole ++ fraction))⟩ after := by
  obtain ⟨c, cs, htext, htoken⟩ := token_decimal h fun p hp => (hafter p hp).1
  refine ⟨c, cs, htext, ?_⟩
  have hpercent : after.head? ≠ some (.char '%') := fun he => (hafter _ he).2 rfl
  rw [htoken, htext]
  simp [numeric, hident, hpercent]

theorem readsIn_dimension {sign whole fraction unit after : Text}
    (h : IsDecimal sign whole fraction) (hunit : IsName unit)
    (hhead : ∀ p ∈ unit.head?, EndsDecimal p) (hafter : ∀ p ∈ after.head?, EndsName p) :
    ReadsIn ⟨sign ++ whole ++ fraction ++ unit,
      .leaf (.dimension (sign ++ whole ++ fraction) unit)⟩ after := by
  obtain ⟨p, t, rfl, hp⟩ := hunit.start
  obtain ⟨c, cs, htext, htoken⟩ := token_decimal (v := p :: t ++ after) h hhead
  refine ⟨c, cs ++ p :: t, by rw [htext]; rfl, ?_⟩
  have hread := Name.read_name hunit.isPart fun q hq => ⟨(hafter q hq).1, (hafter q hq).2.1⟩
  rw [List.append_assoc, htoken, htext]
  simp only [List.cons_append] at hread
  simp [numeric, Name.startsIdent_of_isStart hp, hread]
  omega

theorem readsIn_string {t : Text} (ht : ∀ p ∈ t, p ≠ '"' ∧ p ≠ '\\' ∧ p ≠ '\n') (after : Text) :
    ReadsIn ⟨"\"" ++ t ++ "\"", .leaf (.string t)⟩ after := by
  refine ⟨'"', t ++ "\"", rfl, ?_⟩
  have hstring := string_closed ht after
  rw [token_eq_punctuation _ (by decide) (by decide) (by decide) (by decide), List.append_assoc]
  show quoted '"' (t ++ .char '"' :: after) = _
  simp only [quoted, hstring]
  simp only [List.length_append]
  show _ = (_, 1 + t.length + 1)
  rw [Nat.add_comm 1]

def comma : Piece := ⟨",", .leaf (.literal ",")⟩

theorem readsIn_comma (after : Text) : comma.ReadsIn after := by
  refine ⟨',', [], rfl, ?_⟩
  rw [List.nil_append, token_eq_punctuation _ (by decide) (by decide) (by decide) (by decide),
    punctuation_mark _ (by decide), if_neg fun h => absurd h.2 (by decide)]
  rfl

theorem clean_comma : comma.Clean :=
  ⟨trivial, ⟨endsWell_singleton (by decide), rfl⟩, by decide, by decide, by decide, rfl⟩

def plus : Piece := ⟨"+", .leaf (.literal "+")⟩

theorem readsIn_plus (after : Text) : plus.ReadsIn (.char ' ' :: after) := ⟨'+', [], rfl, rfl⟩

theorem clean_plus : plus.Clean :=
  ⟨trivial, ⟨endsWell_singleton (by decide), rfl⟩, by decide, by decide, by decide, rfl⟩

theorem readsIn_gap {after : Text} (hafter : ∀ c ∈ after.head?, Name.isSpace c = false) :
    ReadsIn ⟨" ", .leaf .space⟩ after :=
  readsIn_space (by decide) (by decide) hafter

end Piece

end FluidCss
