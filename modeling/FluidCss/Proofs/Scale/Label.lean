import FluidCss.Proofs.Result
import FluidCss.Scale.Compile
import Mathlib.Data.List.Nodup

/-!
# Labels and the names of custom properties

A label is the name of a pair, or the names of two pairs with a hyphen between them. If no name has
a hyphen in it, the labels of a scale are different, and the name of a custom property tells the
scale and the label.

* `propertyName_inj`: which scale and which label a custom property belongs to.
* `nodup_labels`: the entries of a compiled scale have different labels.
-/

namespace FluidCss.Scale

/-- Neither the scale nor any of its pairs has a hyphen in its name. -/
structure Plain (scale : Scale) : Prop where
  name : ('-' : CodePoint) ∉ scale.name
  pairs : ∀ pair ∈ scale.pairs, ('-' : CodePoint) ∉ pair.name

theorem hyphen_eq : ("-" : Text) = [.char '-'] := rfl

theorem append_hyphen_inj {a b c d : Text} (ha : ('-' : CodePoint) ∉ a)
    (hc : ('-' : CodePoint) ∉ c) (h : a ++ "-" ++ b = c ++ "-" ++ d) : a = c ∧ b = d := by
  rw [hyphen_eq] at h
  -- The first parts are compared point by point; if one were shorter, its hyphen would be in the
  -- other.
  induction a generalizing c with
  | nil =>
    cases c with
    | nil => exact ⟨rfl, by simpa using h⟩
    | cons p c => exact absurd (List.mem_cons.2 (.inl (List.cons.inj h).1)) hc
  | cons p a ih =>
    cases c with
    | nil => exact absurd (List.mem_cons.2 (.inl (List.cons.inj h).1.symm)) ha
    | cons q c =>
      simp only [List.mem_cons, not_or] at ha hc
      simp only [List.cons_append, List.cons.injEq] at h
      obtain ⟨rfl, rfl⟩ := ih ha.2 hc.2 h.2
      exact ⟨by rw [h.1], rfl⟩

theorem propertyName_inj {scale scale' label label' : Text} (hscale : ('-' : CodePoint) ∉ scale)
    (hscale' : ('-' : CodePoint) ∉ scale')
    (h : propertyName scale label = propertyName scale' label') :
    scale = scale' ∧ label = label' := by
  refine append_hyphen_inj hscale hscale' ?_
  simpa [propertyName] using h

/-! ## Labels -/

/-- The label of an entry that spans two pairs. -/
def crossLabel (couple : SizePair × SizePair) : Text :=
  (lowerFirst couple).1.name ++ "-" ++ (lowerFirst couple).2.name

theorem lowerFirst_eq (a b : SizePair) :
    lowerFirst (a, b) = (a, b) ∨ lowerFirst (a, b) = (b, a) := by
  by_cases h : b.least.lt a.least <;> simp [lowerFirst, h]

theorem mem_couples {α : Type} {as : List α} {c : α × α} (h : c ∈ couples as) :
    c.1 ∈ as ∧ c.2 ∈ as := by
  induction as with
  | nil => cases h
  | cons a as ih =>
    rcases List.mem_append.1 h with h | h
    · obtain ⟨b, hb, rfl⟩ := List.mem_map.1 h
      exact ⟨List.mem_cons_self, List.mem_cons_of_mem a hb⟩
    · exact ⟨List.mem_cons_of_mem a (ih h).1, List.mem_cons_of_mem a (ih h).2⟩

/-- The label tells the names of the two pairs, though not which came first. -/
theorem crossLabel_inj {a b c d : SizePair} (ha : ('-' : CodePoint) ∉ a.name)
    (hb : ('-' : CodePoint) ∉ b.name) (hc : ('-' : CodePoint) ∉ c.name)
    (hd : ('-' : CodePoint) ∉ d.name) (h : crossLabel (a, b) = crossLabel (c, d)) :
    (a.name = c.name ∧ b.name = d.name) ∨ (a.name = d.name ∧ b.name = c.name) := by
  unfold crossLabel at h
  rcases lowerFirst_eq a b with hab | hab <;> rcases lowerFirst_eq c d with hcd | hcd <;>
    rw [hab, hcd] at h
  · exact .inl (append_hyphen_inj ha hc h)
  · exact .inr (append_hyphen_inj ha hd h)
  · exact .inr (append_hyphen_inj hb hc h).symm
  · exact .inl (append_hyphen_inj hb hd h).symm

theorem nodup_crossLabels {pairs : List SizePair} (hnames : (pairs.map SizePair.name).Nodup)
    (hplain : ∀ pair ∈ pairs, ('-' : CodePoint) ∉ pair.name) :
    ((couples pairs).map crossLabel).Nodup := by
  induction pairs with
  | nil => exact List.nodup_nil
  | cons a as ih =>
    obtain ⟨ha, has⟩ := List.nodup_cons.1 hnames
    have hplain' : ∀ pair ∈ as, ('-' : CodePoint) ∉ pair.name := fun p hp =>
      hplain p (List.mem_cons_of_mem a hp)
    have hself := hplain a List.mem_cons_self
    have hother : ∀ {b}, b ∈ as → a.name ≠ b.name := fun hb he =>
      ha (he ▸ List.mem_map_of_mem hb)
    rw [couples, List.map_append, List.map_map]
    refine List.nodup_append.2 ⟨?_, ih has hplain', ?_⟩
    -- Among the couples of the first pair the other name tells them apart.
    · have hinj : ∀ b ∈ as, ∀ c ∈ as, crossLabel (a, b) = crossLabel (a, c) →
          b.name = c.name := by
        intro b hb c hc h
        rcases crossLabel_inj hself (hplain' b hb) hself (hplain' c hc) h with h | h
        · exact h.2
        · exact absurd h.1 (hother hc)
      have hnodup := has
      rw [List.Nodup, List.pairwise_map] at hnodup ⊢
      exact hnodup.imp_of_mem fun hb hc hne h => hne (hinj _ hb _ hc h)
    -- The label of a couple without the first pair does not have its name.
    · intro x hx y hy he
      obtain ⟨b, hb, rfl⟩ := List.mem_map.1 hx
      obtain ⟨c, hc, rfl⟩ := List.mem_map.1 hy
      obtain ⟨hc₁, hc₂⟩ := mem_couples hc
      rcases crossLabel_inj hself (hplain' b hb) (hplain' c.1 hc₁) (hplain' c.2 hc₂) he with h | h
      · exact hother hc₁ h.1
      · exact hother hc₂ h.1

/-- The labels of a compiled scale: the names of the pairs, and then those of every two of them. -/
theorem labels_of_compile {scale : Scale} {entries : List Entry}
    (h : scale.compile = .ok entries) :
    entries.map Entry.label = scale.pairs.map SizePair.name ++
      if scale.crossPairs then (couples scale.pairs).map crossLabel else [] := by
  have hpair : ∀ {pair entry}, pairEntry scale.minWidth scale.maxWidth pair = .ok entry →
      entry.label = pair.name := by
    intro pair entry h
    obtain ⟨text, -, h⟩ := bind_eq_ok.1 h
    rw [← pure_eq_ok.1 h]
  have hcross : ∀ {couple entry}, crossEntry scale.minWidth scale.maxWidth couple = .ok entry →
      entry.label = crossLabel couple := by
    intro couple entry h
    obtain ⟨text, -, h⟩ := bind_eq_ok.1 h
    rw [← pure_eq_ok.1 h]
    rfl
  obtain ⟨base, hbase, h⟩ := bind_eq_ok.1 h
  rw [← map_eq_of_mapM_ok hpair hbase]
  by_cases hflag : scale.crossPairs = true
  · simp only [hflag, if_true] at h ⊢
    obtain ⟨cross, hcouples, h⟩ := bind_eq_ok.1 h
    rw [← pure_eq_ok.1 h, List.map_append, map_eq_of_mapM_ok hcross hcouples]
  · simp only [hflag, Bool.false_eq_true, if_false] at h ⊢
    obtain ⟨cross, hnone, h⟩ := bind_eq_ok.1 h
    rw [← pure_eq_ok.1 h, ← pure_eq_ok.1 hnone, List.append_nil, List.append_nil]

/-- **The labels of a compiled scale are different** if the names of its pairs are and have no
hyphens. -/
theorem nodup_labels {scale : Scale} {entries : List Entry} (h : scale.compile = .ok entries)
    (hnames : (scale.pairs.map SizePair.name).Nodup)
    (hplain : ∀ pair ∈ scale.pairs, ('-' : CodePoint) ∉ pair.name) :
    (entries.map Entry.label).Nodup := by
  rw [labels_of_compile h]
  refine List.nodup_append.2 ⟨hnames, ?_, ?_⟩
  · split
    · exact nodup_crossLabels hnames hplain
    · exact List.nodup_nil
  · intro x hx y hy he
    obtain ⟨pair, hpair, rfl⟩ := List.mem_map.1 hx
    split at hy
    · obtain ⟨couple, -, rfl⟩ := List.mem_map.1 hy
      refine hplain pair hpair ?_
      rw [he, crossLabel, hyphen_eq]
      simp
    · cases hy

end FluidCss.Scale
