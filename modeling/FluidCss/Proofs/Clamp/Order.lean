import FluidCss.Proofs.Clamp.Failure

/-!
# Sizes and widths in order

Numbers are compared by their exact values, integers and doubles alike, so the comparisons of
numbers that have values are those of the values. What is not allowed of sizes or widths is told by
them:

* `Fluid.value_le_of_between`: the sizes of a fluid value are in order.
* `Fluid.failsOnly_between_of_le`: sizes and widths in order are not reported to be out of order.
-/

namespace FluidCss

namespace Number

/-! ## Values -/

/-- The exact value of a number, zero if it has none. -/
def value (a : Number) : Rat :=
  match a.point? with
  | some (.inner q) => q
  | _ => 0

variable {a b : Number}

theorem IsReal.point?_eq : ∀ {a : Number}, a.IsReal → a.point? = some (.inner a.value)
  | .int _, _ => rfl
  | .double d, h => by
    obtain ⟨p, hp⟩ := Double.exists_value? h
    simp [value, point?, hp]

theorem IsReal.lt_iff (ha : a.IsReal) (hb : b.IsReal) : a.lt b = true ↔ a.value < b.value := by
  simp [lt, ha.point?_eq, hb.point?_eq, Point.lt]

theorem IsReal.same_iff (ha : a.IsReal) (hb : b.IsReal) :
    a.same b = true ↔ a.value = b.value := by
  simp [same, ha.point?_eq, hb.point?_eq]

/-- Of numbers that have values one is below the other or at least as large. -/
theorem ge_eq_not_lt (ha : a.IsReal) (hb : b.IsReal) : a.ge b = !a.lt b := by
  rw [Bool.eq_iff_iff, ge, Bool.or_eq_true, hb.lt_iff ha, ha.same_iff hb, Bool.not_eq_true',
    ← Bool.not_eq_true, ha.lt_iff hb, not_lt, le_iff_lt_or_eq, eq_comm]

theorem not_same_of_lt (ha : a.IsReal) (hb : b.IsReal) (h : a.lt b = true) : a.same b = false := by
  rw [← Bool.not_eq_true, ha.same_iff hb]
  exact ne_of_lt ((ha.lt_iff hb).1 h)

theorem Point.lt_asymm {p q : Point} (h : p.lt q = true) : q.lt p = false ∧ p ≠ q := by
  cases p <;> cases q <;> simp_all [Point.lt, le_of_lt, ne_of_lt]

theorem ge_eq_false_of_lt (h : a.lt b = true) : a.ge b = false := by
  unfold lt at h
  split at h
  · rename_i p q hp hq
    obtain ⟨hlt, hne⟩ := Point.lt_asymm h
    simp [ge, lt, same, hp, hq, hlt, hne]
  · cases h

end Number

open Number

namespace Fluid

variable {minSize maxSize minWidth maxWidth : Number}

theorem checkOrder_of_lt {least greatest : Number} (hleast : least.IsReal)
    (hgreatest : greatest.IsReal) (h : least.lt greatest = true) (quantity : Text) :
    checkOrder quantity least greatest = .ok () := by
  rw [checkOrder, ge_eq_not_lt hleast hgreatest, h]
  rfl

theorem lt_of_checkOrder {least greatest : Number} {quantity : Text} {u : Unit}
    (hleast : least.IsReal) (hgreatest : greatest.IsReal)
    (h : checkOrder quantity least greatest = .ok u) : least.lt greatest = true := by
  rw [checkOrder, ge_eq_not_lt hleast hgreatest] at h
  by_contra hlt
  rw [Bool.not_eq_true] at hlt
  rw [hlt] at h
  cases h

/-- The sizes between which there is a fluid value are the same or in order. -/
theorem value_le_of_between {f : Fluid} (hmin : minSize.IsReal) (hmax : maxSize.IsReal)
    (h : between minSize maxSize minWidth maxWidth = .ok f) : minSize.value ≤ maxSize.value := by
  unfold between at h
  by_cases hsame : minSize.same maxSize = true
  · exact ((hmin.same_iff hmax).1 hsame).le
  · simp only [hsame, Bool.false_eq_true, if_false] at h
    obtain ⟨_, hsizes, -⟩ := bind_eq_ok.1 h
    exact ((hmin.lt_iff hmax).1 (lt_of_checkOrder hmin hmax hsizes)).le

/-- An error other than that a minimum is not below its maximum. -/
def IsNoRange (e : Error) : Prop := e.kind ≠ .range

theorem failsOnly_ofArithmetic_isNoRange {α : Type} (x : Except ArithmeticError α) :
    FailsOnly IsNoRange (Error.ofArithmetic x) := by
  cases x with
  | error c => exact .error (by simp [IsNoRange, Error.kind])
  | ok a => exact .ok a

/-- **Sizes and widths in order are not reported to be out of order.** -/
theorem failsOnly_between_of_le (hmin : minSize.IsReal) (hmax : maxSize.IsReal)
    (hsizes : minSize.value ≤ maxSize.value) (hwidths : minWidth.lt maxWidth = true) :
    FailsOnly IsNoRange (between minSize maxSize minWidth maxWidth) := by
  unfold between
  by_cases hsame : minSize.same maxSize = true
  · simp only [hsame, if_true]
    exact (failsOnly_ofArithmetic_isNoRange _).bind fun _ _ => .ok _
  -- Sizes in order that are not the same are strictly in order, so both checks pass.
  have hlt : minSize.lt maxSize = true :=
    (hmin.lt_iff hmax).2 (lt_of_le_of_ne hsizes fun heq => hsame ((hmin.same_iff hmax).2 heq))
  have hsizes : checkOrder "size" minSize maxSize = .ok () := checkOrder_of_lt hmin hmax hlt _
  have hwidths : checkOrder "width" minWidth maxWidth = .ok () := by
    rw [checkOrder, ge_eq_false_of_lt hwidths]
    rfl
  simp only [hsame, Bool.false_eq_true, if_false, hsizes, hwidths]
  refine (failsOnly_ofArithmetic_isNoRange _).bind fun both _ => ?_
  refine (failsOnly_ofArithmetic_isNoRange _).bind fun printable _ => ?_
  cases printable with
  | true => exact failsOnly_ofArithmetic_isNoRange _
  | false => exact .error (by simp [IsNoRange, Error.kind])

end Fluid

end FluidCss
