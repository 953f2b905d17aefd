import FluidCss.Proofs.Clamp.Order
import FluidCss.Proofs.Number.Nearest

/-!
# Finite results and their signs

What a sum, a product or a quotient tells of the numbers that it was worked out of. A finite result
comes from finite numbers, but for the divisor of a quotient, which may be an infinity. A result
that is finite is not negative if the exact one is not, as rounding keeps the order; infinities do
not matter for this, since their value is taken to be zero.

* `Number.isReal_of_sub`, `Number.isReal_of_mul`, `Number.isReal_of_div`: finite results.
* `Number.value_sub_nonneg`, `Number.value_mul_nonneg`, `Number.value_div_nonneg`: results that are
  not negative.
-/

namespace FluidCss

/-! ## Doubles -/

namespace Double

variable {x y : Double}

theorem isFinite_of_add (h : (x.add y).isFinite = true) :
    x.isFinite = true ∧ y.isFinite = true := by
  cases x with
  | nan => cases h
  | infinite s =>
    cases y with
    | nan => cases h
    | infinite t =>
      by_cases hst : s = t <;> simp [add, hst, isFinite] at h
    | finite t m e canonical => cases h
  | finite s m e canonical =>
    cases y with
    | nan => cases h
    | infinite t => cases h
    | finite t m' e' canonical' => exact ⟨rfl, rfl⟩

theorem isFinite_neg (x : Double) : x.neg.isFinite = x.isFinite := by
  cases x <;> rfl

theorem isFinite_of_sub (h : (x.sub y).isFinite = true) :
    x.isFinite = true ∧ y.isFinite = true := by
  rw [← isFinite_neg y]
  exact isFinite_of_add h

theorem isFinite_of_mul (h : (x.mul y).isFinite = true) :
    x.isFinite = true ∧ y.isFinite = true := by
  cases hx : x.value? with
  | some p =>
    cases hy : y.value? with
    | some q => exact ⟨isFinite_of_value? hx, isFinite_of_value? hy⟩
    | none =>
      simp only [mul, hx, hy] at h
      split at h <;> cases h
  | none =>
    simp only [mul, hx] at h
    split at h <;> cases h

theorem isFinite_of_div (h : (x.div y).isFinite = true) : x.isFinite = true := by
  cases hx : x.value? with
  | some p => exact isFinite_of_value? hx
  | none =>
    cases hy : y.value? with
    | some q =>
      simp only [div, hx, hy] at h
      split at h <;> cases h
    | none =>
      simp only [div, hx, hy] at h
      cases h

end Double

namespace Number

variable {a b c : Number}

/-! ## Finite results -/

theorem isReal_of_toDouble {x : Double} (h : a.toDouble = .ok x) (hx : x.isFinite = true) :
    a.IsReal := by
  cases a with
  | int n => trivial
  | double d =>
    obtain rfl := Except.ok.inj h
    exact hx

theorem isReal_of_combine {exact : Int → Int → Int} {rounded : Double → Double → Double}
    (hrounded : ∀ {x y}, (rounded x y).isFinite = true → x.isFinite = true ∧ y.isFinite = true)
    (h : combine exact rounded a b = .ok c) (hc : c.IsReal) : a.IsReal ∧ b.IsReal := by
  rcases combine_cases h with ⟨m, n, rfl, rfl, -⟩ | ⟨x, y, hx, hy, rfl⟩
  · exact ⟨trivial, trivial⟩
  · obtain ⟨hxfinite, hyfinite⟩ := hrounded hc
    exact ⟨isReal_of_toDouble hx hxfinite, isReal_of_toDouble hy hyfinite⟩

theorem isReal_of_sub (h : a.sub b = .ok c) (hc : c.IsReal) : a.IsReal ∧ b.IsReal :=
  isReal_of_combine Double.isFinite_of_sub h hc

theorem isReal_of_mul (h : a.mul b = .ok c) (hc : c.IsReal) : a.IsReal ∧ b.IsReal :=
  isReal_of_combine Double.isFinite_of_mul h hc

theorem isReal_of_div (h : a.div b = .ok c) (hc : c.IsReal) : a.IsReal := by
  rcases div_cases h with ⟨m, n, s, rfl, rfl, rfl⟩ | ⟨x, y, hx, hy, rfl⟩
  · trivial
  · exact isReal_of_toDouble hx (Double.isFinite_of_div hc)

/-! ## Signs -/

theorem value_double {d : Double} {q : Rat} (h : d.value? = some q) :
    (Number.double d).value = q := by
  simp [value, point?, h]

/-- What is not finite has the value zero. -/
theorem value_nonneg_of (h : a.IsReal → 0 ≤ a.value) : 0 ≤ a.value := by
  cases a with
  | int n => exact h trivial
  | double d =>
    cases d with
    | finite negative m e canonical => exact h rfl
    | infinite negative => cases negative <;> exact le_refl (0 : Rat)
    | nan => exact le_refl (0 : Rat)

/-- The double that a number becomes is the nearest one. -/
theorem toDouble_nearest {x : Double} {v : Rat} (h : a.toDouble = .ok x)
    (hx : x.value? = some v) : Double.IsNearest v a.value := by
  cases a with
  | int n =>
    unfold toDouble at h
    dsimp only at h
    split at h
    · obtain rfl := Except.ok.inj h
      exact Double.ofRat_nearest hx
    · cases h
  | double d =>
    obtain rfl := Except.ok.inj h
    rw [value_double hx]
    intro e u hu
    rw [sub_self, abs_zero]
    exact abs_nonneg _

theorem value_sub_nonneg (h : a.sub b = .ok c) (hge : b.ge a = false) : 0 ≤ c.value := by
  refine value_nonneg_of fun hc => ?_
  obtain ⟨ha, hb⟩ := isReal_of_sub h hc
  have hlt : b.value < a.value := by
    rw [ge_eq_not_lt hb ha, Bool.not_eq_false'] at hge
    exact (hb.lt_iff ha).1 hge
  rcases combine_cases h with ⟨m, n, rfl, rfl, rfl⟩ | ⟨x, y, hx, hy, rfl⟩
  · have hlt : (n : Rat) < m := hlt
    show (0 : Rat) ≤ ((m - n : Int) : Rat)
    rw [Int.cast_sub]
    linarith
  · obtain ⟨v, hv⟩ := Double.exists_value? hc
    obtain ⟨hxfinite, hyfinite⟩ := Double.isFinite_of_sub hc
    obtain ⟨p, hp⟩ := Double.exists_value? hxfinite
    obtain ⟨q, hq⟩ := Double.exists_value? hyfinite
    -- The doubles are in the same order as the numbers, if not strictly.
    have hle := (toDouble_nearest hy hq).le_of_lt (toDouble_nearest hx hp) hq hp hlt
    obtain ⟨s, hs⟩ := Double.sub_eq_ofRat hp hq
    rw [value_double hv]
    exact (Double.ofRat_nearest (hs ▸ hv)).nonneg (by linarith)

theorem value_mul_nonneg (h : a.mul b = .ok c) (ha : 0 ≤ a.value) (hb : 0 ≤ b.value) :
    0 ≤ c.value := by
  refine value_nonneg_of fun hc => ?_
  rcases combine_cases h with ⟨m, n, rfl, rfl, rfl⟩ | ⟨x, y, hx, hy, rfl⟩
  · show (0 : Rat) ≤ ((m * n : Int) : Rat)
    rw [Int.cast_mul]
    exact mul_nonneg ha hb
  · obtain ⟨v, hv⟩ := Double.exists_value? hc
    obtain ⟨hxfinite, hyfinite⟩ := Double.isFinite_of_mul hc
    obtain ⟨p, hp⟩ := Double.exists_value? hxfinite
    obtain ⟨q, hq⟩ := Double.exists_value? hyfinite
    have hpnonneg := (toDouble_nearest hx hp).nonneg ha
    have hqnonneg := (toDouble_nearest hy hq).nonneg hb
    rw [value_double hv]
    simp only [Double.mul, hp, hq] at hv
    exact (Double.ofRat_nearest hv).nonneg (by positivity)

/-- The divisor may be an infinity, and the quotient is a zero then. -/
theorem value_div_nonneg (h : a.div b = .ok c) (ha : 0 ≤ a.value) (hb : 0 ≤ b.value) :
    0 ≤ c.value := by
  refine value_nonneg_of fun hc => ?_
  rcases div_cases h with ⟨m, n, s, rfl, rfl, rfl⟩ | ⟨x, y, hx, hy, rfl⟩
  · obtain ⟨v, hv⟩ := Double.exists_value? hc
    have hm : (0 : Rat) ≤ m := ha
    have hn : (0 : Rat) ≤ n := hb
    rw [value_double hv]
    exact (Double.ofRat_nearest hv).nonneg (by positivity)
  · obtain ⟨v, hv⟩ := Double.exists_value? hc
    obtain ⟨p, hp⟩ := Double.exists_value? (Double.isFinite_of_div hc)
    have hpnonneg := (toDouble_nearest hx hp).nonneg ha
    rw [value_double hv]
    cases hq : y.value? with
    | some q =>
      have hqnonneg := (toDouble_nearest hy hq).nonneg hb
      simp only [Double.div, hp, hq] at hv
      exact (Double.ofRat_nearest hv).nonneg (by positivity)
    -- A finite number over an infinity.
    | none =>
      simp only [Double.div, hp, hq] at hv
      split at hv
      · cases hv
      · exact (Double.value?_ofRat_zero hv).ge

end Number

end FluidCss
