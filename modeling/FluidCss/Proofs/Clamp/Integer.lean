import FluidCss.Proofs.Clamp.Failure

/-!
# Fluid values of integers

The numbers of a scale may be integers where those of an inline call are doubles.

**Theorem (`report_fluidText_ofInt`).** The fluid value between nonzero integers up to `2 ^ 52` is
the one between the doubles next to them: the texts are the same, or both fail with the same report.

Integers of that size are doubles, and so are the differences of two of them, so both ways lead to
one quotient that is rounded once. From there on all numbers are doubles. Only the report of a line
that cannot be printed would show a double by its point, and this line is far below the greatest
double.
-/

namespace FluidCss

/-- What is told of an error: its kind and its message. -/
def Error.report (e : Error) : Error.Kind × Text := (e.kind, e.message)

/-! ## Integers as doubles -/

namespace Number

variable {m n : Int}

theorem toDouble_ofInt (h : n.natAbs ≤ 2 ^ 53) : (Number.int n).toDouble = .ok (Double.ofInt n) :=
  if_pos (Double.isFinite_of_value? (Double.value?_ofInt h))

theorem point?_ofInt (h : n.natAbs ≤ 2 ^ 53) :
    (Number.double (.ofInt n)).point? = (Number.int n).point? := by
  simp [point?, Double.value?_ofInt h]

theorem plainText_ofInt (h : n.natAbs ≤ 2 ^ 53) :
    (Number.double (.ofInt n)).plainText = (Number.int n).plainText := by
  simp [plainText, Double.value?_ofInt h]

theorem same_ofInt (hm : m.natAbs ≤ 2 ^ 53) (hn : n.natAbs ≤ 2 ^ 53) :
    (Number.double (.ofInt m)).same (.double (.ofInt n)) = (Number.int m).same (.int n) := by
  rw [same, same, point?_ofInt hm, point?_ofInt hn]

theorem ge_ofInt (hm : m.natAbs ≤ 2 ^ 53) (hn : n.natAbs ≤ 2 ^ 53) :
    (Number.double (.ofInt m)).ge (.double (.ofInt n)) = (Number.int m).ge (.int n) := by
  rw [ge, ge, same_ofInt hm hn, lt, lt, point?_ofInt hm, point?_ofInt hn]

theorem sub_ofInt (hm : m.natAbs ≤ 2 ^ 53) (hn : n.natAbs ≤ 2 ^ 53) (hne : m ≠ n) :
    (Number.double (.ofInt m)).sub (.double (.ofInt n)) = .ok (.double (.ofInt (m - n))) := by
  rw [← Double.sub_ofInt hm hn hne]
  rfl

section

variable (hm : m.natAbs ≤ 2 ^ 53) (hn : n.natAbs ≤ 2 ^ 53) (hmne : m ≠ 0) (hnne : n ≠ 0)

include hm hn hmne hnne

theorem int_div_int :
    (Number.int m).div (.int n) = .ok (.double (.ofRat false (m / n))) := by
  have hquotient : (m / n : Rat) ≠ 0 :=
    div_ne_zero (by exact_mod_cast hmne) (by exact_mod_cast hnne)
  have hm : (Number.int m).IsExact := hm
  have hn : (Number.int n).IsExact := hn
  obtain ⟨d, hd⟩ := div_of_hasDouble hm.hasDouble hn.hasDouble hnne
  rw [int_div_of_ne_zero m hnne, Double.ofRat_eq_ofRat _ false hquotient] at hd ⊢
  split at hd
  · rename_i hfinite
    rw [if_pos hfinite]
  · cases hd

theorem double_div_of_toDouble {b : Number} (hb : b.toDouble = .ok (Double.ofInt n)) :
    (Number.double (.ofInt m)).div b = .ok (.double (.ofRat false (m / n))) := by
  have hquotient : (m / n : Rat) ≠ 0 :=
    div_ne_zero (by exact_mod_cast hmne) (by exact_mod_cast hnne)
  have hdouble : (Double.ofInt m).div (.ofInt n) = .ofRat false (m / n) := by
    simp only [Double.div, Double.value?_ofInt hm, Double.value?_ofInt hn]
    exact Double.ofRat_eq_ofRat _ _ hquotient
  rcases div_of_doubles (a := .double (.ofInt m)) rfl hb with ⟨_, _, hint, -⟩ | hdiv
  · cases hint
  · rw [hdiv, hdouble, Double.isZero_ofInt hnne]
    rfl

end

end Number

theorem Length.rems_ofInt {n : Int} (h : n.natAbs ≤ 2 ^ 53) (hne : n ≠ 0) :
    rems (.double (.ofInt n)) = rems (.int n) := by
  have hsixteen : Int.natAbs 16 ≤ 2 ^ 53 := by norm_num
  have hint := Number.int_div_int h hsixteen hne (by norm_num)
  have hdouble := Number.double_div_of_toDouble h hsixteen hne (by norm_num)
    (Number.toDouble_ofInt hsixteen)
  have hdiv : (Number.double (.ofInt n)).div pixelsPerRem = (Number.int n).div pixelsPerRem :=
    hdouble.trans hint.symm
  rw [rems, rems, hdiv]

/-! ## Doubles of limited size -/

namespace Double

/-- A finite double up to a power of two. -/
def IsWithin (k : Nat) (d : Double) : Prop := ∃ v, d.value? = some v ∧ |v| ≤ 2 ^ k

variable {j k : Nat} {x y : Double}

theorem IsWithin.isFinite (h : IsWithin k x) : x.isFinite = true := by
  obtain ⟨v, hv, -⟩ := h
  exact isFinite_of_value? hv

theorem isWithin_ofInt {n : Int} (h : n.natAbs ≤ 2 ^ k) (hk : k ≤ 53) : IsWithin k (ofInt n) := by
  refine ⟨n, value?_ofInt (h.trans (Nat.pow_le_pow_right two_pos hk)), ?_⟩
  exact_mod_cast Number.abs_intCast_le h

/-- Rounding takes three more powers of two at the most. -/
theorem isWithin_ofRat {q : Rat} (negative : Bool) (hq : |q| ≤ 2 ^ k) (hk : k ≤ 1000) :
    IsWithin (k + 3) (ofRat negative q) := by
  have hsmall : |q| < 2 ^ (1022 : Int) := by
    refine hq.trans_lt ?_
    rw [← zpow_natCast]
    exact zpow_lt_zpow_right₀ one_lt_two (by omega)
  obtain ⟨v, hv⟩ := exists_value? (isFinite_ofRat negative hsmall)
  refine ⟨v, hv, (abs_le_of_ofRat hv).trans ?_⟩
  have hone : (1 : Rat) ≤ 2 ^ k := one_le_pow₀ one_le_two
  have height : (2 : Rat) ^ (k + 3) = 8 * 2 ^ k := by
    rw [pow_add]
    ring
  linarith

theorem IsWithin.mul (hx : IsWithin j x) (hy : IsWithin k y) (hjk : j + k ≤ 1000) :
    IsWithin (j + k + 3) (x.mul y) := by
  obtain ⟨p, hp, hple⟩ := hx
  obtain ⟨q, hq, hqle⟩ := hy
  have hmul : x.mul y = ofRat (x.isNegative != y.isNegative) (p * q) := by simp [Double.mul, hp, hq]
  rw [hmul]
  refine isWithin_ofRat _ ?_ hjk
  rw [abs_mul, pow_add]
  exact mul_le_mul hple hqle (abs_nonneg q) (by positivity)

theorem IsWithin.add (hx : IsWithin k x) (hy : IsWithin k y) (hk : k + 1 ≤ 1000) :
    IsWithin (k + 1 + 3) (x.add y) := by
  obtain ⟨p, hp, hple⟩ := hx
  obtain ⟨q, hq, hqle⟩ := hy
  obtain ⟨s, hs⟩ := add_eq_ofRat hp hq
  rw [hs]
  refine isWithin_ofRat _ ((abs_add_le p q).trans ?_) hk
  rw [pow_succ]
  linarith

theorem IsWithin.mono (h : IsWithin j x) (hjk : j ≤ k) : IsWithin k x := by
  obtain ⟨v, hv, hle⟩ := h
  exact ⟨v, hv, hle.trans (pow_le_pow_right₀ one_le_two hjk)⟩

end Double

/-! ## The line -/

namespace Fluid

section

variable {a b w₁ w₂ : Int} (ha : a.natAbs ≤ 2 ^ 52) (hb : b.natAbs ≤ 2 ^ 52)
  (hw₁ : w₁.natAbs ≤ 2 ^ 52) (hw₂ : w₂.natAbs ≤ 2 ^ 52)

/-- The slope between integers, rounded once. -/
def slopeOf (a b w₁ w₂ : Int) : Double := .ofRat false ((b - a : Int) / (w₂ - w₁ : Int))

/-- The intercept between integers, by the operations on doubles. -/
def interceptOf (a b w₁ w₂ : Int) : Double :=
  ((Double.ofInt (-w₁)).mul (slopeOf a b w₁ w₂)).add (.ofInt a)

include ha hb hw₁ hw₂

theorem line_int (hsizes : a ≠ b) (hwidths : w₁ ≠ w₂) :
    line (.int a) (.int b) (.int w₁) (.int w₂) =
      .ok (.double (slopeOf a b w₁ w₂), .double (interceptOf a b w₁ w₂)) := by
  have hslope := Number.int_div_int (m := b - a) (n := w₂ - w₁) (by omega) (by omega) (by omega)
    (by omega)
  have hproduct := (Number.combine_double (Number.toDouble_ofInt (n := -w₁) (by omega)) (· * ·)
    Double.mul (slopeOf a b w₁ w₂)).1
  have hsum := (Number.combine_double (Number.toDouble_ofInt (n := a) (by omega)) (· + ·)
    Double.add ((Double.ofInt (-w₁)).mul (slopeOf a b w₁ w₂))).2
  exact line_eq_ok rfl rfl hslope hproduct hsum

theorem line_ofInt (hsizes : a ≠ b) (hwidths : w₁ ≠ w₂) (hw₁ne : w₁ ≠ 0) :
    line (.double (.ofInt a)) (.double (.ofInt b)) (.double (.ofInt w₁)) (.double (.ofInt w₂)) =
      .ok (.double (slopeOf a b w₁ w₂), .double (interceptOf a b w₁ w₂)) := by
  have hrise := Number.sub_ofInt (m := b) (n := a) (by omega) (by omega) hsizes.symm
  have hrun := Number.sub_ofInt (m := w₂) (n := w₁) (by omega) (by omega) hwidths.symm
  have hslope := Number.double_div_of_toDouble (m := b - a) (n := w₂ - w₁)
    (b := .double (.ofInt (w₂ - w₁))) (by omega) (by omega) (by omega) (by omega) rfl
  have hproduct : (Number.double (.ofInt w₁)).neg.mul (.double (slopeOf a b w₁ w₂)) =
      .ok (.double ((Double.ofInt (-w₁)).mul (slopeOf a b w₁ w₂))) := by
    rw [Number.neg, Double.neg_ofInt hw₁ne]
    rfl
  exact line_eq_ok hrise hrun hslope hproduct rfl

/-- The slope and the intercept are far below the greatest double. -/
theorem isPrintable_int (hwidths : w₁ ≠ w₂) :
    isPrintable (.double (slopeOf a b w₁ w₂)) (.double (interceptOf a b w₁ w₂)) = .ok true := by
  -- The run of the widths is at least one.
  have hquotient : |((b - a : Int) / (w₂ - w₁ : Int) : Rat)| ≤ 2 ^ 53 := by
    have hrun : (1 : Rat) ≤ |((w₂ - w₁ : Int) : Rat)| := by
      exact_mod_cast Int.one_le_abs (sub_ne_zero.2 hwidths.symm)
    calc |((b - a : Int) / (w₂ - w₁ : Int) : Rat)|
      _ = |((b - a : Int) : Rat)| / |((w₂ - w₁ : Int) : Rat)| := abs_div _ _
      _ ≤ |((b - a : Int) : Rat)| := div_le_self (abs_nonneg _) hrun
      _ ≤ 2 ^ 53 := by exact_mod_cast Number.abs_intCast_le (n := b - a) (k := 53) (by omega)
  -- Each operation adds a few powers of two, which stay far below the limit.
  have hslope : (slopeOf a b w₁ w₂).IsWithin 56 := Double.isWithin_ofRat _ hquotient (by norm_num)
  have hhundred : (Double.ofInt 100).IsWithin 7 := Double.isWithin_ofInt (by norm_num) (by norm_num)
  have hproduct := (Double.isWithin_ofInt (n := -w₁) (k := 52) (by omega) (by norm_num)).mul hslope
    (by norm_num)
  have hsum := hproduct.add ((Double.isWithin_ofInt ha (by norm_num)).mono (by norm_num))
    (by norm_num)
  obtain ⟨z, hz, hprintable⟩ := isPrintable_double (slopeOf a b w₁ w₂) (interceptOf a b w₁ w₂)
  have hmul := (Number.combine_double (Number.toDouble_ofInt (n := 100) (by norm_num)) (· * ·)
    Double.mul (slopeOf a b w₁ w₂)).2
  obtain rfl := Number.double.inj (Except.ok.inj (hz.symm.trans hmul))
  rw [hprintable, (hslope.mul hhundred (by norm_num)).isFinite, interceptOf, hsum.isFinite]
  rfl

end

/-! ## Reports -/

theorem report_checkOrder_ofInt {m n : Int} (hm : m.natAbs ≤ 2 ^ 53) (hn : n.natAbs ≤ 2 ^ 53)
    (quantity : Text) : (checkOrder quantity (.int m) (.int n)).mapError Error.report =
      (checkOrder quantity (.double (.ofInt m)) (.double (.ofInt n))).mapError Error.report := by
  unfold checkOrder
  rw [Number.ge_ofInt hm hn]
  split
  · refine congrArg Except.error ?_
    simp [Error.report, Error.kind, Error.message, Error.isTagged, Error.detail,
      Number.plainText_ofInt hm, Number.plainText_ofInt hn]
  · rfl

end Fluid

open Fluid

/-- **Between nonzero integers up to `2 ^ 52` there is the same fluid value as between their
doubles, or the same report of a failure.** -/
theorem report_fluidText_ofInt {a b w₁ w₂ : Int}
    (h : ∀ n ∈ [a, b, w₁, w₂], n ≠ 0 ∧ n.natAbs ≤ 2 ^ 52) :
    (fluidText (.int a) (.int b) (.int w₁) (.int w₂)).mapError Error.report =
      (fluidText (.double (.ofInt a)) (.double (.ofInt b)) (.double (.ofInt w₁))
        (.double (.ofInt w₂))).mapError Error.report := by
  obtain ⟨⟨hane, ha⟩, ⟨hbne, hb⟩, ⟨hw₁ne, hw₁⟩, -, hw₂⟩ : (a ≠ 0 ∧ a.natAbs ≤ 2 ^ 52) ∧
      (b ≠ 0 ∧ b.natAbs ≤ 2 ^ 52) ∧ (w₁ ≠ 0 ∧ w₁.natAbs ≤ 2 ^ 52) ∧
        w₂ ≠ 0 ∧ w₂.natAbs ≤ 2 ^ 52 := by
    simpa using h
  unfold fluidText
  rw [mapError_map, mapError_map]
  congr 1
  unfold between
  rw [Number.same_ofInt (by omega) (by omega), Length.rems_ofInt (by omega) hane]
  split
  · rfl
  rename_i hsame
  have hsizes : a ≠ b := by
    rintro rfl
    simp [Number.same, Number.point?] at hsame
  -- From here on step by step: equal results so far, and errors of the same report.
  refine mapError_bind_congr (report_checkOrder_ofInt (by omega) (by omega) _) fun _ _ => ?_
  refine mapError_bind_congr (report_checkOrder_ofInt (by omega) (by omega) _) fun _ horder => ?_
  have hwidths : w₁ ≠ w₂ := by
    rintro rfl
    have := not_same_of_checkOrder horder
    simp [Number.same, Number.point?] at this
  -- Both lines are rounded in the same places.
  rw [line_int ha hb hw₁ hw₂ hsizes hwidths, line_ofInt ha hb hw₁ hw₂ hsizes hwidths hw₁ne]
  refine mapError_bind_congr rfl fun both hboth => ?_
  obtain rfl := Except.ok.inj (Error.ofArithmetic_eq_ok.1 hboth)
  dsimp only
  rw [isPrintable_int ha hb hw₁ hw₂ hwidths]
  refine mapError_bind_congr rfl fun printable hprintable => ?_
  obtain rfl := Except.ok.inj (Error.ofArithmetic_eq_ok.1 hprintable)
  simp only [if_true]
  rw [rounded, rounded, Length.rems_ofInt (by omega) hane, Length.rems_ofInt (by omega) hbne]

end FluidCss
