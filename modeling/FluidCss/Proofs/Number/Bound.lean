import FluidCss.Length
import FluidCss.Number.Numeral
import FluidCss.Proofs.Number.Arithmetic
import Mathlib.Algebra.Order.Field.Power
import Mathlib.Data.Rat.Cast.Order
import Mathlib.Tactic.Linarith
import Mathlib.Tactic.NormNum
import Mathlib.Tactic.Positivity

/-!
# How large numbers become

A finite double is below two to the 1024, and a size in pixels becomes a double before it is
written. So what is written of it has far fewer digits than a numeral may have.

* `Length.rems_short`: a number of rems has no more digits than are read as a number.
-/

namespace FluidCss

theorem Double.exists_abs_eq {d : Double} {q : Rat} (h : d.value? = some q) :
    ∃ m e, Canonical m e ∧ |q| = (m : Rat) * 2 ^ e := by
  cases d with
  | infinite negative => cases h
  | nan => cases h
  | finite negative m e canonical =>
    refine ⟨m, e, canonical, ?_⟩
    have hunit : (0 : Rat) < 2 ^ e := by positivity
    rw [← Option.some.inj h, abs_mul, abs_mul, abs_of_pos hunit, Nat.abs_cast]
    split <;> simp

/-- A finite double is below two to the 1024. -/
theorem Double.abs_lt_of_value? {d : Double} {q : Rat} (h : d.value? = some q) :
    |q| < 2 ^ 1024 := by
  obtain ⟨m, e, ⟨hm, -, he, -⟩, hq⟩ := exists_abs_eq h
  have hm : (m : Rat) < 2 ^ 53 := by exact_mod_cast hm
  have he : (2 : Rat) ^ e ≤ 2 ^ (971 : Int) := zpow_le_zpow_right₀ (by norm_num) he
  have hpos : (0 : Rat) < 2 ^ e := by positivity
  calc |q|
    _ = m * 2 ^ e := hq
    _ < 2 ^ 53 * 2 ^ e := mul_lt_mul_of_pos_right hm hpos
    _ ≤ 2 ^ 53 * 2 ^ (971 : Int) := mul_le_mul_of_nonneg_left he (by positivity)
    _ = 2 ^ 1024 := by rw [zpow_ofNat, ← pow_add]

theorem Double.natAbs_div_den (q : Rat) : (q.num.natAbs : Rat) / q.den = |q| := by
  have hden : (0 : Rat) < q.den := by exact_mod_cast q.den_pos
  rw [div_eq_iff hden.ne', Nat.cast_natAbs, Int.cast_abs, ← Rat.mul_den_eq_num q, abs_mul,
    abs_of_pos hden]

namespace Fixed

/-- No more digits stand before the point than are read as a number. -/
def Short : Fixed → Prop
  | ticks n => n.natAbs / unit < 10 ^ Numeral.integerDigitLimit
  | nan => True

theorem short_ofRat {q : Rat} (h : |q| < 2 ^ 1024) : (ofRat q).Short := by
  have hnum : q.num.natAbs < 2 ^ 1024 * q.den := by
    have hden : (0 : Rat) < q.den := by exact_mod_cast q.den_pos
    rw [← Double.natAbs_div_den, div_lt_iff₀ hden] at h
    exact_mod_cast h
  -- Rounding cannot reach the next whole number over the bound.
  have hmagnitude : roundHalfUp (q.num.natAbs * unit) q.den ≤ 2 ^ 1024 * unit := by
    refine Nat.le_of_lt_succ ((Nat.div_lt_iff_lt_mul (Nat.mul_pos two_pos q.den_pos)).2 ?_)
    have hunit : unit = 10000 := rfl
    generalize 2 ^ 1024 = bound at hnum ⊢
    rw [hunit]
    nlinarith [q.den_pos]
  -- The limit on digits is far above the exponent of the bound.
  have hlimit : ∀ n < Numeral.integerDigitLimit, 2 ^ n < 10 ^ Numeral.integerDigitLimit := by
    intro n hn
    calc 2 ^ n
      _ ≤ 10 ^ n := Nat.pow_le_pow_left (by norm_num) n
      _ < 10 ^ Numeral.integerDigitLimit := Nat.pow_lt_pow_right (by norm_num) hn
  have hticks : ∀ n : Int, n.natAbs = roundHalfUp (q.num.natAbs * unit) q.den →
      n.natAbs / unit < 10 ^ Numeral.integerDigitLimit := by
    intro n hn
    rw [hn]
    refine Nat.lt_of_le_of_lt ?_ (hlimit 1024 (by decide))
    exact Nat.div_le_of_le_mul (by rwa [Nat.mul_comm unit])
  show Fixed.Short (.ticks _)
  refine hticks _ ?_
  split
  · rw [Int.natAbs_neg, Int.natAbs_natCast]
  · rw [Int.natAbs_natCast]

end Fixed

/-- **A number of rems has no more digits than are read as a number.** -/
theorem Length.rems_short {pixels : Number} {size : Fixed} (h : Length.rems pixels = .ok size) :
    size.Short := by
  obtain ⟨quotient, hquotient, h⟩ := bind_eq_ok.1 h
  obtain ⟨d, rfl⟩ := Number.div_eq_ok hquotient
  simp only [Number.roundFixed] at h
  cases hvalue : d.value? with
  | some q =>
    simp only [hvalue] at h
    rw [← Except.ok.inj h]
    exact Fixed.short_ofRat (Double.abs_lt_of_value? hvalue)
  | none =>
    simp only [hvalue] at h
    split at h
    · rw [← Except.ok.inj h]
      trivial
    · cases h

end FluidCss
