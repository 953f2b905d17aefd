import FluidCss.Proofs.Number.Rounding

/-!
# Rounding gives the nearest double

No finite double is nearer to a number than the one that it is rounded to. Hence rounding keeps the
order of numbers: of two numbers whose doubles stand in the other order, each would be nearer to the
double of the other one.

* `ofRat_nearest`: a rounded number is the nearest one.
* `ofRat_mono` and `IsNearest.nonneg`: rounding keeps the order, and the sign.

The mantissa is the nearest whole number in units of the last place, so the multiples of that unit
are no nearer. All doubles of the same size or larger are such multiples. The smaller ones lie below
the least number with a full mantissa, which is a multiple again.
-/

namespace FluidCss.Double

/-- No finite double is nearer to `q` than `v` is. -/
def IsNearest (v q : Rat) : Prop :=
  ∀ (d : Double) (u : Rat), d.value? = some u → |v - q| ≤ |u - q|

/-! ## Whole numbers -/

/-- A rounded quotient is at most a half away. -/
theorem abs_roundHalfEven_sub_le (n : Nat) {d : Nat} (hd : 0 < d) :
    |(roundHalfEven n d : Rat) - n / d| ≤ 1 / 2 := by
  have hpos : (0 : Rat) < d := by exact_mod_cast hd
  have hdivision := Nat.div_add_mod n d
  have hremainder := Nat.mod_lt n hd
  -- In whole numbers first, where the remainder decides.
  have htwice : 2 * (roundHalfEven n d * d) ≤ 2 * n + d ∧
      2 * n ≤ 2 * (roundHalfEven n d * d) + d := by
    unfold roundHalfEven
    dsimp only
    generalize n / d = q at hdivision ⊢
    generalize n % d = r at hdivision hremainder ⊢
    have hcomm : d * q = q * d := Nat.mul_comm d q
    split
    · omega
    · rw [Nat.add_mul]
      omega
  obtain ⟨hleast, hgreatest⟩ := htwice
  have hleast : (2 : Rat) * (roundHalfEven n d * d) ≤ 2 * n + d := by exact_mod_cast hleast
  have hgreatest : (2 : Rat) * n ≤ 2 * (roundHalfEven n d * d) + d := by exact_mod_cast hgreatest
  have hcancel : (n : Rat) / d * d = n := div_mul_cancel₀ _ hpos.ne'
  rw [abs_le]
  constructor <;> nlinarith

/-- A whole number that is at most a half away from a number is as near to it as any other. -/
theorem abs_sub_le_of_half {m : Int} {x : Rat} (h : |m - x| ≤ 1 / 2) (k : Int) :
    |m - x| ≤ |k - x| := by
  by_cases hk : k = m
  · rw [hk]
  have hapart : (1 : Rat) ≤ |(k : Rat) - m| := by
    exact_mod_cast Int.one_le_abs (sub_ne_zero.2 hk)
  have htriangle : |(k : Rat) - m| ≤ |k - x| + |m - x| := by
    rw [abs_sub_comm (m : Rat) x]
    exact abs_sub_le (k : Rat) x m
  linarith

/-! ## Quotients -/

/-- A rounded quotient is the nearest multiple of its unit in the last place, which is no larger
than it has to be for 53 bits. -/
theorem ofQuotient_multiple (negative : Bool) {n d : Nat} (hn : n ≠ 0) (hd : d ≠ 0) :
    ∃ (m : Nat) (e : Int), -1074 ≤ e ∧ (e ≠ -1074 → (2 : Rat) ^ (52 + e) ≤ n / d) ∧
      (∀ k : Int, |(m : Rat) * 2 ^ e - n / d| ≤ |(k : Rat) * 2 ^ e - n / d|) ∧
      ∀ v, (ofQuotient negative n d).value? = some v →
        v = (if negative then -1 else 1) * ((m : Rat) * 2 ^ e) := by
  obtain ⟨e, n', d', he, hd', hscaled, hunits, heq⟩ := ofQuotient_eq negative hn hd
  rw [heq]
  have hunit : (0 : Rat) < 2 ^ e := by positivity
  have hhalf := abs_roundHalfEven_sub_le n' hd'
  rw [hscaled] at hhalf
  generalize roundHalfEven n' d' = m at hhalf ⊢
  refine ⟨m, e, he, fun hne => hunits.size (hunits.full hne), fun j => ?_, fun v hv => ?_⟩
  -- Scaled by the unit, the multiples are the whole numbers.
  · have hnear := abs_sub_le_of_half (m := m) (by exact_mod_cast hhalf) j
    have hscale : ∀ x : Rat, x * 2 ^ e - n / d = (x - n / d / 2 ^ e) * 2 ^ e := by
      intro x
      rw [sub_mul, div_mul_cancel₀ _ hunit.ne']
    rw [hscale, hscale, abs_mul, abs_mul]
    exact mul_le_mul_of_nonneg_right (by exact_mod_cast hnear) (abs_nonneg _)
  · split at hv
    · rename_i hm
      -- A mantissa that is full is written with the next exponent.
      have hcarry : (2 ^ 52 : Rat) * 2 ^ (e + 1) = 2 ^ 53 * 2 ^ e := by
        rw [zpow_add_one₀ two_ne_zero]
        ring
      rw [value?_ofParts hv, hm, Nat.cast_pow, Nat.cast_pow, Nat.cast_ofNat, hcarry]
    · exact value?_ofParts hv

/-- A number with a larger exponent is a multiple of the unit. -/
theorem exists_multiple (m : Nat) {e e' : Int} (h : e ≤ e') :
    ∃ k : Int, (m : Rat) * 2 ^ e' = k * 2 ^ e := by
  obtain ⟨j, hj⟩ := Int.eq_ofNat_of_zero_le (sub_nonneg.2 h)
  refine ⟨m * 2 ^ j, ?_⟩
  have he : e' = j + e := by omega
  rw [he, zpow_add₀ two_ne_zero, zpow_natCast]
  push_cast
  ring

/-- No double is nearer to a quotient than its rounded magnitude. -/
theorem ofQuotient_nearest (negative : Bool) {n d : Nat} (hn : n ≠ 0) (hd : d ≠ 0) :
    ∃ w : Rat, (∀ m e, Canonical m e → |w - n / d| ≤ |(m : Rat) * 2 ^ e - n / d|) ∧
      ∀ v, (ofQuotient negative n d).value? = some v → v = (if negative then -1 else 1) * w := by
  obtain ⟨m, e, -, hsize, hnearest, hvalue⟩ := ofQuotient_multiple negative hn hd
  refine ⟨m * 2 ^ e, fun m' e' hcanonical => ?_, hvalue⟩
  obtain ⟨hm', he', -, -⟩ := hcanonical
  rcases le_or_gt e e' with hle | hlt
  -- With an exponent at least as large the other number is a multiple of the unit as well.
  · obtain ⟨k, hk⟩ := exists_multiple m' hle
    rw [hk]
    exact hnearest k
  · -- With a smaller exponent it is below the least number with a full mantissa.
    have hfull := hsize (by omega)
    have hpower : (2 : Rat) ^ (52 + e) = ((2 ^ 52 : Int) : Rat) * 2 ^ e := by
      rw [zpow_add₀ two_ne_zero]
      norm_num
    have hbelow : (m' : Rat) * 2 ^ e' ≤ 2 ^ (52 + e) := by
      calc (m' : Rat) * 2 ^ e'
        _ ≤ 2 ^ 53 * 2 ^ e' := by
          have hmantissa : (m' : Rat) ≤ 2 ^ 53 := by exact_mod_cast hm'.le
          exact mul_le_mul_of_nonneg_right hmantissa (by positivity)
        _ = 2 ^ (53 + e') := by
          rw [zpow_add₀ two_ne_zero]
          norm_num
        _ ≤ 2 ^ (52 + e) := zpow_le_zpow_right₀ one_le_two (by omega)
    refine (hnearest (2 ^ 52)).trans ?_
    rw [← hpower, abs_sub_comm, abs_sub_comm _ ((n : Rat) / d), abs_of_nonneg (sub_nonneg.2 hfull),
      abs_of_nonneg (sub_nonneg.2 (hbelow.trans hfull))]
    exact sub_le_sub_left hbelow _

/-! ## Rational numbers -/

/-- **A number is rounded to the nearest double.** -/
theorem ofRat_nearest {negative : Bool} {q v : Rat} (h : (ofRat negative q).value? = some v) :
    IsNearest v q := by
  intro d u hu
  by_cases hq : q = 0
  · subst hq
    rw [value?_ofRat_zero h, sub_self, abs_zero]
    exact abs_nonneg _
  have hnum : q.num ≠ 0 := Rat.num_ne_zero.2 hq
  rw [ofRat, if_neg hnum] at h
  obtain ⟨w, hnearest, hvalue⟩ :=
    ofQuotient_nearest (decide (q.num < 0)) (Int.natAbs_ne_zero.2 hnum) q.den_pos.ne'
  rw [natAbs_div_den] at hnearest
  obtain ⟨m, e, hcanonical, hmagnitude⟩ := exists_abs_eq hu
  -- The sign is that of the number, so the magnitudes are compared.
  have hsign : |v - q| = |w - (|q|)| := by
    rw [hvalue v h]
    by_cases hneg : q.num < 0
    · rw [abs_of_neg (Rat.num_neg.1 hneg), ← abs_neg]
      simp [hneg]
      ring_nf
    · rw [abs_of_nonneg (Rat.num_nonneg.1 (not_lt.1 hneg))]
      simp [hneg]
  calc |v - q|
    _ = |w - (|q|)| := hsign
    _ ≤ |(|u|) - (|q|)| := by
      rw [hmagnitude]
      exact hnearest m e hcanonical
    _ ≤ |u - q| := abs_abs_sub_abs_le_abs_sub u q

/-! ## Order -/

/-- Nearest doubles keep the order: otherwise the lower number would be above the middle of the two
doubles, and the higher one below it. -/
theorem IsNearest.le_of_lt {d e : Double} {p q x y : Rat} (hx : IsNearest x p)
    (hy : IsNearest y q) (hd : d.value? = some x) (he : e.value? = some y) (hlt : p < q) :
    x ≤ y := by
  by_contra hgt
  have hhigh := hx e y he
  have hlow := hy d x hd
  rw [← sq_le_sq] at hhigh hlow
  nlinarith

/-- No negative double is nearest to a number that is not negative, as zero is nearer. -/
theorem IsNearest.nonneg {v q : Rat} (hv : IsNearest v q) (hq : 0 ≤ q) : 0 ≤ v := by
  have hzero : (ofRat false 0).value? = some 0 := by decide +kernel
  have hnear := hv _ _ hzero
  by_contra hneg
  rw [abs_of_neg (by linarith), zero_sub, abs_neg, abs_of_nonneg hq] at hnear
  linarith

/-- **Rounding keeps the order.** -/
theorem ofRat_mono {s t : Bool} {p q x y : Rat} (hle : p ≤ q) (hx : (ofRat s p).value? = some x)
    (hy : (ofRat t q).value? = some y) : x ≤ y := by
  rcases hle.eq_or_lt with rfl | hlt
  · by_cases hp : p = 0
    · subst hp
      rw [value?_ofRat_zero hx, value?_ofRat_zero hy]
    · rw [ofRat_eq_ofRat s t hp, hy] at hx
      exact (Option.some.inj hx).ge
  · exact (ofRat_nearest hx).le_of_lt (ofRat_nearest hy) hx hy hlt

end FluidCss.Double
