import FluidCss.Proofs.Number.Bound
import Mathlib.Algebra.Order.Floor.Semifield
import Mathlib.Data.Rat.Floor
import Mathlib.Tactic.FieldSimp
import Mathlib.Tactic.Ring

/-!
# How quotients are rounded

The double nearest to a quotient is worked out from a mantissa and an exponent. What they are can be
said without the steps of the computation: the exponent is the least one, or the mantissa has all
its 53 bits and the quotient is of that size.

* `Double.ofQuotient_spec`: the mantissa and the exponent of a rounded quotient.
* `Double.isFinite_ofRat`: a number below `2 ^ 1022` is rounded to a finite double.
* `Double.isZero_ofRat`: only a number below `2 ^ -1074` is rounded to zero.
* `Double.abs_le_of_ofRat`: how much larger rounding can make a number.
* `Double.value?_ofInt`: an integer up to `2 ^ 53` is a double.
* `Double.neg_ofInt`, `Double.sub_ofInt`: the signs and the differences of such doubles.
* `Number.isFinite_int`: integers below `10 ^ 300` are finite as doubles.
* `Number.InRange.isFinite`: so are all that are not rounded past the greatest double.
-/

namespace FluidCss

namespace Double

/-! ## Powers of two -/

theorem zpow_eq_div (k : Int) :
    (2 : Rat) ^ k = (Nat.pow 2 k.toNat : Nat) / (Nat.pow 2 (-k).toNat : Nat) := by
  obtain ⟨n, rfl | rfl⟩ := k.eq_nat_or_neg
  · simp
  · simp

theorem scaled_eq (n d : Nat) (e : Int) :
    ((n * Nat.pow 2 (-e).toNat : Nat) : Rat) / (d * Nat.pow 2 e.toNat : Nat) = n / d / 2 ^ e := by
  have hup : ((Nat.pow 2 e.toNat : Nat) : Rat) ≠ 0 := by
    exact_mod_cast (Nat.two_pow_pos e.toNat).ne'
  have hdown : ((Nat.pow 2 (-e).toNat : Nat) : Rat) ≠ 0 := by
    exact_mod_cast (Nat.two_pow_pos (-e).toNat).ne'
  rw [zpow_eq_div]
  push_cast
  field_simp

/-- The comparison that decides between two powers of two. -/
theorem mul_pow_le_iff {n d : Nat} (hd : d ≠ 0) (k : Int) :
    d * Nat.pow 2 k.toNat ≤ n * Nat.pow 2 (-k).toNat ↔ (2 : Rat) ^ k ≤ n / d := by
  have hbelow : (0 : Rat) < (d * Nat.pow 2 k.toNat : Nat) := by
    exact_mod_cast Nat.mul_pos (Nat.pos_of_ne_zero hd) (Nat.two_pow_pos k.toNat)
  have hunit : (0 : Rat) < 2 ^ k := by positivity
  rw [← one_le_div₀ hunit, ← scaled_eq, one_le_div₀ hbelow]
  exact_mod_cast Iff.rfl

theorem log2_bounds {n : Nat} (hn : n ≠ 0) :
    (2 : Rat) ^ (Nat.log2 n : Int) ≤ n ∧ (n : Rat) < 2 ^ ((Nat.log2 n : Int) + 1) := by
  have hleast : 2 ^ Nat.log2 n ≤ n := Nat.log2_self_le hn
  have hgreatest : n < 2 ^ (Nat.log2 n + 1) := Nat.lt_log2_self
  exact ⟨by exact_mod_cast hleast, by exact_mod_cast hgreatest⟩

/-- The exponent of the greatest power of two that is no greater than a quotient. -/
theorem floorLog2_spec {n d : Nat} (hn : n ≠ 0) (hd : d ≠ 0) :
    (2 : Rat) ^ floorLog2 n d ≤ n / d ∧ (n : Rat) / d < 2 ^ (floorLog2 n d + 1) := by
  have hpos : (0 : Rat) < d := by exact_mod_cast Nat.pos_of_ne_zero hd
  obtain ⟨hnleast, hngreatest⟩ := log2_bounds hn
  obtain ⟨hdleast, hdgreatest⟩ := log2_bounds hd
  generalize hk : (Nat.log2 n : Int) - Nat.log2 d = k
  -- The logarithms leave two powers to choose from.
  have hgreatest : (n : Rat) / d < 2 ^ (k + 1) := by
    rw [div_lt_iff₀ hpos]
    calc (n : Rat)
      _ < 2 ^ ((Nat.log2 n : Int) + 1) := hngreatest
      _ = 2 ^ (k + 1) * 2 ^ (Nat.log2 d : Int) := by
        rw [← zpow_add₀ two_ne_zero, ← hk]
        congr 1
        ring
      _ ≤ 2 ^ (k + 1) * d := mul_le_mul_of_nonneg_left hdleast (by positivity)
  have hleast : (2 : Rat) ^ (k - 1) ≤ n / d := by
    rw [le_div_iff₀ hpos]
    calc (2 : Rat) ^ (k - 1) * d
      _ ≤ 2 ^ (k - 1) * 2 ^ ((Nat.log2 d : Int) + 1) :=
        mul_le_mul_of_nonneg_left hdgreatest.le (by positivity)
      _ = 2 ^ (Nat.log2 n : Int) := by
        rw [← zpow_add₀ two_ne_zero, ← hk]
        congr 1
        ring
      _ ≤ n := hnleast
  unfold floorLog2
  simp only [hk, mul_pow_le_iff hd]
  split
  · rename_i hle
    exact ⟨hle, hgreatest⟩
  · rename_i hlt
    exact ⟨hleast, by simpa using hlt⟩

/-! ## Mantissa and exponent -/

theorem le_roundHalfEven (n d : Nat) : n / d ≤ roundHalfEven n d := by
  unfold roundHalfEven
  dsimp only
  split <;> omega

theorem roundHalfEven_le (n d : Nat) : roundHalfEven n d ≤ n / d + 1 := by
  unfold roundHalfEven
  dsimp only
  split <;> omega

theorem isFinite_ofParts {negative : Bool} {m : Nat} {e : Int} (h : Canonical m e) :
    (ofParts negative m e).isFinite = true := by
  rw [ofParts, dif_pos h]
  rfl

theorem value?_ofParts {negative : Bool} {m : Nat} {e : Int} {v : Rat}
    (h : (ofParts negative m e).value? = some v) :
    v = (if negative then -1 else 1) * ((m : Rat) * (2 : Rat) ^ e) := by
  unfold ofParts at h
  split at h
  · rw [← Option.some.inj h, mul_assoc]
  · cases h

/-- The least positive double. -/
def least : Rat := 2 ^ (-1074 : Int)

theorem least_pos : 0 < least := zpow_pos two_pos _

/-- What the mantissa and the exponent of a rounded number are. -/
structure IsRounded (q : Rat) (m : Nat) (e : Int) : Prop where
  exponent : -1074 ≤ e
  mantissa : m < 2 ^ 53
  /-- The mantissa has all its bits unless the exponent is the least one. -/
  normal : m < 2 ^ 52 → e = -1074
  /-- The exponent goes no higher than the number. -/
  size : e ≠ -1074 → 2 ^ (e + 51) ≤ q
  /-- Nothing that the least exponent can show is rounded to zero. -/
  pos : least ≤ q → m ≠ 0

/-- What is known of the whole units `2 ^ e` of its last place that a number has. -/
structure HasUnits (q : Rat) (e : Int) (f : Nat) : Prop where
  lt : f < 2 ^ 53
  /-- They need all the bits unless the exponent is the least one. -/
  full : e ≠ -1074 → 2 ^ 52 ≤ f
  size : 2 ^ 52 ≤ f → 2 ^ (52 + e) ≤ q
  pos : least ≤ q → 1 ≤ f

/-- The exponent is chosen so that the units have as many bits as a mantissa. -/
theorem hasUnits {q : Rat} {k e : Int} (hleast : 2 ^ k ≤ q) (hgreatest : q < 2 ^ (k + 1))
    (he : max (k - 52) (-1074) = e) : HasUnits q e ⌊q / 2 ^ e⌋₊ := by
  have hunit : (0 : Rat) < 2 ^ e := by positivity
  have hq : 0 ≤ q := le_trans (by positivity) hleast
  -- Above the least exponent the mantissa is full.
  have hfull : e ≠ -1074 → 2 ^ 52 ≤ ⌊q / 2 ^ e⌋₊ := by
    intro hne
    rw [Nat.le_floor_iff (by positivity), le_div_iff₀ hunit]
    calc ((2 ^ 52 : Nat) : Rat) * 2 ^ e
      _ = 2 ^ (52 + e) := by
        rw [zpow_add₀ two_ne_zero]
        norm_num
      _ ≤ 2 ^ k := zpow_le_zpow_right₀ one_le_two (by omega)
      _ ≤ q := hleast
  refine ⟨?_, hfull, fun hbits => ?_, fun hpos => ?_⟩
  · rw [Nat.floor_lt (by positivity), div_lt_iff₀ hunit]
    calc q
      _ < 2 ^ (k + 1) := hgreatest
      _ ≤ 2 ^ (53 + e) := zpow_le_zpow_right₀ one_le_two (by omega)
      _ = ((2 ^ 53 : Nat) : Rat) * 2 ^ e := by
        rw [zpow_add₀ two_ne_zero]
        norm_num
  · rw [Nat.le_floor_iff (by positivity), le_div_iff₀ hunit] at hbits
    rw [zpow_add₀ two_ne_zero]
    exact_mod_cast hbits
  · by_cases hne : e = -1074
    · rw [Nat.one_le_floor_iff, one_le_div₀ hunit, hne]
      exact hpos
    · exact le_trans (by norm_num) (hfull hne)

/-- A quotient is worked out in units of its last place and rounded. If that comes to the next
power of two, the exponent goes up by one. -/
theorem ofQuotient_eq (negative : Bool) {n d : Nat} (hn : n ≠ 0) (hd : d ≠ 0) :
    ∃ (e : Int) (n' d' : Nat), -1074 ≤ e ∧ 0 < d' ∧ (n' : Rat) / d' = n / d / 2 ^ e ∧
      HasUnits (n / d) e (n' / d') ∧
      ofQuotient negative n d = if roundHalfEven n' d' = 2 ^ 53 then
        ofParts negative (2 ^ 52) (e + 1) else ofParts negative (roundHalfEven n' d') e := by
  obtain ⟨hleast, hgreatest⟩ := floorLog2_spec hn hd
  generalize he : max (floorLog2 n d - 52) (-1074) = e
  have hscaled := scaled_eq n d e
  have hunits := hasUnits hleast hgreatest he
  rw [← hscaled, Nat.floor_div_eq_div] at hunits
  refine ⟨e, _, _, by omega, Nat.mul_pos (Nat.pos_of_ne_zero hd) (Nat.two_pow_pos e.toNat), hscaled,
    hunits, ?_⟩
  rw [ofQuotient, if_neg hn]
  dsimp only
  rw [he]
  rfl

theorem ofQuotient_spec (negative : Bool) {n d : Nat} (hn : n ≠ 0) (hd : d ≠ 0) :
    ∃ m e, ofQuotient negative n d = ofParts negative m e ∧ IsRounded (n / d) m e := by
  obtain ⟨e, n', d', he, -, -, hunits, heq⟩ := ofQuotient_eq negative hn hd
  rw [heq]
  have hup := le_roundHalfEven n' d'
  have hdown := roundHalfEven_le n' d'
  generalize roundHalfEven n' d' = m at hup hdown ⊢
  generalize n' / d' = f at hunits hup hdown
  have hlt := hunits.lt
  split
  · refine ⟨2 ^ 52, e + 1, rfl, by omega, by omega, by omega, fun _ => ?_, fun _ => by omega⟩
    have hpower : e + 1 + 51 = 52 + e := by ring
    rw [hpower]
    exact hunits.size (by omega)
  · refine ⟨m, e, rfl, he, by omega, fun hm => ?_, fun hne => ?_, fun hq => ?_⟩
    · by_contra hne
      have := hunits.full hne
      omega
    · exact (zpow_le_zpow_right₀ one_le_two (by omega)).trans (hunits.size (hunits.full hne))
    · have := hunits.pos hq
      omega

/-- A quotient below `2 ^ 1022` is rounded to a finite double. -/
theorem IsRounded.canonical {q : Rat} {m : Nat} {e : Int} (h : IsRounded q m e)
    (hq : q < 2 ^ (1022 : Int)) : Canonical m e := by
  refine ⟨h.mantissa, h.exponent, ?_, h.normal⟩
  by_contra he
  have hsize := (h.size (by omega)).trans_lt hq
  have := (zpow_lt_zpow_iff_right₀ (one_lt_two : (1 : Rat) < 2)).1 hsize
  omega

/-! ## Rational numbers -/

theorem ofRat_spec (negative : Bool) {q : Rat} (hq : q ≠ 0) :
    ∃ m e, ofRat negative q = ofParts (decide (q.num < 0)) m e ∧ IsRounded |q| m e := by
  have hnum : q.num ≠ 0 := Rat.num_ne_zero.2 hq
  obtain ⟨m, e, hm, hrounded⟩ :=
    ofQuotient_spec (decide (q.num < 0)) (Int.natAbs_ne_zero.2 hnum) q.den_pos.ne'
  rw [natAbs_div_den] at hrounded
  refine ⟨m, e, ?_, hrounded⟩
  rw [ofRat, if_neg hnum, hm]

/-- **A number below `2 ^ 1022` is rounded to a finite double.** -/
theorem isFinite_ofRat (negative : Bool) {q : Rat} (hq : |q| < 2 ^ (1022 : Int)) :
    (ofRat negative q).isFinite = true := by
  by_cases hzero : q = 0
  · subst hzero
    exact isFinite_ofParts (m := 0) (e := -1074) (by decide)
  · obtain ⟨m, e, hm, hrounded⟩ := ofRat_spec negative hzero
    rw [hm]
    exact isFinite_ofParts (hrounded.canonical hq)

/-- **Only a number below the least double is rounded to zero.** -/
theorem isZero_ofRat (negative : Bool) {q : Rat} (hq : least ≤ |q|) :
    (ofRat negative q).isZero = false := by
  have hzero : q ≠ 0 := by
    rintro rfl
    rw [abs_zero] at hq
    exact absurd hq (not_le_of_gt least_pos)
  obtain ⟨m, e, hm, hrounded⟩ := ofRat_spec negative hzero
  have hne := hrounded.pos hq
  rw [hm, ofParts]
  split
  · simpa [isZero] using hne
  · rfl

/-- The sign that is asked for is that of a zero. -/
theorem ofRat_eq_ofRat (s t : Bool) {q : Rat} (hq : q ≠ 0) : ofRat s q = ofRat t q := by
  have hnum : q.num ≠ 0 := Rat.num_ne_zero.2 hq
  rw [ofRat, ofRat, if_neg hnum, if_neg hnum]

theorem value?_ofRat_zero {negative : Bool} {v : Rat} (h : (ofRat negative 0).value? = some v) :
    v = 0 := by
  have hzero : ∀ s, (ofRat s 0).value? = some 0 := by decide +kernel
  rw [hzero] at h
  exact (Option.some.inj h).symm

/-- Rounding makes nothing more than four times as large, unless it is tiny. -/
theorem abs_le_of_ofRat {negative : Bool} {q v : Rat} (h : (ofRat negative q).value? = some v) :
    |v| ≤ 4 * |q| + 1 := by
  by_cases hq : q = 0
  · subst hq
    rw [value?_ofRat_zero h]
    norm_num
  obtain ⟨m, e, hm, hrounded⟩ := ofRat_spec negative hq
  rw [hm] at h
  have hunit : (0 : Rat) < 2 ^ e := by positivity
  have hmantissa : (m : Rat) ≤ 2 ^ 53 := by exact_mod_cast hrounded.mantissa.le
  have hle : |v| ≤ 2 ^ 53 * 2 ^ e := by
    rw [value?_ofParts h, ← mul_assoc, abs_mul, abs_mul, abs_of_pos hunit, Nat.abs_cast]
    refine mul_le_mul_of_nonneg_right ?_ hunit.le
    split <;> simpa using hmantissa
  -- The unit is the least one, or the mantissa is full and the number about as large as it.
  by_cases he : e = -1074
  · have hone : (2 : Rat) ^ 53 * 2 ^ e ≤ 1 := by
      rw [he, ← zpow_natCast, ← zpow_add₀ two_ne_zero]
      exact zpow_le_one_of_nonpos₀ one_le_two (by norm_num)
    linarith [abs_nonneg q]
  · have hfour : (2 : Rat) ^ 53 * 2 ^ e = 4 * 2 ^ (e + 51) := by
      rw [zpow_add₀ two_ne_zero]
      norm_num
      ring
    linarith [hrounded.size he]

/-! ## Values of doubles -/

theorem isFinite_of_value? : ∀ {d : Double} {q : Rat}, d.value? = some q → d.isFinite = true
  | finite .., _, _ => rfl
  | infinite _, _, h => nomatch h
  | nan, _, h => nomatch h

theorem exists_value? : ∀ {d : Double}, d.isFinite = true → ∃ q, d.value? = some q
  | finite .., _ => ⟨_, rfl⟩
  | infinite _, h => nomatch h
  | nan, h => nomatch h

theorem exists_value_eq : ∀ {d : Double} {q : Rat}, d.value? = some q → ∃ n : Int, q = n * least
  | infinite _, _, h => nomatch h
  | nan, _, h => nomatch h
  | finite negative m e canonical, q, h => by
    obtain ⟨k, hk⟩ := Int.eq_ofNat_of_zero_le (show 0 ≤ e + 1074 by have := canonical.2.1; omega)
    have he : (2 : Rat) ^ e = 2 ^ k * least := by
      rw [least, ← zpow_natCast, ← zpow_add₀ two_ne_zero]
      congr 1
      omega
    refine ⟨(if negative then -1 else 1) * m * 2 ^ k, ?_⟩
    rw [← Option.some.inj h, he]
    push_cast
    split <;> ring

theorem value?_neg : ∀ {d : Double} {q : Rat}, d.value? = some q → d.neg.value? = some (-q)
  | infinite _, _, h => nomatch h
  | nan, _, h => nomatch h
  | finite negative m e canonical, q, h => by
    rw [← Option.some.inj h]
    cases negative <;> simp [neg, value?]

/-- The sum of finite doubles is their exact sum, rounded. -/
theorem add_eq_ofRat : ∀ {x y : Double} {p q : Rat}, x.value? = some p → y.value? = some q →
    ∃ s, x.add y = ofRat s (p + q)
  | infinite _, _, _, _, h, _ => nomatch h
  | nan, _, _, _, h, _ => nomatch h
  | finite .., infinite _, _, _, _, h => nomatch h
  | finite .., nan, _, _, _, h => nomatch h
  | finite s m e hm, finite t m' e' hm', p, q, hx, hy => by
    refine ⟨s && t, ?_⟩
    simp only [add, hx, hy]

/-- The difference of finite doubles is their exact difference, rounded. -/
theorem sub_eq_ofRat {x y : Double} {p q : Rat} (hx : x.value? = some p) (hy : y.value? = some q) :
    ∃ s, x.sub y = ofRat s (p - q) := by
  rw [sub_eq_add_neg]
  exact add_eq_ofRat hx (value?_neg hy)

/-- **Different doubles have a difference that is not rounded to zero.** -/
theorem isZero_sub {x y : Double} {p q : Rat} (hx : x.value? = some p) (hy : y.value? = some q)
    (hne : p ≠ q) : (x.sub y).isZero = false := by
  obtain ⟨a, rfl⟩ := exists_value_eq hx
  obtain ⟨b, rfl⟩ := exists_value_eq hy
  have hab : a - b ≠ 0 := by
    intro h
    exact hne (by rw [sub_eq_zero.1 h])
  have hle : (1 : Rat) ≤ |((a - b : Int) : Rat)| := by exact_mod_cast Int.one_le_abs hab
  obtain ⟨s, hs⟩ := sub_eq_ofRat hx hy
  rw [hs]
  refine isZero_ofRat s ?_
  calc least
    _ = 1 * least := (one_mul _).symm
    _ ≤ |((a - b : Int) : Rat)| * least := mul_le_mul_of_nonneg_right hle least_pos.le
    _ = |a * least - b * least| := by
      rw [← sub_mul, abs_mul, abs_of_pos least_pos, Int.cast_sub]

/-- The difference of doubles is a zero if they have the same value, and only then. -/
theorem isZero_sub_iff {x y : Double} {p q : Rat} (hx : x.value? = some p)
    (hy : y.value? = some q) :
    (x.sub y).isZero = true ↔ p = q := by
  constructor
  · intro hzero
    by_contra hne
    rw [isZero_sub hx hy hne] at hzero
    cases hzero
  · rintro rfl
    obtain ⟨s, hs⟩ := sub_eq_ofRat hx hy
    rw [hs, sub_self]
    cases s <;> decide +kernel

/-! ## Integers -/

theorem roundHalfEven_one (n : Nat) : roundHalfEven n 1 = n := by
  simp [roundHalfEven, Nat.mod_one]

theorem floorLog2_one {n : Nat} (h : n ≠ 0) : floorLog2 n 1 = Nat.log2 n := by
  have hone : Nat.log2 1 = 0 := by decide
  have hle : 1 * Nat.pow 2 (Nat.log2 n) ≤ n := by
    rw [Nat.one_mul]
    exact Nat.log2_self_le h
  have hzero : (-(Nat.log2 n : Int)).toNat = 0 := by omega
  unfold floorLog2
  simp only [hone, Int.ofNat_zero, Int.sub_zero, Int.toNat_natCast, hzero]
  rw [if_pos (by simpa using hle)]

theorem ofInt_eq_ofQuotient (n : Int) : ofInt n = ofQuotient (decide (n < 0)) n.natAbs 1 := by
  have hofInt : ofInt n = ofQuotient (if n = 0 then false else decide (n < 0)) n.natAbs 1 := rfl
  rw [hofInt]
  by_cases hzero : n = 0
  · subst hzero
    rfl
  · rw [if_neg hzero]

/-- A natural number below `2 ^ 53` is shifted until it has 53 bits. -/
theorem ofQuotient_one {n : Nat} (hn : n ≠ 0) (h : n < 2 ^ 53) (negative : Bool) :
    ∃ (k : Nat) (hcanonical : Canonical (n * 2 ^ k) (-k)),
      ofQuotient negative n 1 = finite negative (n * 2 ^ k) (-k) hcanonical := by
  have hleast : 2 ^ Nat.log2 n ≤ n := Nat.log2_self_le hn
  have hgreatest : n < 2 ^ (Nat.log2 n + 1) := Nat.lt_log2_self
  have hlog : Nat.log2 n < 53 := (Nat.log2_lt hn).2 h
  obtain ⟨k, hk⟩ := Nat.exists_eq_add_of_le (Nat.le_of_lt_succ hlog)
  have hpow : ∀ j, Nat.pow 2 j = 2 ^ j := fun _ => rfl
  have hmantissa : 2 ^ 52 ≤ n * 2 ^ k ∧ n * 2 ^ k < 2 ^ 53 := by
    rw [hk, pow_add, show 53 = Nat.log2 n + 1 + k by omega, pow_add]
    exact ⟨Nat.mul_le_mul_right _ hleast, Nat.mul_lt_mul_of_pos_right hgreatest (by positivity)⟩
  have hcanonical : Canonical (n * 2 ^ k) (-k) :=
    ⟨hmantissa.2, by omega, by omega, fun hsmall => absurd hmantissa.1 (Nat.not_le_of_lt hsmall)⟩
  refine ⟨k, hcanonical, ?_⟩
  have he : max ((Nat.log2 n : Int) - 52) (-1074) = -k := by omega
  unfold ofQuotient
  rw [if_neg hn]
  simp only [floorLog2_one hn, he, Int.neg_neg, Int.toNat_natCast, hpow]
  rw [show (-(k : Int)).toNat = 0 by omega, pow_zero, Nat.mul_one, roundHalfEven_one,
    if_neg hmantissa.2.ne, ofParts, dif_pos hcanonical]

/-- **An integer up to `2 ^ 53` is a double.** -/
theorem value?_ofInt {n : Int} (h : n.natAbs ≤ 2 ^ 53) : (ofInt n).value? = some (n : Rat) := by
  by_cases hzero : n = 0
  · subst hzero
    decide +kernel
  by_cases hgreatest : n.natAbs = 2 ^ 53
  · rcases Int.natAbs_eq_iff.1 hgreatest with rfl | rfl <;> decide +kernel
  obtain ⟨k, hcanonical, hfinite⟩ := ofQuotient_one (Int.natAbs_ne_zero.2 hzero)
    (Nat.lt_of_le_of_ne h hgreatest) (decide (n < 0))
  rw [ofInt_eq_ofQuotient, hfinite, value?]
  have hpower : ((n.natAbs * 2 ^ k : Nat) : Rat) * 2 ^ (-k : Int) = n.natAbs := by
    rw [Nat.cast_mul, Nat.cast_pow, Nat.cast_ofNat, zpow_neg, zpow_natCast,
      mul_inv_cancel_right₀ (by positivity)]
  rw [mul_assoc, hpower, Nat.cast_natAbs, Int.cast_abs]
  rcases lt_or_gt_of_ne hzero with hneg | hpos
  · have hneg' : (n : Rat) < 0 := by exact_mod_cast hneg
    simp [hneg, abs_of_neg hneg']
  · have hpos' : (0 : Rat) < n := by exact_mod_cast hpos
    simp [not_lt_of_gt hpos, abs_of_pos hpos']

theorem isZero_ofInt {n : Int} (h : n ≠ 0) : (ofInt n).isZero = false := by
  have hone : (1 : Rat) ≤ |(n : Rat)| := by exact_mod_cast Int.one_le_abs h
  exact isZero_ofRat false (le_trans (zpow_le_one_of_nonpos₀ one_le_two (by norm_num)) hone)

theorem neg_ofParts (negative : Bool) (m : Nat) (e : Int) :
    (ofParts negative m e).neg = ofParts (!negative) m e := by
  unfold ofParts
  split <;> rfl

theorem neg_ofQuotient (negative : Bool) (n d : Nat) :
    (ofQuotient negative n d).neg = ofQuotient (!negative) n d := by
  unfold ofQuotient
  dsimp only
  split
  · exact neg_ofParts _ _ _
  split
  · exact neg_ofParts _ _ _
  · exact neg_ofParts _ _ _

theorem neg_ofInt {n : Int} (h : n ≠ 0) : (ofInt n).neg = ofInt (-n) := by
  have hsign : (!decide (n < 0)) = decide (-n < 0) := by
    rw [← decide_not]
    exact decide_eq_decide.2 (by omega)
  rw [ofInt_eq_ofQuotient, ofInt_eq_ofQuotient, neg_ofQuotient, hsign, Int.natAbs_neg]

theorem sub_ofInt {m n : Int} (hm : m.natAbs ≤ 2 ^ 53) (hn : n.natAbs ≤ 2 ^ 53) (hne : m ≠ n) :
    (ofInt m).sub (ofInt n) = ofInt (m - n) := by
  obtain ⟨s, hs⟩ := sub_eq_ofRat (value?_ofInt hm) (value?_ofInt hn)
  have hdifference : (m : Rat) - n ≠ 0 := sub_ne_zero.2 (by exact_mod_cast hne)
  rw [hs, ofInt, Int.cast_sub, ofRat_eq_ofRat s false hdifference]

end Double

theorem abs_intCast_lt {n : Int} (h : n.natAbs < 10 ^ 300) : |(n : Rat)| < 2 ^ (1000 : Int) := by
  rw [← Int.cast_abs, ← Int.natCast_natAbs, Int.cast_natCast]
  calc (n.natAbs : Rat)
    _ < 10 ^ 300 := by exact_mod_cast h
    _ = (10 ^ 3) ^ 100 := by rw [← pow_mul]
    _ ≤ (2 ^ 10) ^ 100 := pow_le_pow_left₀ (by norm_num) (by norm_num) 100
    _ = 2 ^ 1000 := by rw [← pow_mul]
    _ = 2 ^ (1000 : Int) := (zpow_ofNat 2 1000).symm

theorem Number.isFinite_int {n : Int} (h : n.natAbs < 10 ^ 300) :
    (Number.int n).isFinite = .ok true := by
  have hsmall : |(n : Rat)| < 2 ^ (1022 : Int) :=
    (abs_intCast_lt h).trans (zpow_lt_zpow_right₀ one_lt_two (by norm_num))
  have hfinite : (Double.ofInt n).isFinite = true := Double.isFinite_ofRat false hsmall
  simp [Number.isFinite, Number.toDouble, hfinite, Except.map]

/-! ## Integers in the range of the doubles -/

namespace Double

/-- What lies more than half a unit below a number of units is not rounded up to it. -/
theorem roundHalfEven_lt {n u k : Nat} (h : n + u < 2 * u * k) : roundHalfEven n (2 * u) < k := by
  have hdiv := Nat.div_add_mod n (2 * u)
  unfold roundHalfEven
  dsimp only
  generalize n / (2 * u) = q at hdiv ⊢
  generalize n % (2 * u) = r at hdiv ⊢
  split
  · refine Nat.lt_of_mul_lt_mul_left (a := 2 * u) ?_
    omega
  · refine Nat.lt_of_mul_lt_mul_left (a := 2 * u) ?_
    rw [mul_add, mul_one]
    omega

/-- **An integer in the range of the doubles is rounded to a finite one**: it lies more than half a
unit below the power of two that is too large. -/
theorem isFinite_ofQuotient_one {n : Nat} (h : n + 2 ^ 970 < 2 ^ 1024) (negative : Bool) :
    (ofQuotient negative n 1).isFinite = true := by
  by_cases hn : n = 0
  · subst hn
    exact isFinite_ofParts (m := 0) (e := -1074) (by decide)
  -- Below half of the range the exponent leaves room for a carry.
  by_cases hsmall : n < 2 ^ 1023
  · obtain ⟨m, e, hm, hrounded⟩ := ofQuotient_spec negative hn one_ne_zero
    rw [hm]
    refine isFinite_ofParts ⟨hrounded.mantissa, hrounded.exponent, ?_, hrounded.normal⟩
    by_contra he
    have hsize : (2 : Rat) ^ (e + 51) < 2 ^ (1023 : Int) := by
      calc (2 : Rat) ^ (e + 51)
        _ ≤ (n : Rat) / (1 : Nat) := hrounded.size (by omega)
        _ = n := by rw [Nat.cast_one, div_one]
        _ < 2 ^ 1023 := by exact_mod_cast hsmall
        _ = 2 ^ (1023 : Int) := (zpow_ofNat 2 1023).symm
    have := (zpow_lt_zpow_iff_right₀ (one_lt_two : (1 : Rat) < 2)).1 hsize
    omega
  -- In the upper half the unit is known, and rounding does not carry.
  · have hlog : Nat.log2 n = 1023 := (Nat.log2_eq_iff hn).2 ⟨by omega, by omega⟩
    have hexponent : max (((1023 : Nat) : Int) - 52) (-1074) = (970 + 1 : Nat) := by decide
    have hunit (k : Nat) : 1 * Nat.pow 2 ((k + 1 : Nat) : Int).toNat = 2 * 2 ^ k := by
      rw [Int.toNat_natCast, one_mul, Nat.pow_eq, pow_succ']
    have hwhole : n * Nat.pow 2 (-((970 + 1 : Nat) : Int)).toNat = n := mul_one n
    have hpower : 2 ^ 1024 = 2 * 2 ^ 970 * 2 ^ 53 := by rw [← pow_succ', ← pow_add]
    have hbelow : roundHalfEven n (2 * 2 ^ 970) < 2 ^ 53 := roundHalfEven_lt (hpower ▸ h)
    have hdown : 2 ^ 52 ≤ roundHalfEven n (2 * 2 ^ 970) := by
      refine le_trans ?_ (le_roundHalfEven _ _)
      rw [Nat.le_div_iff_mul_le (by positivity)]
      omega
    unfold ofQuotient
    rw [if_neg hn, floorLog2_one hn, hlog]
    dsimp only
    rw [hexponent, hunit, hwhole]
    generalize roundHalfEven n (2 * 2 ^ 970) = m at hbelow hdown ⊢
    have hpow53 : Nat.pow 2 53 = 2 ^ 53 := rfl
    rw [if_neg (by omega)]
    exact isFinite_ofParts ⟨hbelow, by decide, by decide, fun hm => absurd hm (Nat.not_lt.2 hdown)⟩

end Double

/-- The integers that lie in the range of the doubles are those that do not come to the power of two
after the greatest double when they are rounded. -/
def Number.InRange : Number → Prop
  | .int n => n.natAbs + 2 ^ 970 < 2 ^ 1024
  | .double _ => True

instance : DecidablePred Number.InRange
  | .int n => inferInstanceAs (Decidable (n.natAbs + 2 ^ 970 < 2 ^ 1024))
  | .double _ => inferInstanceAs (Decidable True)

theorem Number.InRange.isFinite {n : Number} (h : n.InRange) :
    ∃ finite, n.isFinite = .ok finite := by
  cases n with
  | int n =>
    have hfinite : (Double.ofInt n).isFinite = true := by
      rw [Double.ofInt_eq_ofQuotient]
      exact Double.isFinite_ofQuotient_one h _
    exact ⟨true, by simp [Number.isFinite, Number.toDouble, hfinite, Except.map]⟩
  | double d => exact ⟨d.isFinite, rfl⟩

end FluidCss
