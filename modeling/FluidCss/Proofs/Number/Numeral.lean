import FluidCss.Number.Numeral
import FluidCss.Proofs.Number.Decimal
import FluidCss.Proofs.Number.Rounding
import FluidCss.Proofs.Text.Trim
import Mathlib.Algebra.Group.Nat.Defs

/-!
# Integers that are read back

An integer that is written in decimal digits is read as itself, unless it has more digits than are
read as an integer. As a double it is the nearest one.

* `number?_intText`: the numeral of an integer, read as a number.
* `double?_intText`: the numeral of an integer, read as a double.
-/

namespace FluidCss

open Text

/-! ## Rows of digits -/

/-- What a digit from `0` to `9` counts. -/
def CodePoint.digitValue (p : CodePoint) : Nat := p.number - 0x30

theorem digitValue?_of_isDigit {p : CodePoint} (h : p.isDigit) :
    digitValue? p = some p.digitValue := by
  rcases CodePoint.isDigit_iff.1 h
    with rfl | rfl | rfl | rfl | rfl | rfl | rfl | rfl | rfl | rfl <;>
    decide

namespace Numeral

theorem digitRow_of_isDigit {t : Text} (h : ∀ p ∈ t, p.isDigit) :
    digitRow t = (t.map CodePoint.digitValue, []) := by
  induction t with
  | nil => rfl
  | cons c t ih =>
    have hc := digitValue?_of_isDigit (h c List.mem_cons_self)
    have ht := ih fun p hp => h p (List.mem_cons_of_mem c hp)
    unfold digitRow
    split
    · exact absurd (h (.char '_') (by simp_all)) (by decide)
    · rename_i heq
      obtain ⟨rfl, rfl⟩ := List.cons.inj heq
      simp [hc, ht]
    · rename_i heq
      cases heq

theorem ofDigits_append (ds : List Nat) (d : Nat) :
    ofDigits (ds ++ [d]) = 10 * ofDigits ds + d := by
  simp [ofDigits]

theorem ofDigits_toDigits (n : Nat) :
    ofDigits ((ofChars (Nat.toDigits 10 n)).map CodePoint.digitValue) = n := by
  have hdigit : ∀ d < 10, CodePoint.digitValue (.char d.digitChar) = d := by decide
  -- Induction on the number of digits.
  induction n using Nat.strongRecOn with
  | ind n ih =>
    by_cases h : n < 10
    · rw [Nat.toDigits_of_lt_base h]
      simp [ofChars, ofDigits, hdigit n h]
    · have htail := ih (n / 10) (by omega)
      rw [Nat.toDigits_of_base_le (by decide) (by omega), ofChars, List.map_append, List.map_append]
      simp only [List.map_cons, List.map_nil, ofDigits_append, hdigit (n % 10) (by omega)]
      rw [← ofChars, htail]
      omega

/-! ## Integers -/

/-- An integer with no more digits than are read as an integer. -/
def IsShort (n : Int) : Prop := n.natAbs < 10 ^ integerDigitLimit

theorem length_toDigits_le {n : Int} (h : IsShort n) :
    (ofChars (Nat.toDigits 10 n.natAbs)).length ≤ integerDigitLimit := by
  rw [ofChars, List.length_map]
  exact (Nat.length_toDigits_le_iff (by decide) (by decide)).2 h

/-- What the numeral of an integer is made of is neither blank nor a mark between numerals. -/
theorem mem_intText {n : Int} {p : CodePoint} (hp : p ∈ Number.intText n) :
    isBlank p = false ∧ p ≠ ',' ∧ p ≠ ')' := by
  obtain ⟨sign, whole, hdecimal, htext, -⟩ := Number.isDecimal_intText n
  rcases hdecimal.mem (by rwa [List.append_nil, ← htext]) with hdigit | rfl | rfl
  · rcases CodePoint.isDigit_iff.1 hdigit with
      rfl | rfl | rfl | rfl | rfl | rfl | rfl | rfl | rfl | rfl <;> decide
  · decide
  · decide

theorem stripped_intText {test : CodePoint → Bool} (htest : ∀ p, isBlank p = false → test p = false)
    (n : Int) : stripped test (Number.intText n) = Number.intText n :=
  stripped_eq_self (fun p hp => htest p (mem_intText (List.mem_of_mem_head? hp)).1)
    fun p hp => htest p (mem_intText (List.mem_of_mem_getLast? hp)).1

/-- No blanks surround the numeral of an integer. -/
theorem trimBy_intText (n : Int) : trimBy isNumeralBlank (Number.intText n) = Number.intText n :=
  stripped_intText (fun p hp => by rw [isNumeralBlank, hp]; rfl) n

theorem sign_intText (n : Int) :
    sign (Number.intText n) = (decide (n < 0), ofChars (Nat.toDigits 10 n.natAbs)) := by
  obtain ⟨c, cs, hcons, hc⟩ := (isDigits_toDigits n.natAbs).exists_cons
  obtain ⟨-, -, hminus, hplus, -⟩ := CodePoint.IsDigit.facts hc
  by_cases hn : n < 0
  · have htext : Number.intText n = .char '-' :: ofChars (Nat.toDigits 10 n.natAbs) := by
      simp [Number.intText, hn, ofChars]
    rw [htext]
    simp [sign, hn]
  · have htext : Number.intText n = ofChars (Nat.toDigits 10 n.natAbs) := by
      simp [Number.intText, hn]
    rw [htext, hcons]
    unfold sign
    split
    · rename_i heq
      exact absurd (List.cons.inj heq).1 hminus
    · rename_i heq
      exact absurd (List.cons.inj heq).1 hplus
    · simp [hn]

theorem integer?_intText {n : Int} (h : IsShort n) : integer? (Number.intText n) = some n := by
  have hdigits := isDigits_toDigits n.natAbs
  have hlength := length_toDigits_le h
  have hvalue : (if decide (n < 0) = true then -(n.natAbs : Int) else n.natAbs) = n := by
    by_cases hn : n < 0
    · rw [if_pos (decide_eq_true hn)]
      omega
    · rw [if_neg (by simpa using hn)]
      omega
  unfold integer?
  rw [trimBy_intText, sign_intText]
  simp only [digitRow_of_isDigit hdigits.isDigit, ofDigits_toDigits, hvalue]
  rw [if_neg]
  simp [hdigits.ne_nil, hlength]

/-- **An integer that is written is read back**, unless it is too long. -/
theorem number?_intText {n : Int} (h : IsShort n) : number? (Number.intText n) = some (.int n) := by
  rw [number?, integer?_intText h]

/-! ## Doubles -/

theorem toDouble_natAbs {n : Int} (h : (Nat.toDigits 10 n.natAbs).length ≤ 400) :
    Decimal.toDouble (decide (n < 0)) ⟨n.natAbs, 0⟩ = Double.ofInt n := by
  rw [Double.ofInt_eq_ofQuotient]
  unfold Decimal.toDouble
  dsimp only
  by_cases hzero : n.natAbs = 0
  · rw [if_pos (.inl hzero), hzero]
  · rw [if_neg (by omega), if_neg (by omega)]
    simp

/-- Digits are none of the words that are read as doubles. -/
theorem map_toLower_ne {t : Text} (h : IsDigits t) (word : Text)
    (hword : ∀ p ∈ word.head?, p.isDigit = false) : t.map CodePoint.toLower ≠ word := by
  obtain ⟨c, cs, rfl, hc⟩ := h.exists_cons
  have hlower : c.toLower.isDigit = true := by
    rcases CodePoint.isDigit_iff.1 hc
      with rfl | rfl | rfl | rfl | rfl | rfl | rfl | rfl | rfl | rfl <;>
      decide
  rintro rfl
  rw [hword c.toLower rfl] at hlower
  cases hlower

/-- **An integer is read as the nearest double**, at least if it has no more than 400 digits. -/
theorem double?_intText {n : Int} (h : (Nat.toDigits 10 n.natAbs).length ≤ 400) :
    double? (Number.intText n) = some (Double.ofInt n) := by
  have hdigits := isDigits_toDigits n.natAbs
  unfold double?
  rw [trimBy_intText, sign_intText]
  simp only [map_toLower_ne hdigits "inf" (by decide),
    map_toLower_ne hdigits "infinity" (by decide),
    map_toLower_ne hdigits "nan" (by decide), or_self, if_false,
    digitRow_of_isDigit hdigits.isDigit, fraction, exponent, List.append_nil, ofDigits_toDigits,
    List.length_nil, Nat.cast_zero, Int.sub_zero, toDouble_natAbs h]
  rw [if_neg]
  simp [hdigits.ne_nil]

end Numeral

end FluidCss
