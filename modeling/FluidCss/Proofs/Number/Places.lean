import FluidCss.Proofs.Number.Numeral
import Mathlib.Data.List.DropRight

/-!
# Numbers with four places

A number is rounded to a whole number of ten-thousandths, a half going away from zero, and this is
written in decimals: with all four places, or without the zeros at the end. What is written denotes
the rounded number exactly, however large it is, and the short form is the only one that has no
superfluous zeros.

* `Fixed.ofRat_rounded` and `Fixed.IsRounded.mono`: the rounded number, and that rounding keeps the
  order.
* `Fixed.exists_shortText` and `Fixed.exists_text`: the numerals, and what they denote.
-/

namespace FluidCss

/-! ## Numerals -/

/-- A decimal numeral by its sign, the digits before its point and those after it. -/
structure Figures where
  negative : Bool
  whole : Text
  places : Text

namespace Figures

/-- How a numeral is written. It has a point only if digits come after it. -/
def text (f : Figures) : Text :=
  (if f.negative then [.char '-'] else []) ++ f.whole ++
    (if f.places.isEmpty then [] else .char '.' :: f.places)

/-- The number that a numeral denotes. -/
def value (f : Figures) : Rat :=
  (if f.negative then -1 else 1) *
    (Numeral.ofDigits ((f.whole ++ f.places).map CodePoint.digitValue) / 10 ^ f.places.length)

/-- Digits from `0` to `9`, and before the point at least one and no superfluous zero. -/
structure IsPlain (f : Figures) : Prop where
  whole : IsDigits f.whole
  lead : f.whole.head? = some (.char '0') → f.whole = "0"
  places : ∀ p ∈ f.places, p.isDigit

/-- The shortest form of a numeral with at most four places. -/
structure IsCanonical (f : Figures) : Prop extends f.IsPlain where
  length : f.places.length ≤ 4
  last : f.places.getLast? ≠ some (.char '0')
  zero : f.value = 0 → f.negative = false

/-- A numeral without a sign and with four places. -/
structure IsFull (f : Figures) : Prop extends f.IsPlain where
  length : f.places.length = 4
  sign : f.negative = false

theorem IsPlain.isDecimal {f : Figures} (h : f.IsPlain) :
    ∃ sign fraction, IsDecimal sign f.whole fraction ∧ f.text = sign ++ f.whole ++ fraction := by
  refine ⟨_, _, ⟨?_, h.whole, ?_⟩, rfl⟩
  · split
    · exact .inr rfl
    · exact .inl rfl
  · split
    · exact .inl rfl
    · rename_i hne
      exact .inr ⟨f.places, rfl, by simpa using hne, h.places⟩

theorem IsPlain.mem_text {f : Figures} (h : f.IsPlain) {p : CodePoint} (hp : p ∈ f.text) :
    p.isDigit ∨ p = '-' ∨ p = '.' := by
  obtain ⟨sign, fraction, hdecimal, htext⟩ := h.isDecimal
  rw [htext] at hp
  exact hdecimal.mem hp

theorem value_zero_at_end (negative : Bool) (whole places : Text) :
    value ⟨negative, whole, places ++ "0"⟩ = value ⟨negative, whole, places⟩ := by
  have hzero : (("0" : Text).map CodePoint.digitValue) = [0] := by decide
  have hlength : (places ++ "0").length = places.length + 1 := List.length_append
  unfold value
  simp only [hlength]
  rw [← List.append_assoc, List.map_append, hzero, Numeral.ofDigits_append, pow_succ]
  push_cast
  field_simp
  ring

end Figures

/-! ## Digits -/

namespace Numeral

/-- Digits count as many units as have places after them. -/
theorem ofDigits_append_row (as bs : List Nat) :
    ofDigits (as ++ bs) = ofDigits as * 10 ^ bs.length + ofDigits bs := by
  induction bs using List.reverseRecOn with
  | nil => simp [ofDigits]
  | append_singleton bs b ih =>
    rw [← List.append_assoc, ofDigits_append, ofDigits_append, ih, List.length_append,
      List.length_singleton, pow_succ]
    ring

theorem head?_toDigits {n : Nat} (h : n ≠ 0) : (Nat.toDigits 10 n).head? ≠ some '0' := by
  have hdigit : ∀ d < 10, d ≠ 0 → Nat.digitChar d ≠ '0' := by decide
  induction n using Nat.strongRecOn with
  | ind n ih =>
    by_cases hsmall : n < 10
    · rw [Nat.toDigits_of_lt_base hsmall]
      intro hhead
      exact hdigit n hsmall h (Option.some.inj hhead)
    · rw [Nat.toDigits_of_base_le (by decide) (by omega),
        List.head?_append_of_ne_nil _ Nat.toDigits_ne_nil]
      exact ih (n / 10) (by omega) (by omega)

end Numeral

namespace Fixed

theorem ofDigits_fractionDigits (n : Nat) :
    Numeral.ofDigits ((Text.ofChars (fractionDigits n)).map CodePoint.digitValue) = n % unit := by
  have hdigit : ∀ d < 10, CodePoint.digitValue (.char d.digitChar) = d := by decide
  have hunit : unit = 10000 := rfl
  simp only [fractionDigits, Text.ofChars, List.map_cons, List.map_nil, Numeral.ofDigits,
    List.foldl_cons, List.foldl_nil, hdigit _ (Nat.mod_lt _ (by decide : 0 < 10)), hunit]
  omega

/-! ## What is written -/

/-- The numeral of a number of ticks, with some of its places. -/
def figures (n : Int) (places : List Char) : Figures :=
  ⟨decide (n < 0), .ofChars (Nat.toDigits 10 (n.natAbs / unit)), .ofChars places⟩

theorem isPlain_figures (n : Int) {places : List Char} (h : ∀ c ∈ places, c.isDigit) :
    (figures n places).IsPlain where
  whole := isDigits_toDigits _
  lead := by
    intro hlead
    by_cases hzero : n.natAbs / unit = 0
    · show Text.ofChars (Nat.toDigits 10 (n.natAbs / unit)) = "0"
      rw [hzero]
      decide
    · obtain ⟨c, hc, hchar⟩ : ∃ c, (Nat.toDigits 10 (n.natAbs / unit)).head? = some c ∧
          CodePoint.char c = .char '0' := by
        simpa [figures, Text.ofChars] using hlead
      obtain rfl := CodePoint.char.inj hchar
      exact absurd hc (Numeral.head?_toDigits hzero)
  places := isDigit_ofChars h

theorem value_figures (n : Int) : (figures n (fractionDigits n.natAbs)).value = n / 10000 := by
  have hlength : (Text.ofChars (fractionDigits n.natAbs)).length = 4 := rfl
  have hdivision : n.natAbs / unit * 10 ^ 4 + n.natAbs % unit = n.natAbs :=
    Nat.div_add_mod' n.natAbs unit
  unfold figures Figures.value
  simp only [hlength]
  rw [List.map_append, Numeral.ofDigits_append_row, Numeral.ofDigits_toDigits,
    ofDigits_fractionDigits, List.length_map, hlength, hdivision]
  have hfour : (10 : Rat) ^ 4 = 10000 := by norm_num
  rw [hfour, ← mul_div_assoc]
  congr 1
  by_cases hn : n < 0
  · have habs : (n.natAbs : Rat) = -n := by
      rw [Nat.cast_natAbs, abs_of_neg hn, Int.cast_neg]
    simp [hn, habs]
  · have habs : (n.natAbs : Rat) = n := by
      rw [Nat.cast_natAbs, abs_of_nonneg (not_lt.1 hn)]
    simp [hn, habs]

/-- The zeros at the end can be left out. -/
theorem value_rdropWhile (n : Int) (places : List Char) :
    (figures n (places.rdropWhile (· == '0'))).value = (figures n places).value := by
  -- Induction on the places from their end.
  induction places using List.reverseRecOn with
  | nil => rfl
  | append_singleton places c ih =>
    by_cases hc : c = '0'
    · subst hc
      rw [List.rdropWhile_concat_pos _ _ _ (by decide), ih]
      have happend : Text.ofChars (places ++ ['0']) = Text.ofChars places ++ "0" :=
        List.map_append
      unfold figures
      rw [happend, Figures.value_zero_at_end]
    · rw [List.rdropWhile_concat_neg _ _ _ (by simpa using hc)]

theorem text_eq (n : Int) : (ticks n).text = (figures n (fractionDigits n.natAbs)).text := by
  by_cases hn : n < 0 <;> simp [text, figures, Figures.text, signChars, hn, Text.ofChars,
    fractionDigits]

theorem shortText_eq (n : Int) : (ticks n).shortText =
    (figures n ((fractionDigits n.natAbs).rdropWhile (· == '0'))).text := by
  unfold shortText figures Figures.text
  show Text.ofChars _ = _
  rw [← List.rdropWhile]
  generalize (fractionDigits n.natAbs).rdropWhile (· == '0') = places
  by_cases hn : n < 0 <;> cases places <;> simp [signChars, hn, Text.ofChars]

/-- **The short form is the shortest one**, and denotes the number. -/
theorem exists_shortText (n : Int) :
    ∃ f : Figures, f.IsCanonical ∧ (ticks n).shortText = f.text ∧ f.value = n / 10000 := by
  have hdigits := isDigit_fractionDigits n.natAbs
  have hkept := List.rdropWhile_prefix (· == '0') (fractionDigits n.natAbs)
  have hlast := List.rdropWhile_last_not (· == '0') (fractionDigits n.natAbs)
  have hvalue := (value_rdropWhile n (fractionDigits n.natAbs)).trans (value_figures n)
  have htext : (ticks n).shortText =
      (figures n ((fractionDigits n.natAbs).rdropWhile (· == '0'))).text :=
    shortText_eq n
  generalize (fractionDigits n.natAbs).rdropWhile (· == '0') = places at *
  refine ⟨figures n places, ⟨isPlain_figures n fun c hc => hdigits c (hkept.mem hc), ?_, ?_, ?_⟩,
    htext, hvalue⟩
  -- At most four places, no zero at their end, and no sign of a zero.
  · show (Text.ofChars places).length ≤ 4
    rw [Text.ofChars, List.length_map]
    exact hkept.length_le
  · intro hzero
    obtain ⟨c, hc, hchar⟩ : ∃ c, places.getLast? = some c ∧ CodePoint.char c = .char '0' := by
      simpa [figures, Text.ofChars] using hzero
    obtain rfl := CodePoint.char.inj hchar
    have hne : places ≠ [] := by
      rintro rfl
      cases hc
    rw [List.getLast?_eq_some_getLast hne] at hc
    exact hlast hne (beq_iff_eq.2 (Option.some.inj hc))
  · intro hzero
    rw [hvalue] at hzero
    have hn : n = 0 := by
      have hn : (n : Rat) = 0 := by linarith
      exact_mod_cast hn
    show decide (n < 0) = false
    simp [hn]

/-- **With all four places**, a number that is not negative. -/
theorem exists_text {n : Int} (h : 0 ≤ n) :
    ∃ f : Figures, f.IsFull ∧ (ticks n).text = f.text ∧ f.value = n / 10000 := by
  refine ⟨figures n (fractionDigits n.natAbs),
    ⟨isPlain_figures n (isDigit_fractionDigits _), rfl, ?_⟩, ?_, value_figures n⟩
  · show decide (n < 0) = false
    simpa using h
  · exact text_eq n

/-! ## Rounding -/

/-- `r` is `q` rounded to four places, a half going away from zero. -/
structure IsRounded (q r : Rat) : Prop where
  ticks : ∃ n : Int, r = n / 10000
  near : |r - q| ≤ 1 / 20000
  away : |r - q| = 1 / 20000 → |q| < |r|

theorem roundHalfUp_eq_floor (n : Nat) {d : Nat} (hd : 0 < d) :
    roundHalfUp n d = ⌊(n : Rat) / d + 1 / 2⌋₊ := by
  have hpos : (0 : Rat) < d := by exact_mod_cast hd
  have hhalf : (n : Rat) / d + 1 / 2 = (2 * n + d : Nat) / (2 * d : Nat) := by
    push_cast
    field_simp
  rw [hhalf, Nat.floor_div_eq_div]
  rfl

/-- The magnitude in ticks, a half going up. -/
def magnitude (q : Rat) : Nat := ⌊|q| * 10000 + 1 / 2⌋₊

theorem ofRat_eq (q : Rat) :
    ofRat q = .ticks (if q < 0 then -(magnitude q : Int) else magnitude q) := by
  have hscaled : ((q.num.natAbs * unit : Nat) : Rat) / q.den = |q| * 10000 := by
    rw [← Double.natAbs_div_den q, show unit = 10000 from rfl]
    push_cast
    ring
  have hmagnitude : roundHalfUp (q.num.natAbs * unit) q.den = magnitude q := by
    rw [roundHalfUp_eq_floor _ q.den_pos, hscaled]
    rfl
  unfold ofRat
  simp only [hmagnitude, Rat.num_neg]

theorem magnitude_bounds (q : Rat) :
    |q| * 10000 - 1 / 2 < magnitude q ∧ (magnitude q : Rat) ≤ |q| * 10000 + 1 / 2 := by
  have hpos : 0 ≤ |q| * 10000 + 1 / 2 := by positivity
  constructor
  · have hlt := Nat.lt_floor_add_one (|q| * 10000 + 1 / 2)
    rw [← magnitude] at hlt
    linarith
  · exact Nat.floor_le hpos

/-- A number and its rounded magnitude, with the sign of the number. -/
theorem exists_ticks (q : Rat) : ∃ n : Int, ofRat q = .ticks n ∧
    |(n : Rat) / 10000 - q| = |(magnitude q : Rat) / 10000 - (|q|)| ∧
      |(n : Rat) / 10000| = (magnitude q : Rat) / 10000 := by
  have hpos : (0 : Rat) ≤ (magnitude q : Rat) / 10000 := by positivity
  refine ⟨_, ofRat_eq q, ?_⟩
  split
  · rename_i hneg
    have hticks : ((-(magnitude q : Int) : Int) : Rat) / 10000 =
        -((magnitude q : Rat) / 10000) := by
      push_cast
      ring
    rw [hticks, abs_neg, abs_of_nonneg hpos, abs_of_neg hneg, ← abs_neg]
    refine ⟨?_, rfl⟩
    congr 1
    ring
  · rename_i hnonneg
    rw [Int.cast_natCast, abs_of_nonneg hpos, abs_of_nonneg (not_lt.1 hnonneg)]
    exact ⟨rfl, rfl⟩

/-- **The rounded number.** -/
theorem ofRat_rounded (q : Rat) : ∃ n : Int, ofRat q = .ticks n ∧ IsRounded q (n / 10000) := by
  obtain ⟨hleast, hgreatest⟩ := magnitude_bounds q
  obtain ⟨n, hn, hdistance, hsize⟩ := exists_ticks q
  refine ⟨n, hn, ⟨n, rfl⟩, ?_, ?_⟩
  · rw [hdistance, abs_le]
    constructor <;> linarith
  · -- A half is never left off, so it has been added.
    intro hhalf
    rw [hdistance] at hhalf
    rw [hsize]
    rcases abs_choice ((magnitude q : Rat) / 10000 - |q|) with habs | habs
    · linarith
    · linarith

/-- **Rounding keeps the order.** If it did not, one number would be a half away from two rounded
ones, and of these one is not further from zero than the number. -/
theorem IsRounded.mono {p q r t : Rat} (h : p ≤ q) (hr : IsRounded p r) (ht : IsRounded q t) :
    r ≤ t := by
  obtain ⟨m, rfl⟩ := hr.ticks
  obtain ⟨n, rfl⟩ := ht.ticks
  by_contra hlt
  obtain ⟨-, hm⟩ := abs_le.1 hr.near
  obtain ⟨hn, -⟩ := abs_le.1 ht.near
  have hnext : (n : Rat) + 1 ≤ m := by
    have hlt : n < m := by
      have hlt : (n : Rat) < m := by linarith
      exact_mod_cast hlt
    exact_mod_cast hlt
  -- Both are exactly a half away, with a tick between the rounded numbers.
  have hp : (m : Rat) / 10000 - p = 1 / 20000 := by linarith
  have hq : (n : Rat) / 10000 - q = -(1 / 20000) := by linarith
  have hhalf : (0 : Rat) ≤ 1 / 20000 := by norm_num
  rcases le_or_gt 0 n with hsign | hsign
  · have hpos : (0 : Rat) ≤ n := by exact_mod_cast hsign
    -- The greater one would have been rounded up, away from zero.
    have haway := ht.away (by rw [hq, abs_neg, abs_of_nonneg hhalf])
    rw [abs_of_nonneg (by linarith), abs_of_nonneg (by linarith)] at haway
    linarith
  · have hneg : (n : Rat) + 1 ≤ 0 := by exact_mod_cast hsign
    -- And below zero the lower one down.
    have haway := hr.away (by rw [hp, abs_of_nonneg hhalf])
    rw [abs_of_nonpos (by linarith), abs_of_nonpos (by linarith)] at haway
    linarith

end Fixed

end FluidCss
