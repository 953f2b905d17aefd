import FluidCss.Number.Basic
import FluidCss.Proofs.Component.Stop
import Mathlib.Data.List.TakeWhile

/-!
# Decimal numerals

Integers and numbers with four places are written as decimals: perhaps a minus sign, a row of
digits, and perhaps a point with digits after it. A text that such a numeral begins is scanned as a
number that ends with the numeral, if what follows could not go on with it.

* `Scan.numberLength_decimal`: the length of the number.
* `Number.isDecimal_intText`, `Fixed.isDecimal_text`, `Fixed.isDecimal_shortText`: what is written
  as a decimal.
-/

namespace FluidCss

/-! ## Digits -/

namespace CodePoint

theorem isDigit_iff {p : CodePoint} : p.isDigit ↔ p = '0' ∨ p = '1' ∨ p = '2' ∨ p = '3' ∨ p = '4' ∨
    p = '5' ∨ p = '6' ∨ p = '7' ∨ p = '8' ∨ p = '9' := by
  constructor
  · intro h
    have hnumber := ofNumber?_number p
    simp only [isDigit, Bool.and_eq_true, decide_eq_true_eq] at h
    obtain ⟨hleast, hgreatest⟩ := h
    generalize p.number = n at hnumber hleast hgreatest
    have hn : n ∈ List.range' 0x30 10 := by simp [List.mem_range'_1]; omega
    simp only [List.range', List.mem_cons, List.not_mem_nil, or_false] at hn
    rcases hn with rfl | rfl | rfl | rfl | rfl | rfl | rfl | rfl | rfl | rfl <;>
      · have hp := Option.some.inj hnumber
        rw [← hp]
        decide
  · rintro (rfl | rfl | rfl | rfl | rfl | rfl | rfl | rfl | rfl | rfl) <;> rfl

theorem IsDigit.facts {p : CodePoint} (h : p.isDigit) : Name.isSpace p = false ∧
    Name.isStart p = false ∧ p ≠ '-' ∧ p ≠ '+' ∧ p ≠ '.' ∧ p ≠ '\\' := by
  rcases isDigit_iff.1 h with rfl | rfl | rfl | rfl | rfl | rfl | rfl | rfl | rfl | rfl <;> decide

end CodePoint

/-- A row of digits that is not empty. -/
structure IsDigits (t : Text) : Prop where
  ne_nil : t ≠ []
  isDigit : ∀ p ∈ t, p.isDigit

namespace IsDigits

theorem exists_cons {t : Text} (h : IsDigits t) : ∃ c cs, t = c :: cs ∧ c.isDigit := by
  obtain ⟨c, cs, rfl⟩ := List.exists_cons_of_ne_nil h.ne_nil
  exact ⟨c, cs, rfl, h.isDigit c List.mem_cons_self⟩

theorem digitsLength {t v : Text} (h : IsDigits t) (hv : ∀ p ∈ v.head?, p.isDigit = false) :
    Scan.digitsLength (t ++ v) = t.length := by
  rw [Scan.digitsLength, takeWhile_append_of_head hv,
    List.takeWhile_eq_self_iff.2 h.isDigit]

end IsDigits

theorem isDigit_ofChars {cs : List Char} (h : ∀ c ∈ cs, c.isDigit) :
    ∀ p ∈ Text.ofChars cs, p.isDigit := by
  intro p hp
  obtain ⟨c, hc, rfl⟩ := List.mem_map.1 hp
  obtain ⟨hleast, hgreatest⟩ := Char.isDigit_iff_toNat.1 (h c hc)
  simp only [CodePoint.isDigit, CodePoint.number, Bool.and_eq_true]
  exact ⟨decide_eq_true hleast, decide_eq_true hgreatest⟩

theorem isDigits_toDigits (n : Nat) : IsDigits (.ofChars (Nat.toDigits 10 n)) where
  ne_nil := by simp [Text.ofChars, Nat.toDigits_ne_nil]
  isDigit := isDigit_ofChars fun _ h => Nat.isDigit_of_mem_toDigits (by decide) (by decide) h

/-! ## Decimals -/

/-- A decimal numeral by its sign, its digits before the point, and the point with the digits after
it. -/
structure IsDecimal (sign whole fraction : Text) : Prop where
  sign : sign = [] ∨ sign = "-"
  whole : IsDigits whole
  fraction : fraction = [] ∨ ∃ places, fraction = .char '.' :: places ∧ IsDigits places

namespace IsDecimal

variable {sign whole fraction : Text}

theorem mem (h : IsDecimal sign whole fraction) {p : CodePoint}
    (hp : p ∈ sign ++ whole ++ fraction) : p.isDigit ∨ p = '-' ∨ p = '.' := by
  rw [List.mem_append, List.mem_append] at hp
  rcases hp with (hp | hp) | hp
  · rcases h.sign with rfl | rfl
    · cases hp
    · exact .inr (.inl (List.mem_singleton.1 hp))
  · exact .inl (h.whole.isDigit p hp)
  · rcases h.fraction with rfl | ⟨places, rfl, hplaces⟩
    · cases hp
    · rcases List.mem_cons.1 hp with rfl | hp
      · exact .inr (.inr rfl)
      · exact .inl (hplaces.isDigit p hp)

end IsDecimal

/-- A code point that cannot go on with a decimal. -/
def EndsDecimal (p : CodePoint) : Prop := p.isDigit = false ∧ p ≠ '.' ∧ p ≠ 'e' ∧ p ≠ 'E'

instance (p : CodePoint) : Decidable (EndsDecimal p) := inferInstanceAs (Decidable (_ ∧ _))

namespace Scan

variable {sign whole fraction v : Text}

theorem exponentLength_eq_zero (hv : ∀ p ∈ v.head?, EndsDecimal p) : exponentLength v = 0 := by
  cases v with
  | nil => rfl
  | cons p v =>
    obtain ⟨-, -, he, hE⟩ := hv p rfl
    simp [exponentLength, he, hE]

theorem magnitudeLength_whole (hwhole : IsDigits whole) (hv : ∀ p ∈ v.head?, EndsDecimal p) :
    magnitudeLength (whole ++ v) = whole.length := by
  have hdrop : (whole ++ v).drop whole.length = v := List.drop_left
  unfold magnitudeLength
  simp only [hwhole.digitsLength fun p hp => (hv p hp).1, hdrop]
  split
  · exact absurd rfl (hv _ rfl).2.1
  · rfl

theorem magnitudeLength_point {places : Text} (hwhole : IsDigits whole) (hplaces : IsDigits places)
    (hv : ∀ p ∈ v.head?, EndsDecimal p) :
    magnitudeLength (whole ++ .char '.' :: (places ++ v)) = whole.length + 1 + places.length := by
  have hdrop : (whole ++ .char '.' :: (places ++ v)).drop whole.length =
    .char '.' :: (places ++ v) :=
    List.drop_left
  have hpoint : ∀ p ∈ (CodePoint.char '.' :: (places ++ v)).head?, p.isDigit = false := by
    intro p hp
    obtain rfl := Option.some.inj hp
    rfl
  obtain ⟨p, ps, hcons, -⟩ := hplaces.exists_cons
  have hfraction : digitsLength (places ++ v) = ps.length + 1 := by
    rw [hplaces.digitsLength fun p hp => (hv p hp).1, hcons, List.length_cons]
  unfold magnitudeLength
  simp only [hwhole.digitsLength hpoint, hdrop, hfraction]
  rw [hcons, List.length_cons]

theorem magnitudeLength_decimal (h : IsDecimal sign whole fraction)
    (hv : ∀ p ∈ v.head?, EndsDecimal p) :
    magnitudeLength (whole ++ (fraction ++ v)) = (whole ++ fraction).length := by
  rcases h.fraction with rfl | ⟨places, rfl, hplaces⟩
  · rw [List.append_nil]
    exact magnitudeLength_whole h.whole hv
  · rw [List.cons_append, magnitudeLength_point h.whole hplaces hv]
    simp only [List.length_append, List.length_cons]
    omega

/-- **A decimal is a number that ends with it**, if what follows cannot go on with it. -/
theorem numberLength_decimal (h : IsDecimal sign whole fraction)
    (hv : ∀ p ∈ v.head?, EndsDecimal p) :
    numberLength (sign ++ whole ++ fraction ++ v) = (sign ++ whole ++ fraction).length := by
  have hmagnitude := magnitudeLength_decimal h hv
  obtain ⟨c, cs, hwhole, hc⟩ := h.whole.exists_cons
  obtain ⟨-, -, hminus, hplus, -⟩ := CodePoint.IsDigit.facts hc
  have hsign : signLength (sign ++ (whole ++ (fraction ++ v))) = sign.length := by
    rcases h.sign with rfl | rfl
    · simp [signLength, hwhole, hminus, hplus]
    · rfl
  have hpos : (whole ++ fraction).length = (cs ++ fraction).length + 1 := by simp [hwhole]
  have hdrop : (sign ++ (whole ++ (fraction ++ v))).drop
      (sign.length + ((cs ++ fraction).length + 1)) = v := by
    rw [← hpos, ← List.drop_drop, List.drop_left, ← List.append_assoc, List.drop_left]
  rw [List.append_assoc, List.append_assoc]
  unfold numberLength
  simp only [hsign, List.drop_left, hmagnitude, hpos, hdrop, exponentLength_eq_zero hv]
  simp [hwhole]

end Scan

/-! ## What is written as a decimal -/

theorem Number.isDecimal_intText (n : Int) : ∃ sign whole, IsDecimal sign whole [] ∧
    Number.intText n = sign ++ whole ∧ whole = .ofChars (Nat.toDigits 10 n.natAbs) := by
  refine ⟨if n < 0 then "-" else [], _, ⟨?_, isDigits_toDigits n.natAbs, .inl rfl⟩, ?_, rfl⟩
  · split
    · exact .inr rfl
    · exact .inl rfl
  · rw [Number.intText, Text.ofChars, List.map_append]
    split <;> rfl

namespace Fixed

theorem isDigit_fractionDigits (n : Nat) : ∀ c ∈ fractionDigits n, c.isDigit := by
  intro c hc
  simp only [fractionDigits, List.map_cons, List.map_nil, List.mem_cons, List.not_mem_nil,
    or_false] at hc
  rcases hc with rfl | rfl | rfl | rfl <;>
    simp [Nat.isDigit_digitChar, Nat.mod_lt]

theorem signChars_eq (n : Int) : Text.ofChars (signChars n) = [] ∨
    Text.ofChars (signChars n) = "-" := by
  unfold signChars
  split
  · exact .inr rfl
  · exact .inl rfl

theorem isDecimal_text (n : Int) : ∃ sign whole places,
    IsDecimal sign whole (.char '.' :: places) ∧
      (ticks n).text = sign ++ whole ++ .char '.' :: places := by
  refine ⟨_, _, Text.ofChars (fractionDigits n.natAbs), ⟨signChars_eq n,
    isDigits_toDigits (n.natAbs / unit), .inr ⟨_, rfl, ?_⟩⟩, ?_⟩
  · exact ⟨by simp [Text.ofChars, fractionDigits], isDigit_ofChars (isDigit_fractionDigits _)⟩
  · simp [text, Text.ofChars]

/-- Only some of the places are written, or none. -/
theorem isDecimal_shortText (n : Int) : ∃ sign fraction,
    IsDecimal sign (.ofChars (Nat.toDigits 10 (n.natAbs / unit))) fraction ∧ (ticks n).shortText =
      sign ++ Text.ofChars (Nat.toDigits 10 (n.natAbs / unit)) ++ fraction := by
  have hmem : ∀ c ∈ ((fractionDigits n.natAbs).reverse.dropWhile (· == '0')).reverse,
    c.isDigit := by
    intro c hc
    exact isDigit_fractionDigits _ c
      (List.mem_reverse.1 ((List.dropWhile_sublist _).mem (List.mem_reverse.1 hc)))
  simp only [shortText]
  generalize ((fractionDigits n.natAbs).reverse.dropWhile (· == '0')).reverse = places at hmem
  refine ⟨_, Text.ofChars ((if places.isEmpty then [] else ['.']) ++ places),
    ⟨signChars_eq n, isDigits_toDigits _, ?_⟩, ?_⟩
  · cases places with
    | nil => exact .inl rfl
    | cons c cs => exact .inr ⟨_, rfl, by simp, isDigit_ofChars hmem⟩
  · simp [Text.ofChars]

end Fixed

end FluidCss
