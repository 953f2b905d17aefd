import FluidCss.Number.Basic
import FluidCss.Text.Blank
import FluidCss.Text.Digit

/-!
# Numerals

A numeral is read with blanks around it, a sign, and digits of any script; single underscores may
stand between digits. An integer numeral gives an integer. Any other numeral has a point or an
exponent, or names an infinity or a not-a-number, and gives the nearest double.
-/

namespace FluidCss.Numeral

open Text

/-- A row of digits at the start of a text, with single underscores between them, and the rest. -/
def digitRow : Text → List Nat × Text
  | c :: .char '_' :: c' :: t =>
    match digitValue? c with
    | some d =>
      if isDigit c' then
        let (ds, rest) := digitRow (c' :: t)
        (d :: ds, rest)
      else ([d], '_' :: c' :: t)
    | none => ([], c :: '_' :: c' :: t)
  | c :: t =>
    match digitValue? c with
    | some d =>
      let (ds, rest) := digitRow t
      (d :: ds, rest)
    | none => ([], c :: t)
  | [] => ([], [])

/-- The number written by digits, most significant first. -/
def ofDigits (ds : List Nat) : Nat := ds.foldl (fun n d => 10 * n + d) 0

/-- Whether a minus sign stands at the start, and the text after the sign. -/
def sign : Text → Bool × Text
  | .char '-' :: t => (true, t)
  | .char '+' :: t => (false, t)
  | t => (false, t)

/-- Integers with more digits are not read as integers; leading zeros count. -/
def integerDigitLimit : Nat := 4300

/-- Reads an integer numeral. -/
def integer? (t : Text) : Option Int :=
  let (negative, body) := sign (trimBy isNumeralBlank t)
  match digitRow body with
  | (ds, []) =>
    if ds.isEmpty || integerDigitLimit < ds.length then none
    else some (if negative then -(ofDigits ds : Int) else ofDigits ds)
  | (_, _ :: _) => none

/-- The exponent part of a numeral, zero if there is none, and the rest. -/
def exponent (t : Text) : Int × Text :=
  match t with
  | c :: tail =>
    if c = 'e' ∨ c = 'E' then
      let (negative, body) := sign tail
      match digitRow body with
      | ([], _) => (0, t)
      | (ds, rest) => (if negative then -(ofDigits ds : Int) else ofDigits ds, rest)
    else (0, t)
  | [] => (0, [])

/-- The fraction digits of a numeral and the rest. -/
def fraction : Text → List Nat × Text
  | .char '.' :: t => digitRow t
  | t => ([], t)

/-- Reads a numeral as a double. -/
def double? (t : Text) : Option Double :=
  let (negative, body) := sign (trimBy isNumeralBlank t)
  let word := body.map CodePoint.toLower
  if word = "inf" ∨ word = "infinity" then some (.infinite negative)
  else if word = "nan" then some .nan
  else
    let (whole, rest) := digitRow body
    let (places, rest) := fraction rest
    let (power, rest) := exponent rest
    if (whole.isEmpty && places.isEmpty) || !rest.isEmpty then none
    else some (Decimal.toDouble negative ⟨ofDigits (whole ++ places), power - places.length⟩)

/-- Reads a finite number: an integer if the text is an integer numeral, otherwise a double. -/
def number? (t : Text) : Option Number :=
  match integer? t with
  | some n => some (.int n)
  | none => (double? t).bind fun d => if d.isFinite then some (.double d) else none

example : number? " 1_000 " = some (.int 1000) ∧ number? "1__0" = none := by decide +kernel
example : number? "12px" = none ∧ number? "-inf" = none := by decide +kernel

end FluidCss.Numeral
