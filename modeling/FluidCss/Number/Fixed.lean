import FluidCss.Text.Basic

/-!
# Decimals with four places

Lengths are printed with at most four decimal places. A value is rounded to a whole number of
ten-thousandths, a half going away from zero, and there is one zero, without a sign.
-/

namespace FluidCss

/-- A whole number of ten-thousandths, or the absence of a number. -/
inductive Fixed where
  | ticks (n : Int)
  | nan
  deriving DecidableEq

namespace Fixed

def unit : Nat := 10000

/-- `n / d` rounded to a whole number, a half going up. -/
def roundHalfUp (n d : Nat) : Nat := (2 * n + d) / (2 * d)

/-- The nearest number of ticks, a half going away from zero. -/
def ofRat (q : Rat) : Fixed :=
  let magnitude : Int := roundHalfUp (q.num.natAbs * unit) q.den
  .ticks (if q.num < 0 then -magnitude else magnitude)

/-- The number of ticks below one, written with four digits. -/
def fractionDigits (n : Nat) : List Char :=
  let f := n % unit
  [f / 1000 % 10, f / 100 % 10, f / 10 % 10, f % 10].map Nat.digitChar

/-- The mark of a negative number. -/
def signChars (n : Int) : List Char := if n < 0 then ['-'] else []

/-- All four places are written. -/
def text : Fixed → Text
  | .ticks n =>
    .ofChars (signChars n ++ Nat.toDigits 10 (n.natAbs / unit) ++ '.' ::
      fractionDigits n.natAbs)
  | .nan => "NaN"

/-- Zeros at the end of the fraction are left out, and so is a point that nothing follows. -/
def shortText : Fixed → Text
  | .ticks n =>
    let fraction := ((fractionDigits n.natAbs).reverse.dropWhile (· == '0')).reverse
    let point := if fraction.isEmpty then [] else ['.']
    .ofChars (signChars n ++ Nat.toDigits 10 (n.natAbs / unit) ++ point ++ fraction)
  | .nan => "NaN"

example : (ofRat (5 / 100000)).text = "0.0001" := by decide +kernel
example : (ofRat (-5 / 4)).shortText = "-1.25" ∧ (ofRat 20).shortText = "20" := by decide +kernel

end Fixed

end FluidCss
