import FluidCss.Number.Double
import FluidCss.Text.Basic

/-!
# The shortest decimal of a double

A double is written with the fewest digits that still read back as the same double, and among the
decimals of that many digits as the nearest one. For a given number of digits only the two decimals
on either side of the exact value can be nearest, so those two are tried for 1, 2, … 17 digits.
-/

namespace FluidCss

/-- The positive decimal `coefficient * 10 ^ exponent`. -/
structure Decimal where
  coefficient : Nat
  exponent : Int
  deriving DecidableEq

namespace Decimal

/-- The double nearest to a decimal. Far outside the range of the format the answer is known
without working out the power of ten. -/
def toDouble (negative : Bool) (d : Decimal) : Double :=
  let size : Int := (Nat.toDigits 10 d.coefficient).length + d.exponent
  if d.coefficient = 0 ∨ size < -400 then .ofQuotient negative 0 1
  else if 400 < size then .infinite negative
  else
    .ofQuotient negative (d.coefficient * Nat.pow 10 d.exponent.toNat)
      (Nat.pow 10 (-d.exponent).toNat)

/-- The greatest `k` with `10 ^ k ≤ n / d`, for positive `n` and `d`. -/
def floorLog10 (n d : Nat) : Int :=
  let k : Int := (Nat.toDigits 10 n).length - (Nat.toDigits 10 d).length
  if d * Nat.pow 10 k.toNat ≤ n * Nat.pow 10 (-k).toNat then k else k - 1

/-- The nearest decimal to `n / d` with `digits` digits among those that read back as `x`, if there
is one. An exact tie goes to the even coefficient. -/
def nearest? (x : Double) (n d : Nat) (digits : Nat) : Option Decimal :=
  let e := floorLog10 n d - digits + 1
  let n := n * Nat.pow 10 (-e).toNat
  let d := d * Nat.pow 10 e.toNat
  let below : Decimal := ⟨n / d, e⟩
  let above : Decimal := ⟨n / d + 1, e⟩
  let r := n % d
  if r = 0 then (if below.toDouble false = x then some below else none)
  else
    match decide (below.toDouble false = x), decide (above.toDouble false = x) with
    | true, true =>
      if 2 * r < d ∨ (2 * r = d ∧ below.coefficient % 2 = 0) then some below else some above
    | true, false => some below
    | false, true => some above
    | false, false => none

/-- The shortest decimal of the positive double `x`, whose exact value is `q`. -/
def shortest (x : Double) (q : Rat) : Decimal :=
  ((List.range 17).findSome? fun i => nearest? x q.num.natAbs q.den (i + 1)).getD ⟨0, 0⟩

/-! ## Layout -/

/-- How a decimal is laid out: positional while the exponent of its first digit lies between two
bounds, and otherwise as one digit before the point and an exponent with a sign. -/
structure Layout where
  leastPositional : Int
  mostPositional : Int
  /-- The least number of digits in a written exponent. -/
  exponentDigits : Nat

/-- `n` with zeros in front up to `width` digits. -/
def padded (width n : Nat) : List Char :=
  let digits := Nat.toDigits 10 n
  List.replicate (width - digits.length) '0' ++ digits

/-- A whole number is written with `.0` in positional form. -/
def write (layout : Layout) (d : Decimal) : List Char :=
  let digits := ((Nat.toDigits 10 d.coefficient).reverse.dropWhile (· == '0')).reverse
  let lead : Int := (Nat.toDigits 10 d.coefficient).length + d.exponent - 1
  if layout.leastPositional ≤ lead ∧ lead ≤ layout.mostPositional then
    if lead < 0 then '0' :: '.' :: List.replicate (-lead - 1).toNat '0' ++ digits
    else
      let places := lead.toNat + 1
      if digits.length ≤ places then
        digits ++ List.replicate (places - digits.length) '0' ++ ['.', '0']
      else digits.take places ++ '.' :: digits.drop places
  else
    let mantissa := if digits.length ≤ 1 then digits else digits.take 1 ++ '.' :: digits.drop 1
    mantissa ++ 'e' :: (if lead < 0 then '-' else '+') ::
      padded layout.exponentDigits lead.natAbs

end Decimal

/-- Doubles are positional from `0.0001` to below `10 ^ 16`, with exponents of two digits or more
beyond. -/
def Double.layout : Decimal.Layout := ⟨-4, 15, 2⟩

/-- The text of a double. -/
def Double.text (x : Double) : Text :=
  match x.value? with
  | some q =>
    let sign := if x.isNegative then ['-'] else []
    if q = 0 then .ofChars (sign ++ ['0', '.', '0'])
    else
      let magnitude := if x.isNegative then x.neg else x
      .ofChars (sign ++ (Decimal.shortest magnitude q).write Double.layout)
  | none => if x.isNan then "nan" else if x.isNegative then "-inf" else "inf"

end FluidCss
