/-!
# Binary64 numbers

A finite double is a sign, a mantissa below `2 ^ 53` and a power of two, held in the one canonical
way that the format admits, so equal data are equal bit patterns and the two zeros stay apart. Its
exact value is a rational number. Every operation works out the exact result and rounds it once,
to the nearest double and on a tie to the even mantissa. Powers of natural numbers are written as
`Nat.pow`, which is the same term whatever is imported.
-/

namespace FluidCss

/-- The mantissas and exponents that the format has: 53 bits, all of them used unless the exponent
is already the least one. -/
def Double.Canonical (mantissa : Nat) (exponent : Int) : Prop :=
  mantissa < Nat.pow 2 53 ∧ -1074 ≤ exponent ∧ exponent ≤ 971 ∧
    (mantissa < Nat.pow 2 52 → exponent = -1074)

instance (mantissa : Nat) (exponent : Int) : Decidable (Double.Canonical mantissa exponent) :=
  inferInstanceAs (Decidable (_ ∧ _))

/-- A binary64 number. All the not-a-numbers are one. -/
inductive Double where
  | finite (negative : Bool) (mantissa : Nat) (exponent : Int)
      (canonical : Double.Canonical mantissa exponent)
  | infinite (negative : Bool)
  | nan
  deriving DecidableEq

namespace Double

/-! ## Values -/

/-- The exact value `± mantissa * 2 ^ exponent` of a finite double. -/
def value? : Double → Option Rat
  | finite negative m e _ => some ((if negative then -1 else 1) * (m : Rat) * (2 : Rat) ^ e)
  | infinite _ | nan => none

/-- The sign bit; the sign of a not-a-number is never seen. -/
def isNegative : Double → Bool
  | finite negative _ _ _ | infinite negative => negative
  | nan => false

/-- A double is neither infinite nor no number. -/
def isFinite : Double → Bool
  | finite .. => true
  | infinite _ | nan => false

def isNan (d : Double) : Bool := d == nan

/-- One of the two zeros. -/
def isZero : Double → Bool
  | finite _ m _ _ => m == 0
  | infinite _ | nan => false

/-! ## Rounding -/

/-- `n / d` rounded to a whole number, a tie going to the even one. -/
def roundHalfEven (n d : Nat) : Nat :=
  let q := n / d
  let r := n % d
  if 2 * r < d ∨ (2 * r = d ∧ q % 2 = 0) then q else q + 1

/-- The greatest `k` with `2 ^ k ≤ n / d`, for positive `n` and `d`. -/
def floorLog2 (n d : Nat) : Int :=
  let k : Int := (Nat.log2 n : Int) - Nat.log2 d
  if d * Nat.pow 2 k.toNat ≤ n * Nat.pow 2 (-k).toNat then k else k - 1

/-- The finite double of the given parts if the format has it, and otherwise infinity. -/
def ofParts (negative : Bool) (mantissa : Nat) (exponent : Int) : Double :=
  if h : Canonical mantissa exponent then finite negative mantissa exponent h
  else infinite negative

/-- The double nearest to `n / d`. Rounding up to `2 ^ 53` moves on to the next power of two, and
past the greatest power the answer is infinity. -/
def ofQuotient (negative : Bool) (n d : Nat) : Double :=
  if n = 0 then ofParts negative 0 (-1074)
  else
    let e := max (floorLog2 n d - 52) (-1074)
    let m := roundHalfEven (n * Nat.pow 2 (-e).toNat) (d * Nat.pow 2 e.toNat)
    if m = Nat.pow 2 53 then ofParts negative (Nat.pow 2 52) (e + 1) else ofParts negative m e

/-- The double nearest to a rational number; zero takes the sign `negative`. -/
def ofRat (negative : Bool) (q : Rat) : Double :=
  ofQuotient (if q.num = 0 then negative else decide (q.num < 0)) q.num.natAbs q.den

/-- The double nearest to an integer. -/
def ofInt (n : Int) : Double := ofRat false n

def zero : Double := ofInt 0

/-! ## Arithmetic -/

/-- The double with its sign changed. -/
def neg : Double → Double
  | finite negative m e h => finite (!negative) m e h
  | infinite negative => infinite (!negative)
  | nan => nan

/-- The sum. Two opposite numbers add up to the positive zero. -/
def add (a b : Double) : Double :=
  match a, b with
  | nan, _ | _, nan => nan
  | infinite s, infinite t => if s = t then infinite s else nan
  | infinite s, finite .. | finite .., infinite s => infinite s
  | finite s .., finite t .. =>
    match a.value?, b.value? with
    | some x, some y => ofRat (s && t) (x + y)
    | _, _ => nan

/-- The rounded difference. -/
def sub (a b : Double) : Double := a.add b.neg

def mul (a b : Double) : Double :=
  let sign := a.isNegative != b.isNegative
  match a.value?, b.value? with
  | some x, some y => ofRat sign (x * y)
  | _, _ => if a.isNan || b.isNan || a.isZero || b.isZero then nan else infinite sign

def div (a b : Double) : Double :=
  let sign := a.isNegative != b.isNegative
  match a.value?, b.value? with
  | some x, some y => ofRat sign (x / y)
  | some _, none => if b.isNan then nan else ofRat sign 0
  | none, some _ => if a.isNan then nan else infinite sign
  | none, none => nan

end Double

end FluidCss
