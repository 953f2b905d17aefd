import FluidCss.Number.Fixed
import FluidCss.Number.Shortest

/-!
# Numbers

A size or a width is an integer of any magnitude or a double. Integers stay exact as long as only
integers meet; a quotient is always a double, and an integer that meets a double becomes the
nearest double first. Comparison is by exact value, whatever the two kinds.
-/

namespace FluidCss

/-- Why an operation on numbers has no result. -/
inductive ArithmeticError where
  /-- An integer or a quotient of integers lies beyond the doubles. -/
  | overflow
  | divisionByZero
  /-- An infinity cannot be rounded to decimal places. -/
  | invalidOperation
  deriving DecidableEq

/-- A whole number of any size or a double. -/
inductive Number where
  | int (n : Int)
  | double (d : Double)
  deriving DecidableEq

namespace Number

instance (n : Nat) : OfNat Number n := ⟨.int n⟩

/-! ## Texts -/

/-- An integer in decimal digits. -/
def intText (n : Int) : Text :=
  .ofChars ((if n < 0 then ['-'] else []) ++ Nat.toDigits 10 n.natAbs)

/-- A double keeps its `.0`. -/
def text : Number → Text
  | .int n => intText n
  | .double d => d.text

/-- A whole number is written without `.0`. -/
def plainText : Number → Text
  | .int n => intText n
  | .double d =>
    match d.value? with
    | some q => if q.den = 1 then intText q.num else d.text
    | none => d.text

/-! ## Order -/

/-- A point of the rational line with its two ends. -/
inductive Point where
  | bottom
  | inner (q : Rat)
  | top
  deriving DecidableEq

/-- Where a number lies; a not-a-number lies nowhere. -/
def point? : Number → Option Point
  | .int n => some (.inner n)
  | .double d =>
    match d.value? with
    | some q => some (.inner q)
    | none => if d.isNan then none else some (if d.isNegative then .bottom else .top)

/-- The order of the extended line. -/
def Point.lt : Point → Point → Bool
  | .bottom, .bottom | .top, _ | .inner _, .bottom => false
  | .bottom, _ | .inner _, .top => true
  | .inner p, .inner q => decide (p < q)

/-- The two numbers have the same value. -/
def same (a b : Number) : Bool :=
  match a.point?, b.point? with
  | some p, some q => p = q
  | _, _ => false

/-- The exact order of numbers; nothing is less than what is no number. -/
def lt (a b : Number) : Bool :=
  match a.point?, b.point? with
  | some p, some q => p.lt q
  | _, _ => false

/-- At least as large; false if one of the two is not a number. -/
def ge (a b : Number) : Bool := b.lt a || a.same b

/-! ## Arithmetic -/

/-- The double nearest to a number. -/
def toDouble : Number → Except ArithmeticError Double
  | .int n =>
    let d := Double.ofInt n
    if d.isFinite then .ok d else .error .overflow
  | .double d => .ok d

/-- Whether a number is finite. An integer beyond the doubles has no answer. -/
def isFinite (a : Number) : Except ArithmeticError Bool := a.toDouble.map Double.isFinite

def isNan : Number → Bool
  | .int _ => false
  | .double d => d.isNan

/-- The number with its sign changed. -/
def neg : Number → Number
  | .int n => .int (-n)
  | .double d => .double d.neg

/-- An operation that is exact on integers and rounded on doubles. -/
def combine (exact : Int → Int → Int) (rounded : Double → Double → Double) (a b : Number) :
    Except ArithmeticError Number :=
  match a, b with
  | .int m, .int n => .ok (.int (exact m n))
  | a, b => do return .double (rounded (← a.toDouble) (← b.toDouble))

def add : Number → Number → Except ArithmeticError Number := combine (· + ·) Double.add
def sub : Number → Number → Except ArithmeticError Number := combine (· - ·) Double.sub
def mul : Number → Number → Except ArithmeticError Number := combine (· * ·) Double.mul

/-- The quotient of two integers is the double nearest to their exact quotient. -/
def div (a b : Number) : Except ArithmeticError Number :=
  match a, b with
  | .int m, .int n =>
    if n = 0 then .error .divisionByZero
    else
      let d := Double.ofRat ((m < 0) != (n < 0)) (m / n)
      if d.isFinite then .ok (.double d) else .error .overflow
  | a, b => do
    let x ← a.toDouble
    let y ← b.toDouble
    if y.isZero then throw .divisionByZero
    return .double (x.div y)

/-- The exact value rounded to four places. -/
def roundFixed : Number → Except ArithmeticError Fixed
  | .int n => .ok (.ofRat n)
  | .double d =>
    match d.value? with
    | some q => .ok (.ofRat q)
    | none => if d.isNan then .ok .nan else .error .invalidOperation

end Number

end FluidCss
