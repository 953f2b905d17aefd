import FluidCss.Config.Value
import FluidCss.Error
import FluidCss.Number.Numeral

/-!
# Plain scalars in YAML

A scalar without quotes is null, a flag, a number, a date or a text, as its spelling tells. A number
may hold underscores anywhere after its first digit. Integers are decimal, or marked as binary,
octal or hexadecimal, or count in sixties; a fraction needs its point and may count in sixties
before it. A date with a time of day is not told from a text. -/

namespace FluidCss.Config.Yaml

/-- A spelling of the null value. -/
def isNullText (t : Text) : Bool := t ∈ (["", "~", "null", "Null", "NULL"] : List Text)

/-- A spelling of the flag that is set. -/
def isTrueText (t : Text) : Bool :=
  t ∈ (["true", "True", "TRUE", "yes", "Yes", "YES", "on", "On", "ON"] : List Text)

/-- A spelling of the flag that is not set. -/
def isFalseText (t : Text) : Bool :=
  t ∈ (["false", "False", "FALSE", "no", "No", "NO", "off", "Off", "OFF"] : List Text)

/-- A digit or an underscore. -/
def isDigitOrMark (p : CodePoint) : Bool := p.isDigit || p == '_'

/-- A text without its underscores. -/
def withoutMarks (t : Text) : Text := t.filter (· != .char '_')

/-! ## Integers -/

/-- The number that digits write in a base. -/
def ofBase (base : Nat) (t : Text) : Nat :=
  t.foldl (fun n p => base * n + (Text.digitValue? p).getD (p.toLower.number - 0x61 + 10)) 0

/-- The digits after a mark of a base: some, each below the base, or underscores. -/
def basedMagnitude? (base : Nat) (t : Text) : Option Nat :=
  let isDigit (p : CodePoint) : Bool :=
    if p.isDigit then p.number - 0x30 < base else base == 16 && 0x61 ≤ p.toLower.number &&
      p.toLower.number ≤ 0x66
  let digits := withoutMarks t
  if !digits.isEmpty && digits.all isDigit then some (ofBase base digits) else none

/-- The parts of a text between colons. -/
def splitColons : Text → List Text
  | [] => [[]]
  | p :: t =>
    match splitColons t with
    | part :: parts => if p = ':' then [] :: part :: parts else (p :: part) :: parts
    | [] => [[p]]

/-- A part after the first in a number that counts in sixties. -/
def isSixtieth : Text → Bool
  | [p] => p.isDigit
  | [p, q] => p.isDigit && p.number < 0x36 && q.isDigit
  | _ => false

/-- The number that parts write in sixties, the greatest first. -/
def ofSixties (parts : List Nat) : Nat := parts.foldl (fun n d => 60 * n + d) 0

/-- A decimal number with at most as many digits as are read. -/
def decimal (t : Text) : Except Error Nat :=
  let digits := withoutMarks t
  if Numeral.integerDigitLimit < digits.length then .error (.integerTooLong digits.length)
  else .ok (ofBase 10 digits)

/-- The number that an integer without a sign writes, if it is one. -/
def magnitude? (t : Text) : Option (Except Error Nat) :=
  match t with
  | [] => none
  | .char '0' :: tail =>
    match tail with
    | [] => some (.ok 0)
    | .char 'b' :: digits => (basedMagnitude? 2 digits).map .ok
    | .char 'x' :: digits => (basedMagnitude? 16 digits).map .ok
    | _ => if (withoutMarks tail).isEmpty then some (.ok 0) else (basedMagnitude? 8 tail).map .ok
  | p :: tail =>
    if !p.isDigit then none
    else if tail.all isDigitOrMark then some (decimal t)
    else
      match splitColons t with
      | first :: rest =>
        if first.all isDigitOrMark && rest.all isSixtieth then
          some (do return ofSixties ((← decimal first) :: rest.map (ofBase 10)))
        else none
      | [] => none

/-- The integer that a plain scalar writes, if it is one. -/
def integer? (t : Text) : Option (Except Error Int) :=
  let (negative, body) := Numeral.sign t
  (magnitude? body).map fun n => n.map fun n => if negative then -(n : Int) else n

/-! ## Fractions -/

/-- An exponent, which has a sign, or nothing. -/
def isExponentText : Text → Bool
  | [] => true
  | e :: s :: digits =>
    (e == 'e' || e == 'E') && (s == '+' || s == '-') && !digits.isEmpty &&
      digits.all CodePoint.isDigit
  | [_] => false

/-- Digits with a point. Without digits before the point there is no sign and a digit follows. -/
def isDecimalText (t : Text) : Bool :=
  match t with
  | .char '.' :: p :: tail => p.isDigit && isExponentText (tail.dropWhile isDigitOrMark)
  | _ =>
    let (_, body) := Numeral.sign t
    match body, body.dropWhile isDigitOrMark with
    | p :: _, .char '.' :: tail => p.isDigit && isExponentText (tail.dropWhile isDigitOrMark)
    | _, _ => false

/-- The fraction that a plain scalar writes, if it is one. -/
def fraction? (t : Text) : Option Double :=
  let (negative, body) := Numeral.sign t
  if isDecimalText t then Numeral.double? (withoutMarks t)
  else if body ∈ ([".inf", ".Inf", ".INF"] : List Text) then some (.infinite negative)
  else if t ∈ ([".nan", ".NaN", ".NAN"] : List Text) then some .nan
  else none

/-- Parts that count in sixties, the least of which has a point. -/
def isSixtiesFraction (parts : List Text) : Bool :=
  match parts.reverse with
  | least :: middle =>
    match middle.reverse, least.span (· != .char '.') with
    | first :: others, (whole, .char '.' :: places) =>
      first.head?.any CodePoint.isDigit && first.all isDigitOrMark &&
        (others ++ [whole]).all isSixtieth && places.all isDigitOrMark
    | _, _ => false
  | [] => false

/-- Adds up parts that count in sixties, the least first, where the first is of worth `base`. -/
def addSixties (sum : Number) (base : Int) : List Double → Except ArithmeticError Number
  | [] => .ok sum
  | d :: ds => do addSixties (← sum.add (← Number.mul (.double d) (.int base))) (60 * base) ds

/-- The fraction that a plain scalar writes in sixties, if it is one. -/
def sixtiesFraction? (t : Text) : Option (Except Error Number) :=
  let (negative, body) := Numeral.sign t
  let parts := splitColons body
  if isSixtiesFraction parts then
    let worths := parts.reverse.filterMap fun part => Numeral.double? (withoutMarks part)
    some (Error.ofArithmetic (do
      let sum ← addSixties (.double .zero) 1 worths
      return if negative then sum.neg else sum))
  else none

/-! ## Dates -/

/-- The days of a month, in the calendar that is carried back before its time. -/
def daysOfMonth (year month : Nat) : Nat :=
  if month = 2 then
    if year % 4 = 0 ∧ (year % 100 ≠ 0 ∨ year % 400 = 0) then 29 else 28
  else if month ∈ [4, 6, 9, 11] then 30
  else 31

/-- A date that is there, as a value. -/
def dateValue (year month day : Nat) (text : Text) : Except Error Value :=
  if year = 0 then .error (.foreign "ValueError" "year 0 is out of range")
  else if month = 0 ∨ 12 < month then .error (.foreign "ValueError" "month must be in 1..12")
  else if day = 0 ∨ daysOfMonth year month < day then
    .error (.foreign "ValueError" "day is out of range for month")
  else
    let shown : Text := "datetime.date(" ++ toString year ++ ", " ++ toString month ++ ", " ++
      toString day ++ ")"
    .ok (.foreign "date" shown text false)

/-- The date that a plain scalar writes, if it is one: a year, a month and a day, with four, two and
two digits. -/
def date? (t : Text) : Option (Except Error Value) :=
  match t with
  | [y₁, y₂, y₃, y₄, .char '-', m₁, m₂, .char '-', d₁, d₂] =>
    if [y₁, y₂, y₃, y₄, m₁, m₂, d₁, d₂].all CodePoint.isDigit then
      some (dateValue (ofBase 10 [y₁, y₂, y₃, y₄]) (ofBase 10 [m₁, m₂]) (ofBase 10 [d₁, d₂]) t)
    else none
  | _ => none

/-! ## Values -/

/-- The value of a plain scalar. -/
def plainValue (t : Text) : Except Error Value :=
  if isNullText t then .ok .null
  else if isTrueText t then .ok (.flag true)
  else if isFalseText t then .ok (.flag false)
  else
    match fraction? t, sixtiesFraction? t, integer? t with
    | some d, _, _ => .ok (.number (.double d))
    | none, some n, _ => do return .number (← n)
    | none, none, some n => do return .number (.int (← n))
    | none, none, none => (date? t).getD (.ok (.text t))

end FluidCss.Config.Yaml
