import FluidCss.Text.Basic

/-!
# Names and escapes

Names are made of letters, digits, hyphens, underscores and code points beyond ASCII; any other
code point can be brought in by an escape. A scanner works on the text that is left and says what
it read and how many code points it took. Its argument `skip` counts the code points at the front
that an escape has already taken.
-/

namespace FluidCss.Name

/-- A code point that can begin a name. -/
def isStart (p : CodePoint) : Bool := p.isLetter || p == '_' || 0x7F < p.number

/-- A code point that can stand in a name. -/
def isPart (p : CodePoint) : Bool := isStart p || p.isDigit || p == '-'

/-- The value of a hexadecimal digit. -/
def hexDigit? (p : CodePoint) : Option Nat :=
  let n := p.number
  if p.isDigit then some (n - 0x30)
  else if 0x61 ≤ n && n ≤ 0x66 then some (n - 0x61 + 10)
  else if 0x41 ≤ n && n ≤ 0x46 then some (n - 0x41 + 10)
  else none

def isHex (p : CodePoint) : Bool := (hexDigit? p).isSome

/-- The spaces of style sheet text. -/
def isSpace (p : CodePoint) : Bool := p == ' ' || p == '\n' || p == '\t'

/-- The number written by hexadecimal digits. -/
def hexValue (t : Text) : Nat := t.foldl (fun n p => 16 * n + (hexDigit? p).getD 0) 0

/-! ## Escapes -/

/-- Stands for a code point that cannot be given. -/
def replacement : CodePoint := '\uFFFD'

/-- The code point that an escape with a number gives; zero and what is no code point give the
replacement. -/
def escapedNumber (n : Nat) : CodePoint :=
  if n = 0 then replacement else (CodePoint.ofNumber? n).getD replacement

/-- A backslash escapes what follows it, the end of the text included, unless that is a line
end. -/
def startsEscape : Text → Bool
  | .char '\\' :: .char '\n' :: _ => false
  | .char '\\' :: _ => true
  | _ => false

/-- Reads what follows the backslash of an escape: up to six hexadecimal digits with one space
after them, or any code point. -/
def escape (t : Text) : CodePoint × Nat :=
  match (t.take 6).takeWhile isHex with
  | [] =>
    match t with
    | [] => (replacement, 0)
    | p :: _ => (p, 1)
  | digits =>
    let space := match t.drop digits.length with
      | p :: _ => if isSpace p then 1 else 0
      | [] => 0
    (escapedNumber (hexValue digits), digits.length + space)

/-! ## Reading -/

/-- A name that is an identifier begins here. -/
def startsIdent : Text → Bool
  | [] => false
  | p :: t =>
    if isStart p then true
    else if p = '-' then
      startsEscape t || (match t with | q :: _ => isStart q || q == '-' | [] => false)
    else startsEscape (p :: t)

/-- Reads a name as far as it goes. -/
def read (skip : Nat) : Text → Text × Nat
  | [] => ([], 0)
  | p :: t =>
    match skip with
    | skip + 1 =>
      let (name, n) := read skip t
      (name, n + 1)
    | 0 =>
      if isPart p then
        let (name, n) := read 0 t
        (p :: name, n + 1)
      else if startsEscape (p :: t) then
        let (e, k) := escape t
        let (name, n) := read k t
        (e :: name, n + 1)
      else ([], 0)

/-! ## Writing -/

/-- A code point that is not part of a name, escaped. -/
def escaped (p : CodePoint) : Text :=
  if p = '\n' then "\\A "
  else if p = '\r' then "\\D "
  else if p = '\x0c' then "\\C "
  else ['\\', p]

/-- The rest of a name. -/
def writePart (name : Text) : Text := name.flatMap fun p => if isPart p then [p] else escaped p

/-- The first code point of an identifier, where digits too are escaped. -/
def writeStart (p : CodePoint) : Text :=
  if isStart p then [p] else if p.isDigit then ['\\', '3', p, ' '] else escaped p

/-- A name as an identifier. -/
def writeIdent : Text → Text
  | [] => []
  | [.char '-'] => "\\-"
  | .char '-' :: .char '-' :: name => "--" ++ writePart name
  | .char '-' :: p :: name => "-" ++ writeStart p ++ writePart name
  | p :: name => writeStart p ++ writePart name

end FluidCss.Name
