import FluidCss.Component.Scan
import FluidCss.Error

/-!
# Component values

Brackets and function calls hold the tokens up to their closing bracket, so that a text becomes a
list of trees. What the end of the text leaves open is closed there. A closing bracket that does
not fit the innermost open one is a fault and closes nothing. The one thing that a text may not
hold at all is an integer with too many digits.
-/

namespace FluidCss

/-- A leaf, a fault, or what stands between brackets. The offset of the own closing bracket is kept
if there is one. -/
inductive Component where
  | leaf (start : Nat) (leaf : Leaf)
  | fault (start : Nat) (fault : Fault)
  | function (start : Nat) (name : Text) (content : List Component) (close : Option Nat)
  | block (start : Nat) (bracket : Bracket) (content : List Component) (close : Option Nat)

namespace Component

def start : Component → Nat
  | leaf start _ | fault start _ | function start _ _ _ | block start _ _ _ => start

def isSpace : Component → Bool
  | leaf _ .space => true
  | _ => false

/-- A space or a comment. -/
def isBlank : Component → Bool
  | leaf _ l => l.isBlank
  | _ => false

/-- What remains to be read at one level of nesting, and the bracket that ends it. -/
structure Level where
  content : List Component
  close : Option Nat

/-- Puts a component in front of a level. -/
def Level.push (c : Component) (level : Level) : Level :=
  { level with content := c :: level.content }

/-- The level that ends with the text. -/
def Level.last : Level := ⟨[], none⟩

/-- Nests tokens, given the brackets that are open around them, the innermost first. The first
result is the rest of the innermost level, the others are what follows in each level around it. -/
def nest (stack : List Bracket) : List Lexeme → Level × List Level
  | [] => (.last, stack.map fun _ => .last)
  | ⟨start, token⟩ :: tail =>
    match token with
    | .leaf l =>
      let (here, outer) := nest stack tail
      (here.push (leaf start l), outer)
    | .cut l f =>
      let (here, outer) := nest stack tail
      ((here.push (fault start f)).push (leaf start l), outer)
    | .fault f =>
      let (here, outer) := nest stack tail
      (here.push (fault start f), outer)
    | .function name =>
      match nest (.round :: stack) tail with
      | (inside, here :: outer) =>
        (here.push (function start name inside.content inside.close), outer)
      | (inside, []) => (inside, [])
    | .opener bracket =>
      match nest (bracket :: stack) tail with
      | (inside, here :: outer) =>
        (here.push (block start bracket inside.content inside.close), outer)
      | (inside, []) => (inside, [])
    | .closer bracket =>
      if stack.head? = some bracket then
        let (here, outer) := nest stack.tail tail
        (⟨[], some start⟩, here :: outer)
      else
        let (here, outer) := nest stack tail
        (here.push (fault start (.unmatched bracket.closeChar)), outer)

/-- The trees that tokens make up. -/
def ofLexemes (lexemes : List Lexeme) : List Component := (nest [] lexemes).1.content

/-- The number of digits of an integer; a numeral with a point or an exponent is none. -/
def integerDigits? (numeral : Text) : Option Nat :=
  let body := (Numeral.sign numeral).2
  if body.all CodePoint.isDigit then some body.length else none

/-- The number of digits of a token that begins with an integer that is too long. -/
def overlong? (lexeme : Lexeme) : Option Nat :=
  match lexeme.token with
  | .leaf l => (l.numeral?.bind integerDigits?).filter (Numeral.integerDigitLimit < ·)
  | _ => none

/-- The component values of a text whose line ends are line feeds. The first integer that is too
long is reported. -/
def ofText (t : Text) : Except Error (List Component) :=
  let lexemes := Lexeme.scan 0 0 t
  match lexemes.findSome? overlong? with
  | some digits => .error (.integerTooLong digits)
  | none => .ok (ofLexemes lexemes)

end Component

end FluidCss
