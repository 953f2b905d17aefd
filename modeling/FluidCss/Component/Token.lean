import FluidCss.Component.Fault
import FluidCss.Component.Name

/-!
# Tokens of style sheet text

The text is a row of tokens, each at its offset. A token is a leaf, which has a value of its own, a
bracket, the name and bracket that open a function call, or a fault.
-/

namespace FluidCss

inductive Bracket where
  | round
  | square
  | curly
  deriving DecidableEq

def Bracket.openChar : Bracket → Char
  | round => '('
  | square => '['
  | curly => '{'

def Bracket.closeChar : Bracket → Char
  | round => ')'
  | square => ']'
  | curly => '}'

/-- A token that holds nothing else. -/
inductive Leaf where
  | space
  /-- The text between the marks; the end of the sheet may take the place of the closing mark. -/
  | comment (text : Text) (closed : Bool)
  | ident (name : Text)
  | atKeyword (name : Text)
  /-- A name after a hash sign, which may or may not be an identifier. -/
  | hash (name : Text) (isIdent : Bool)
  | string (text : Text)
  | url (text : Text)
  | unicodeRange (first last : Nat)
  | number (text : Text)
  | percentage (text : Text)
  | dimension (text unit : Text)
  | literal (text : Text)
  deriving DecidableEq

/-- What is read at one place of a text. -/
inductive Token where
  | leaf (leaf : Leaf)
  /-- A leaf that the end of the text cuts off. -/
  | cut (leaf : Leaf) (fault : Fault)
  | fault (fault : Fault)
  | function (name : Text)
  | opener (bracket : Bracket)
  | closer (bracket : Bracket)
  deriving DecidableEq

/-- A token with its offset. -/
structure Lexeme where
  start : Nat
  token : Token
  deriving DecidableEq

namespace Leaf

/-- A leaf that separates others and has no value. -/
def isBlank : Leaf → Bool
  | space | comment .. => true
  | _ => false

/-- The number that a leaf begins with, as it is written. -/
def numeral? : Leaf → Option Text
  | number text | percentage text | dimension text _ => some text
  | _ => none

/-- A code point in an address without quotes. -/
def writeUrlPart (p : CodePoint) : Text :=
  if p = '\'' ∨ p = '"' ∨ p = '\\' ∨ p = ' ' ∨ p = '(' ∨ p = ')' then ['\\', p]
  else if p = '\t' then "\\9 "
  else if p = '\n' ∨ p = '\r' ∨ p = '\x0c' then Name.escaped p
  else [p]

/-- A code point in a string between double quotes. -/
def writeStringPart (p : CodePoint) : Text :=
  if p = '"' ∨ p = '\\' then ['\\', p]
  else if p = '\n' ∨ p = '\r' ∨ p = '\x0c' then Name.escaped p
  else [p]

/-- The unit of a dimension, kept apart from the exponent of a number. -/
def writeUnit : Text → Text
  | p :: t =>
    if (p = 'e' ∨ p = 'E') ∧ (t = [] ∨ t.head? = some (.char '-')) then
      "\\65 " ++ Name.writePart t
    else Name.writeIdent (p :: t)
  | [] => []

/-- Upper-case hexadecimal digits. -/
def writeHex (n : Nat) : Text := .ofChars ((Nat.toDigits 16 n).map Char.toUpper)

/-- The text that writes a leaf in a style sheet. -/
def written : Leaf → Text
  | space => " "
  | comment text _ => "/*" ++ text ++ "*/"
  | ident name => Name.writeIdent name
  | atKeyword name => "@" ++ Name.writeIdent name
  | hash name isIdent => "#" ++ (if isIdent then Name.writeIdent name else Name.writePart name)
  | string text => "\"" ++ text.flatMap writeStringPart ++ "\""
  | url text => "url(" ++ text.flatMap writeUrlPart ++ ")"
  | unicodeRange first last =>
    "U+" ++ writeHex first ++ (if first = last then [] else "-" ++ writeHex last : Text)
  | number text => text
  | percentage text => text ++ "%"
  | dimension text unit => text ++ writeUnit unit
  | literal text => text

end Leaf

end FluidCss
