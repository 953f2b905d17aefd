import FluidCss.Component.Basic

/-!
# The symbols of directive parameters

The parameters of a directive are read as component values and laid out flat: brackets become
symbols of their own, blanks disappear. A symbol that a space precedes is marked; the last space of
a bracket precedes none.
-/

namespace FluidCss.Param

inductive Symbol.Kind where
  | word
  | string
  | function
  | divider
  | punctuation
  deriving DecidableEq

/-- One symbol; the text of a string is without its quotes. -/
structure Symbol where
  kind : Symbol.Kind
  text : Text
  spaced : Bool
  deriving DecidableEq

namespace Symbol

/-- A symbol is the given punctuation. -/
def isPunctuation (s : Symbol) (text : Text) : Bool := s.kind == .punctuation && s.text == text

def isOpener (s : Symbol) : Bool :=
  s.isPunctuation "(" || s.isPunctuation "[" || s.isPunctuation "\x7b"

def isCloser (s : Symbol) : Bool :=
  s.isPunctuation ")" || s.isPunctuation "]" || s.isPunctuation "\x7d"

/-- The marks that only divide what stands around them. -/
def isDividerText (text : Text) : Bool := text == "," || text == ":" || text == "/"

def bracket (c : Char) (spaced : Bool) : Symbol := ⟨.punctuation, [.char c], spaced⟩

/-- A leaf that is no blank as a symbol. -/
def ofLeaf (spaced : Bool) : Leaf → Symbol
  | .string text => ⟨.string, text, spaced⟩
  | .ident name => ⟨.word, name, spaced⟩
  | .literal text => ⟨if isDividerText text then .divider else .punctuation, text, spaced⟩
  | leaf => ⟨.word, leaf.written, spaced⟩

mutual

/-- The symbols of one component; `spaced` says whether a space precedes it. -/
def ofComponent (spaced : Bool) : Component → Except Error (List Symbol)
  | .leaf _ leaf => .ok [ofLeaf spaced leaf]
  | .fault _ fault => .error (.malformedParams fault)
  | .function _ name content _ => do
    let inner ← ofComponents false content
    return ⟨.function, name, spaced⟩ :: inner ++ [bracket Bracket.round.closeChar false]
  | .block _ b content _ => do
    let inner ← ofComponents false content
    return bracket b.openChar spaced :: inner ++ [bracket b.closeChar false]

/-- The symbols of components in a row. A comment neither makes nor unmakes a space. -/
def ofComponents (spaced : Bool) : List Component → Except Error (List Symbol)
  | [] => .ok []
  | c :: cs =>
    if c.isSpace then ofComponents true cs
    else if c.isBlank then ofComponents spaced cs
    else do
      let first ← ofComponent spaced c
      let others ← ofComponents false cs
      return first ++ others

end

def ofText (text : Text) : Except Error (List Symbol) := do
  ofComponents false (← Component.ofText (normalize text))

end Symbol

end FluidCss.Param
