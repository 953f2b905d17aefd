import FluidCss.Text.Basic

/-!
# Places in YAML text

Columns decide how blocks nest, so a place keeps the column beside what is left of the text. The
next line and the two separators of Unicode end lines like the line feed. A byte order mark has no
width, and the document marks count at the start of a line only.
-/

namespace FluidCss.Config.Yaml

/-- A code point that ends a line. -/
def isBreak (p : CodePoint) : Bool :=
  p == '\n' || p == '\r' || p == '\x85' || p == '\u2028' || p == '\u2029'

/-- A space or a tab. -/
def isSpace (p : CodePoint) : Bool := p == ' ' || p == '\t'

/-- What a line end stands for in a scalar: the separators stay what they are. -/
def breakText (p : CodePoint) : CodePoint := if p = '\u2028' ∨ p = '\u2029' then p else '\n'

/-- A blank, a line end or the end of the text comes next. -/
def atGap : Text → Bool
  | [] => true
  | p :: _ => isSpace p || isBreak p

/-- One of the marks that begin and end a document, at the start of a line. -/
def atMark (mark t : Text) : Bool := mark.isPrefixOf t && atGap (t.drop mark.length)

/-- A line that begins or ends a document. -/
def atDocumentMark (t : Text) : Bool := atMark "---" t || atMark "..." t

/-- What is left of a text, and where. -/
structure Cursor where
  rest : Text
  offset : Nat
  line : Nat
  column : Nat
  deriving DecidableEq

namespace Cursor

/-- The start of a text. A byte order mark is passed over there. -/
def start (t : Text) : Cursor :=
  match t with
  | .char '\uFEFF' :: t => ⟨t, 1, 0, 0⟩
  | t => ⟨t, 0, 0, 0⟩

/-- Moves on by one code point. -/
def next (c : Cursor) : Cursor :=
  match c.rest with
  | [] => c
  | p :: t =>
    if isBreak p then ⟨t, c.offset + 1, c.line + 1, 0⟩
    else ⟨t, c.offset + 1, c.line, if p = '\uFEFF' then c.column else c.column + 1⟩

def advance (c : Cursor) : Nat → Cursor
  | 0 => c
  | n + 1 => c.next.advance n

end Cursor

/-! ## Blanks -/

/-- The length of the spaces, line ends and comments at the start of a text, and whether a line
ends in them. -/
def blankLength (comment : Bool) : Text → Nat × Bool
  | [] => (0, false)
  | p :: t =>
    if isBreak p then ((blankLength false t).1 + 1, true)
    else if comment || p == ' ' || p == '#' then
      let (n, broken) := blankLength (comment || p == '#') t
      (n + 1, broken)
    else (0, false)

/-- The line ends at the start of a text with the blanks around them: what they stand for, their
length, and whether a document mark stands at the start of one of the lines. `fresh` says whether a
line begins here. -/
def lineEnds (isBlank : CodePoint → Bool) (fresh : Bool) : Text → Text × Nat × Bool
  | [] => ([], 0, false)
  | p :: t =>
    if fresh && atDocumentMark (p :: t) then ([], 0, true)
    else if isBreak p then
      let (breaks, n, marked) := lineEnds isBlank true t
      (breakText p :: breaks, n + 1, marked)
    else if isBlank p then
      let (breaks, n, marked) := lineEnds isBlank false t
      (breaks, n + 1, marked)
    else ([], 0, false)

/-- What line ends stand for: a line feed is left out, and alone it is a space. -/
def folded : Text → Text
  | [] => []
  | p :: breaks =>
    if p ≠ '\n' then p :: breaks else if breaks.isEmpty then " " else breaks

end FluidCss.Config.Yaml
