import FluidCss.Component.Name
import FluidCss.Config.Yaml.Cursor

/-!
# Scalars in YAML text

A plain scalar ends before a mark, a comment or a line that is not indented enough. A quoted scalar
ends at its quote. In both, the line ends between two parts are folded together with the blanks
around them, and a document mark may not come between. A scanner says how many code points it took.
-/

namespace FluidCss.Config.Yaml

/-! ## Plain scalars -/

/-- A mark of the collections in brackets. -/
def isFlowMark (p : CodePoint) : Bool :=
  p == ',' || p == '[' || p == ']' || p == '\x7b' || p == '\x7d'

/-- A plain scalar can begin here. -/
def startsPlain (flow : Bool) : Text → Bool
  | [] => false
  | p :: t =>
    if p = '-' then !atGap t
    else if p = '?' ∨ p = ':' then !flow && !atGap t
    else !(atGap [p] || isFlowMark p || ("#&*!|>'\"%@\x60" : Text).contains p)

/-- The part of a plain scalar up to the next blank or mark. -/
def plainPart (flow : Bool) : Text → Text
  | [] => []
  | p :: t =>
    if isSpace p || isBreak p then []
    else if p = ':' ∧ (atGap t ∨ (flow ∧ t.head?.any isFlowMark)) then []
    else if flow ∧ (isFlowMark p ∨ p = '?') then []
    else p :: plainPart flow t

/-- The blanks between two parts of a plain scalar: what they stand for, their length, and whether
a line ends in them. They stand for nothing if no part can follow. -/
def plainGap (t : Text) : Text × Nat × Bool :=
  let spaces := t.takeWhile (· == .char ' ')
  match lineEnds (· == .char ' ') false (t.drop spaces.length) with
  | ([], _, _) => (spaces, spaces.length, false)
  | (breaks, n, marked) => (if marked then [] else folded breaks, spaces.length + n, true)

/-- Reads a plain scalar in blocks of column `indent`; the place after it is where the next line
begins if that is not part of it. The last result says whether the scalar ends with its line. -/
def plain (flow : Bool) (indent : Int) : Nat → Cursor → Text × Cursor × Bool
  | 0, c => ([], c, false)
  | bound + 1, c =>
    let part := plainPart flow c.rest
    let after := c.advance part.length
    let (gap, n, broken) := plainGap after.rest
    let next := after.advance n
    if gap.isEmpty || next.rest.head? == some (.char '#') || (!flow && next.column ≤ indent) ||
        (plainPart flow next.rest).isEmpty then
      (part, next, broken)
    else
      let (more, stop, ended) := plain flow indent bound next
      (part ++ gap ++ more, stop, ended)

/-! ## Quoted scalars -/

/-- What a letter after a backslash stands for. -/
def escapes : List (Char × Char) :=
  [('0', '\x00'), ('a', '\x07'), ('b', '\x08'), ('t', '\t'), ('\t', '\t'), ('n', '\n'),
    ('v', '\x0b'), ('f', '\x0c'), ('r', '\r'), ('e', '\x1b'), (' ', ' '), ('"', '"'),
    ('\\', '\\'), ('/', '/'), ('N', '\x85'), ('_', '\xa0'), ('L', '\u2028'), ('P', '\u2029')]

/-- The number of hexadecimal digits after a letter that asks for them. -/
def escapeDigits? (p : CodePoint) : Option Nat :=
  if p = 'x' then some 2 else if p = 'u' then some 4 else if p = 'U' then some 8 else none

/-- What follows a backslash in double quotes: the text that it stands for, and its length. A line
end after a backslash is left out, but not those after it. -/
def escape? : Text → Option (Text × Nat)
  | [] => none
  | p :: t =>
    match escapes.find? fun (letter, _) => p = letter, escapeDigits? p with
    | some (_, c), _ => some ([.char c], 1)
    | none, some width =>
      let digits := t.take width
      if digits.length = width ∧ digits.all Name.isHex then
        (CodePoint.ofNumber? (Name.hexValue digits)).map fun q => ([q], width + 1)
      else none
    | none, none =>
      if isBreak p then
        match lineEnds isSpace true t with
        | (breaks, n, false) => some (breaks, n + 1)
        | (_, _, true) => none
      else none

/-- The blanks between two parts of a quoted scalar: what they stand for, and their length. A
document mark may not be among them. -/
def quotedGap? (t : Text) : Option (Text × Nat) :=
  let spaces := t.takeWhile isSpace
  match lineEnds isSpace false (t.drop spaces.length) with
  | (_, _, true) => none
  | ([], _, false) => some (spaces, spaces.length)
  | (breaks, n, false) => some (folded breaks, spaces.length + n)

/-- Reads a quoted scalar after its opening quote, up to the closing one, with its length. -/
def quoted (quote : CodePoint) (skip : Nat) : Text → Option (Text × Nat)
  | [] => none
  | p :: t =>
    match skip with
    | skip + 1 => (quoted quote skip t).map fun (text, n) => (text, n + 1)
    | 0 =>
      let doubled := quote == '\'' && t.head? == some quote
      if p = quote ∧ !doubled then some ([], 1)
      else do
        let (here, taken) ←
          if p = quote then some ([quote], 2)
          else if quote = '"' ∧ p = '\\' then (escape? t).map fun (text, n) => (text, n + 1)
          else if isSpace p || isBreak p then quotedGap? (p :: t)
          else some ([p], 1)
        let (text, n) ← quoted quote (taken - 1) t
        return (here ++ text, n + 1)

end FluidCss.Config.Yaml
