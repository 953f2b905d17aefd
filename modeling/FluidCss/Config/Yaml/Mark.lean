import FluidCss.Config.Yaml.Spelling

/-!
# Marks of YAML text

The text is divided into scalars and marks. Blocks have no marks of their own: where the first entry
of a block stands further right than the block around it, a mark is put before it, and where a line
stands further left, marks close the blocks that it leaves.

A key is known by the colon after it. Where a key can begin, the place is kept as a candidate; a
colon on the same line and not too far behind makes the candidate a key. What is first on a line of
the innermost block has to become one.
-/

namespace FluidCss.Config.Yaml

/-- What YAML text is divided into. -/
inductive Mark where
  | scalar (text : Text) (isPlain : Bool)
  | sequenceBegin
  | mappingBegin
  | blockEnd
  /-- The dash before an entry of a block sequence. -/
  | entry
  | key
  | value
  | listOpen
  | listClose
  | mapOpen
  | mapClose
  | comma
  | documentBegin
  | documentEnd
  | textEnd
  deriving DecidableEq

/-- A place where a key may begin. -/
structure Candidate where
  /-- The number of marks before it. -/
  place : Nat
  /-- Whether it must become a key. -/
  required : Bool
  cursor : Cursor
  deriving DecidableEq

/-- A text of which a part is divided into marks. -/
structure Layout where
  cursor : Cursor
  /-- The marks so far, the latest first. -/
  marks : List Mark
  /-- The columns of the open blocks, the innermost first. -/
  indents : List Nat
  /-- Whether a key or a block can begin here. -/
  keyAllowed : Bool
  /-- The candidate among what stands directly in the block. -/
  candidate : Option Candidate
  /-- The candidates in the open brackets, the innermost first. -/
  brackets : List (Option Candidate)

namespace Layout

def start (t : Text) : Layout := ⟨.start t, [], [], true, none, []⟩

/-- The column of the innermost block, -1 outside all blocks. -/
def indent (s : Layout) : Int :=
  match s.indents with
  | column :: _ => column
  | [] => -1

/-- Brackets are open. -/
def inFlow (s : Layout) : Bool := !s.brackets.isEmpty

def emit (s : Layout) (m : Mark) : Layout := { s with marks := m :: s.marks }

/-- Adds a mark that takes some code points. -/
def emitOver (s : Layout) (m : Mark) (n : Nat) : Layout :=
  { s with marks := m :: s.marks, cursor := s.cursor.advance n }

/-- Adds a mark at an earlier place. -/
def insert (s : Layout) (place : Nat) (m : Mark) : Layout :=
  { s with marks := s.marks.insertIdx (s.marks.length - place) m }

/-! ## Blocks -/

/-- Closes the blocks that begin further right than a column. -/
def closeBlocks (column : Int) : List Nat → List Mark → List Nat × List Mark
  | [], marks => ([], marks)
  | c :: cs, marks =>
    if column < c then closeBlocks column cs (.blockEnd :: marks) else (c :: cs, marks)

/-- Closes the blocks that a line in a column leaves; brackets are not left that way. -/
def unwind (s : Layout) (column : Int) : Layout :=
  if s.inFlow then s
  else
    let (indents, marks) := closeBlocks column s.indents s.marks
    { s with indents := indents, marks := marks }

/-- Opens a block in a column if that is further right than the innermost block, its mark being put
at a place. -/
def open? (s : Layout) (m : Mark) (column place : Nat) : Layout :=
  if s.indent < column then { s.insert place m with indents := column :: s.indents } else s

/-! ## Keys -/

/-- The candidate in the innermost brackets, or in the block if no brackets are open. -/
def current (s : Layout) : Option Candidate :=
  match s.brackets with
  | here :: _ => here
  | [] => s.candidate

/-- Replaces the current candidate. -/
def setCurrent (s : Layout) (c : Option Candidate) : Layout :=
  match s.brackets with
  | _ :: outer => { s with brackets := c :: outer }
  | [] => { s with candidate := c }

/-- Gives up the current candidate, which must not be required. -/
def dropCandidate (s : Layout) : Option Layout :=
  if s.current.any Candidate.required then none else some (s.setCurrent none)

/-- Makes the next scalar or collection a candidate if a key is allowed. -/
def propose (s : Layout) : Option Layout :=
  if s.keyAllowed then do
    let required := !s.inFlow && s.indent == s.cursor.column
    return (← s.dropCandidate).setCurrent (some ⟨s.marks.length, required, s.cursor⟩)
  else some s

/-- How far behind its candidate a colon may stand. -/
def keyLimit : Nat := 1024

/-- A colon at a place cannot make the candidate a key any more. -/
def Candidate.isStale (c : Candidate) (place : Cursor) : Bool :=
  c.cursor.line != place.line || keyLimit < place.offset - c.cursor.offset

/-- Gives up the candidates that are stale, none of which may be required. -/
def dropStale (s : Layout) : Option Layout :=
  let stale (c : Option Candidate) : Bool := c.any fun c => Candidate.isStale c s.cursor
  let kept (c : Option Candidate) : Option Candidate := if stale c then none else c
  if (s.candidate :: s.brackets).any fun c => stale c && c.any Candidate.required then none
  else some { s with candidate := kept s.candidate, brackets := s.brackets.map kept }

/-! ## Single marks -/

/-- Passes over blanks and comments. After a line end in a block a key can begin. -/
def skipBlanks (s : Layout) : Layout :=
  let (n, broken) := blankLength false s.cursor.rest
  { s with cursor := s.cursor.advance n, keyAllowed := s.keyAllowed || (broken && !s.inFlow) }

def document (s : Layout) (m : Mark) : Option Layout := do
  let s ← (s.unwind (-1)).dropCandidate
  return { s.emitOver m 3 with keyAllowed := false }

/-- An opening bracket, which may begin a key. -/
def openBracket (s : Layout) (m : Mark) : Option Layout := do
  let s ← s.propose
  return { s.emitOver m 1 with brackets := none :: s.brackets, keyAllowed := true }

/-- A closing bracket, which needs an open one. -/
def closeBracket (s : Layout) (m : Mark) : Option Layout := do
  let s ← s.dropCandidate
  match s.brackets with
  | _ :: outer => return { s.emitOver m 1 with brackets := outer, keyAllowed := false }
  | [] => none

def comma (s : Layout) : Option Layout := do
  return { (← s.dropCandidate).emitOver .comma 1 with keyAllowed := true }

/-- A mark that begins an entry: a dash or a question mark. -/
def entryMark (s : Layout) (m block : Mark) (keyAfter : Bool) : Option Layout := do
  let s ←
    if s.inFlow then some s
    else if s.keyAllowed then some (s.open? block s.cursor.column s.marks.length)
    else none
  return { (← s.dropCandidate).emitOver m 1 with keyAllowed := keyAfter }

/-- A colon, which makes the current candidate a key. Without a candidate it follows a key that a
question mark began. -/
def colon (s : Layout) : Option Layout :=
  match s.current with
  | some c =>
    let s := (s.setCurrent none).insert c.place .key
    let s := if s.inFlow then s else s.open? .mappingBegin c.cursor.column c.place
    some { s.emitOver .value 1 with keyAllowed := false }
  | none => s.entryMark .value .mappingBegin (!s.inFlow)

def quotedScalar (s : Layout) (quote : CodePoint) : Option Layout := do
  let s ← s.propose
  let (text, n) ← quoted quote 0 (s.cursor.rest.drop 1)
  return { s.emitOver (.scalar text false) (n + 1) with keyAllowed := false }

def plainScalar (s : Layout) : Option Layout := do
  let s ← s.propose
  let (text, stop, ended) := plain s.inFlow s.indent s.cursor.rest.length s.cursor
  return { s.emit (.scalar text true) with cursor := stop, keyAllowed := ended }

/-- The mark or scalar that begins with `p`, followed by `t`. -/
def mark (s : Layout) (p : CodePoint) (t : Text) : Option Layout :=
  let atStart := s.cursor.column == 0
  if atStart && p == '%' then none
  else if atStart && atMark "---" (p :: t) then s.document .documentBegin
  else if atStart && atMark "..." (p :: t) then s.document .documentEnd
  else if p = '[' then s.openBracket .listOpen
  else if p = '\x7b' then s.openBracket .mapOpen
  else if p = ']' then s.closeBracket .listClose
  else if p = '\x7d' then s.closeBracket .mapClose
  else if p = ',' then s.comma
  else if p = '-' ∧ atGap t then s.entryMark .entry .sequenceBegin true
  else if p = '?' ∧ (s.inFlow ∨ atGap t) then s.entryMark .key .mappingBegin (!s.inFlow)
  else if p = ':' ∧ (s.inFlow ∨ atGap t) then s.colon
  else if p = '\'' ∨ p = '"' then s.quotedScalar p
  else if startsPlain s.inFlow (p :: t) then s.plainScalar
  else none

/-- The end of the text, which closes all blocks. -/
def finish (s : Layout) : Option (List Mark) := do
  let s ← (s.unwind (-1)).dropCandidate
  return (s.emit .textEnd).marks.reverse

/-- Reads on to the end. Every turn takes a code point, so the length of the text bounds the
turns. -/
def run : Nat → Layout → Option (List Mark)
  | 0, _ => none
  | bound + 1, s => do
    let s ← s.skipBlanks.dropStale
    let s := s.unwind s.cursor.column
    match s.cursor.rest with
    | [] => s.finish
    | p :: t => run bound (← s.mark p t)

end Layout

/-- The marks of a text. -/
def marksOf (t : Text) : Option (List Mark) := (Layout.start t).run (t.length + 1)

end FluidCss.Config.Yaml
