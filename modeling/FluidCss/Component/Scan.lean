import FluidCss.Component.Token

/-!
# Scanning style sheet text

At each place the longest applicable token is read. Every scanner says how many code points it
took, so the tokens lie side by side and cover the text. Line ends are made one kind before
anything is read.
-/

namespace FluidCss

/-- A line end by itself becomes a line feed, and the character zero is replaced. -/
def normalizePoint (c : CodePoint) : CodePoint :=
  if c = '\r' ∨ c = '\x0c' then '\n' else if c = '\x00' then Name.replacement else c

/-- Makes every line end a line feed and replaces the character zero. -/
def normalize : Text → Text
  | .char '\r' :: .char '\n' :: cs => '\n' :: normalize cs
  | c :: cs => normalizePoint c :: normalize cs
  | [] => []

namespace Scan

/-- How a string or an address comes to its end. -/
inductive Ending where
  | closed
  /-- The text ends first. -/
  | cut
  /-- Something stands there that may not. -/
  | broken
  deriving DecidableEq

/-! ## Numbers -/

def signLength : Text → Nat
  | c :: _ => if c = '+' ∨ c = '-' then 1 else 0
  | [] => 0

/-- The length of a row of digits. -/
def digitsLength (cs : Text) : Nat := (cs.takeWhile CodePoint.isDigit).length

/-- The length of an exponent, zero if there is none. -/
def exponentLength : Text → Nat
  | c :: cs =>
    if c = 'e' ∨ c = 'E' then
      let s := signLength cs
      match digitsLength (cs.drop s) with
      | 0 => 0
      | n + 1 => 1 + s + (n + 1)
    else 0
  | [] => 0

/-- The length of digits with an optional fraction, zero if there is no digit where one is
needed. -/
def magnitudeLength (cs : Text) : Nat :=
  let whole := digitsLength cs
  match cs.drop whole with
  | .char '.' :: tail =>
    match digitsLength tail with
    | 0 => whole
    | n + 1 => whole + 1 + (n + 1)
  | _ => whole

/-- The length of the number at the start, zero if there is none. -/
def numberLength (cs : Text) : Nat :=
  let s := signLength cs
  match magnitudeLength (cs.drop s) with
  | 0 => 0
  | n + 1 => s + (n + 1) + exponentLength (cs.drop (s + (n + 1)))

/-! ## Strings, addresses, comments -/

/-- Reads a string after its opening quote. -/
def string (quote : CodePoint) (skip : Nat) : Text → Text × Nat × Ending
  | [] => ([], 0, .cut)
  | c :: cs =>
    match skip with
    | skip + 1 =>
      let (text, n, ending) := string quote skip cs
      (text, n + 1, ending)
    | 0 =>
      if c = quote then ([], 1, .closed)
      else if c = '\n' then ([], 0, .broken)
      else if c = '\\' then
        match cs with
        | [] => ([], 1, .cut)
        | .char '\n' :: _ =>
          let (text, n, ending) := string quote 1 cs
          (text, n + 1, ending)
        | _ :: _ =>
          let (e, k) := Name.escape cs
          let (text, n, ending) := string quote k cs
          (e :: text, n + 1, ending)
      else
        let (text, n, ending) := string quote 0 cs
        (c :: text, n + 1, ending)

/-- The length of what is left of a broken address, its bracket included. -/
def badUrlLength : Text → Nat
  | .char '\\' :: .char ')' :: cs => 2 + badUrlLength cs
  | .char ')' :: _ => 1
  | _ :: cs => 1 + badUrlLength cs
  | [] => 0

/-- A code point that breaks an address without quotes. -/
def breaksUrl (c : CodePoint) : Bool :=
  c == '"' || c == '\'' || c == '(' || c.number ≤ 8 || c.number == 0x0B ||
    (0x0E ≤ c.number && c.number ≤ 0x1F) || c.number == 0x7F

/-- The end of an address after its first space: nothing but spaces may follow. -/
def urlEnd (cs : Text) : Nat × Ending :=
  let spaces := (cs.takeWhile Name.isSpace).length
  match cs.drop spaces with
  | [] => (spaces, .cut)
  | c :: tail =>
    if c = ')' then (spaces + 1, .closed) else (spaces + badUrlLength (c :: tail), .broken)

/-- Reads an address without quotes, from its first character that is no space. -/
def urlBody (skip : Nat) : Text → Text × Nat × Ending
  | [] => ([], 0, .cut)
  | c :: cs =>
    match skip with
    | skip + 1 =>
      let (text, n, ending) := urlBody skip cs
      (text, n + 1, ending)
    | 0 =>
      if c = ')' then ([], 1, .closed)
      else if Name.isSpace c then
        let (n, ending) := urlEnd cs
        ([], n + 1, ending)
      else if Name.startsEscape (c :: cs) then
        let (e, k) := Name.escape cs
        let (text, n, ending) := urlBody k cs
        (e :: text, n + 1, ending)
      else if breaksUrl c then ([], 1 + badUrlLength cs, .broken)
      else
        let (text, n, ending) := urlBody 0 cs
        (c :: text, n + 1, ending)

/-- The rest after `url(` is an address without quotes. -/
def startsUrl (cs : Text) : Bool :=
  match cs.dropWhile Name.isSpace with
  | c :: _ => c != '"' && c != '\''
  | [] => true

/-- Reads an address after `url(`. -/
def url (cs : Text) : Token × Nat :=
  let spaces := (cs.takeWhile Name.isSpace).length
  let (text, n, ending) := urlBody 0 (cs.drop spaces)
  let leaf := Leaf.url text
  let token := match ending with
    | .closed => .leaf leaf
    | .cut => .cut leaf .unclosedUrl
    | .broken => .fault .badUrl
  (token, spaces + n)

/-- Reads a comment after its opening mark. -/
def comment : Text → Text × Nat × Bool
  | .char '*' :: .char '/' :: _ => ([], 2, true)
  | c :: cs =>
    let (text, n, closed) := comment cs
    (c :: text, n + 1, closed)
  | [] => ([], 0, false)

/-! ## Ranges of code points -/

/-- A range of code points begins here. -/
def startsRange : Text → Bool
  | c :: .char '+' :: d :: _ => (c == 'U' || c == 'u') && (Name.isHex d || d == '?')
  | _ => false

/-- Reads a range after `U+`: six places in all of digits and question marks, which stand for any
digit, or two groups of up to six digits. -/
def range (cs : Text) : Nat × Nat × Nat :=
  let digits := (cs.take 6).takeWhile Name.isHex
  let marks := (((cs.take 6).drop digits.length).takeWhile (· == .char '?')).length
  let taken := digits.length + marks
  if marks ≠ 0 then
    (Name.hexValue (digits ++ List.replicate marks (.char '0')),
      Name.hexValue (digits ++ List.replicate marks (.char 'F')), taken)
  else
    match cs.drop taken with
    | .char '-' :: tail =>
      match (tail.take 6).takeWhile Name.isHex with
      | [] => (Name.hexValue digits, Name.hexValue digits, taken)
      | upper => (Name.hexValue digits, Name.hexValue upper, taken + 1 + upper.length)
    | _ => (Name.hexValue digits, Name.hexValue digits, taken)

/-! ## One token -/

/-- A mark that stands for itself. -/
def literal (text : Text) : Token := .leaf (.literal text)

/-- Reads an identifier, a function call's opening or an address. -/
def identLike (cs : Text) : Token × Nat :=
  let (name, n) := Name.read 0 cs
  match cs.drop n with
  | .char '(' :: tail =>
    if name.map CodePoint.toLower = "url" ∧ startsUrl tail then
      let (token, k) := url tail
      (token, n + 1 + k)
    else (.function name, n + 1)
  | _ => (.leaf (.ident name), n)

/-- Reads a number of known length with what makes it a percentage or a dimension. -/
def numeric (cs : Text) (n : Nat) : Token × Nat :=
  let text := cs.take n
  let tail := cs.drop n
  if Name.startsIdent tail then
    let (unit, k) := Name.read 0 tail
    (.leaf (.dimension text unit), n + k)
  else if tail.head? = some (.char '%') then (.leaf (.percentage text), n + 1)
  else (.leaf (.number text), n)

/-- Reads a string from its opening quote. -/
def quoted (quote : CodePoint) (cs : Text) : Token × Nat :=
  let (text, n, ending) := string quote 0 cs
  let leaf := Leaf.string text
  match ending with
  | .closed => (.leaf leaf, n + 1)
  | .cut => (.cut leaf .unclosedString, n + 1)
  | .broken => (.fault .badString, n + 1)

/-- Reads a string, an at-keyword, a hash or a comment, or a mark that stands for itself. -/
def punctuation (c : CodePoint) (cs : Text) : Token × Nat :=
  match c, cs with
  | .char '(', _ => (.opener .round, 1)
  | .char '[', _ => (.opener .square, 1)
  | .char '{', _ => (.opener .curly, 1)
  | .char ')', _ => (.closer .round, 1)
  | .char ']', _ => (.closer .square, 1)
  | .char '}', _ => (.closer .curly, 1)
  | .char '"', _ | .char '\'', _ => quoted c cs
  | .char '@', _ =>
    if Name.startsIdent cs then
      let (name, n) := Name.read 0 cs
      (.leaf (.atKeyword name), n + 1)
    else (literal "@", 1)
  | .char '#', _ =>
    if (match cs with | d :: _ => Name.isPart d | [] => false) || Name.startsEscape cs then
      let (name, n) := Name.read 0 cs
      (.leaf (.hash name (Name.startsIdent cs)), n + 1)
    else (literal "#", 1)
  | .char '/', .char '*' :: tail =>
    let (text, n, closed) := comment tail
    (.leaf (.comment text closed), n + 2)
  | .char '<', .char '!' :: .char '-' :: .char '-' :: _ => (literal "<!--", 4)
  | .char '|', .char '|' :: _ => (literal "||", 2)
  | c, d :: _ =>
    if d = '=' ∧ (c = '~' ∨ c = '|' ∨ c = '^' ∨ c = '$' ∨ c = '*') then (literal [c, d], 2)
    else (literal [c], 1)
  | c, [] => (literal [c], 1)

/-- Reads the token at the start of the text `c :: cs` and says how many code points it
has. -/
def token (c : CodePoint) (cs : Text) : Token × Nat :=
  let text := c :: cs
  if Name.isSpace c then (.leaf .space, (text.takeWhile Name.isSpace).length)
  else if startsRange text then
    let (first, last, n) := range (cs.drop 1)
    (.leaf (.unicodeRange first last), n + 2)
  else if text.take 3 = "-->" then (literal "-->", 3)
  else if Name.startsIdent text then identLike text
  else
    match numberLength text with
    | 0 => punctuation c cs
    | n + 1 => numeric text (n + 1)

end Scan

/-- The tokens of a text that begins at offset `start`, after `skip` code points that belong to
the token before. -/
def Lexeme.scan (start skip : Nat) : Text → List Lexeme
  | [] => []
  | c :: cs =>
    match skip with
    | skip + 1 => scan (start + 1) skip cs
    | 0 =>
      let (token, n) := Scan.token c cs
      ⟨start, token⟩ :: scan (start + 1) (n - 1) cs

/-- Code points that belong to the token before are passed over, and the offset counts them. -/
theorem Lexeme.scan_skip (start k : Nat) (cs : Text) :
    scan start k cs = scan (start + min k cs.length) 0 (cs.drop k) := by
  induction cs generalizing start k with
  | nil => cases k <;> rfl
  | cons c cs ih =>
    cases k with
    | zero => simp
    | succ k =>
      simp only [scan, List.drop_succ_cons, List.length_cons]
      rw [ih]
      congr 1
      omega

end FluidCss
