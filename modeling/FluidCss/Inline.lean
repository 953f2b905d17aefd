import FluidCss.Clamp
import FluidCss.Number.Numeral

/-!
# Inline calls

A declaration value may hold calls of the form `ruler.fluid(minSize, maxSize, minWidth, maxWidth)`,
the widths being optional. Each call is replaced by its fluid value, from left to right, and the
text between the calls stays as it is. A call ends at the first closing bracket and has at least
one code point in it.
-/

namespace FluidCss.Inline

open Text

/-- What opens a call. -/
def opening : Text := "ruler.fluid("

/-- The text between the brackets if a call stands at the start of a text. -/
def callAt? (cs : Text) : Option Text :=
  if opening.isPrefixOf cs then
    let body := cs.drop opening.length
    let arguments := body.takeWhile (· != .char ')')
    if !arguments.isEmpty && arguments.length < body.length then some arguments else none
  else none

/-- A value in pieces: calls, by the text between their brackets, and single code points. -/
inductive Piece where
  | char (c : CodePoint)
  | call (arguments : Text)
  deriving DecidableEq

def Piece.text : Piece → Text
  | char c => [c]
  | call arguments => opening ++ arguments ++ [.char ')']

/-- Divides a text into pieces; its first `skip` code points belong to the call before. -/
def pieces (skip : Nat) : Text → List Piece
  | [] => []
  | c :: cs =>
    match skip with
    | skip + 1 => pieces skip cs
    | 0 =>
      match callAt? (c :: cs) with
      | some arguments => .call arguments :: pieces (opening.length + arguments.length) cs
      | none => .char c :: pieces 0 cs

/-- Code points that belong to the call before are passed over. -/
theorem pieces_skip (k : Nat) (cs : Text) : pieces k cs = pieces 0 (cs.drop k) := by
  induction cs generalizing k with
  | nil => cases k <;> rfl
  | cons c cs ih =>
    cases k with
    | zero => rfl
    | succ k => simpa [pieces] using ih k

/-- What follows a prefix free of closing brackets that is not the whole text starts with one. -/
theorem exists_closing {body : Text}
    (h : (body.takeWhile (· != .char ')')).length < body.length) :
    ∃ rest, body = body.takeWhile (· != .char ')') ++ .char ')' :: rest := by
  induction body with
  | nil => simp at h
  | cons c cs ih =>
    by_cases hc : c = .char ')'
    · subst hc
      exact ⟨cs, by simp⟩
    · have hc' : (c != .char ')') = true := by simpa using hc
      simp only [List.takeWhile_cons, hc', if_true, List.length_cons] at h ⊢
      obtain ⟨rest, hrest⟩ := ih (by omega)
      exact ⟨rest, by rw [List.cons_append, ← hrest]⟩

/-- A call found at the start of a text is written there. -/
theorem eq_of_callAt? {cs arguments : Text} (h : callAt? cs = some arguments) :
    ∃ rest, cs = (Piece.call arguments).text ++ rest := by
  unfold callAt? at h
  split at h
  · rename_i hp
    obtain ⟨body, rfl⟩ := List.isPrefixOf_iff_prefix.1 hp
    simp only [List.drop_left] at h
    split at h
    · rename_i hb
      obtain rfl := Option.some.inj h
      simp only [Bool.and_eq_true, decide_eq_true_eq] at hb
      obtain ⟨rest, hrest⟩ := exists_closing hb.2
      refine ⟨rest, ?_⟩
      simp only [Piece.text, List.append_assoc, List.singleton_append]
      rw [← hrest]
    · cases h
  · cases h

/-! ## Arguments -/

/-- The parts of a text between commas. -/
def splitCommas : Text → List Text
  | [] => [[]]
  | c :: cs =>
    match splitCommas cs with
    | part :: parts => if c = ',' then [] :: part :: parts else (c :: part) :: parts
    | [] => [[c]]

/-- The number that an argument gives. Blank text, zero, an infinity and what is no numeral give
none. -/
def argument? (cs : Text) : Option Number :=
  match Numeral.double? (trim cs) with
  | some d => if d.isFinite && !d.isZero then some (.double d) else none
  | none => none

/-- The fluid value of a call. Sizes are needed; widths that are not given are those of the run. -/
def callText (minWidth maxWidth : Number) (arguments : Text) : Except Error Text :=
  let numbers := (splitCommas arguments).map argument?
  match numbers[0]?.join, numbers[1]?.join with
  | some minSize, some maxSize =>
    fluidText minSize maxSize (numbers[2]?.join.getD minWidth) (numbers[3]?.join.getD maxWidth)
  | _, _ => .error .inlineSizesMissing

/-! ## Resolving -/

/-- A call with the value that takes its place. -/
structure Replacement where
  call : Text
  result : Text
  deriving DecidableEq

/-- The replacements made before the end or the first failure, and the new text. -/
def resolvePieces (minWidth maxWidth : Number) :
    List Piece → List Replacement × Except Error Text
  | [] => ([], .ok [])
  | .char c :: ps =>
    let (done, result) := resolvePieces minWidth maxWidth ps
    (done, result.map (c :: ·))
  | .call arguments :: ps =>
    match callText minWidth maxWidth arguments with
    | .error e => ([], .error e)
    | .ok text =>
      let (done, result) := resolvePieces minWidth maxWidth ps
      (⟨(Piece.call arguments).text, text⟩ :: done, result.map (text ++ ·))

/-- The value with its calls replaced. -/
def resolve (minWidth maxWidth : Number) (value : Text) : Except Error Text :=
  (resolvePieces minWidth maxWidth (pieces 0 value)).2

/-- The replacements made in a value. -/
def replacements (minWidth maxWidth : Number) (value : Text) : List Replacement :=
  (resolvePieces minWidth maxWidth (pieces 0 value)).1

end FluidCss.Inline
