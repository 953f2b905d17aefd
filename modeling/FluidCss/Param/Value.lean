import FluidCss.Ordered
import FluidCss.Param.Symbol

/-!
# Parameter values

A directive has the form of a call with one object:

    call   := name "(" [object divider*] ")"
    object := "{" (divider* key divider* value)* divider* "}"
    list   := "[" (divider* value)* divider* "]"
    value  := object | list | call of any name | string | bare run

Dividers may stand anywhere between keys and values and mean nothing. A nested call is passed over
up to its closing bracket and keeps only its name. A bare run is a word or mark with the marks that
follow it and the words that touch a mark before them, joined to one word.
-/

namespace FluidCss.Param

/-- A value in the parameters of a directive. -/
inductive Value where
  | symbol (symbol : Symbol)
  | list (items : List Value)
  | object (fields : List (Text × Value))

namespace Value

/-- The symbols from the first that is no divider. -/
def skipDividers (ts : List Symbol) : List Symbol := ts.dropWhile (·.kind == .divider)

/-- Demands a bracket and gives what follows it. -/
def expect (bracket : Text) : List Symbol → Except Error (List Symbol)
  | [] => .error .paramsEnd
  | t :: ts =>
    if t.isPunctuation bracket then .ok ts else .error (.bracketExpected bracket t.text)

/-! ## Values without structure -/

/-- Whether a symbol goes on with the run that ends in `last`. -/
def continues (last t : Symbol) : Bool :=
  (t.kind == .punctuation && !t.isOpener && !t.isCloser) ||
    (t.kind == .word && !t.spaced && last.kind == .punctuation)

/-- Divides what follows `last` where its run ends. -/
def splitRun (last : Symbol) : List Symbol → List Symbol × List Symbol
  | [] => ([], [])
  | t :: ts =>
    if continues last t then
      let (run, rest) := splitRun t ts
      (t :: run, rest)
    else ([], t :: ts)

/-- A run as one symbol; a space inside it is kept as one blank. -/
def join (t : Symbol) (run : List Symbol) : Symbol :=
  if run.isEmpty then t
  else
    ⟨.word, t.text ++ run.flatMap fun u => (if u.spaced then " " else [] : Text) ++ u.text,
      t.spaced⟩

/-- A symbol after which one more closing bracket is due. -/
def opens (t : Symbol) : Bool := t.kind == .function || t.isOpener

/-- What follows the closing bracket of a call, `depth` further brackets being open in it. -/
def afterCall (depth : Nat) : List Symbol → Except Error (List Symbol)
  | [] => .error .paramsEnd
  | t :: ts =>
    if opens t then afterCall (depth + 1) ts
    else if t.isCloser then
      match depth with
      | 0 => .ok ts
      | depth + 1 => afterCall depth ts
    else afterCall depth ts

/-! ## Objects and lists -/

/-- An object or a list of which a part is read. -/
inductive Unfinished where
  | object (fields : List (Text × Value))
  | list (items : List Value)

/-- Reads the value that begins with `t`; `contents` reads what follows an opening bracket. -/
def readWith (contents : Unfinished → List Symbol → Except Error (Value × List Symbol))
    (key : Option Text) (t : Symbol) (ts : List Symbol) :
    Except Error (Value × List Symbol) :=
  if t.isPunctuation "\x7b" then contents (.object []) ts
  else if t.isPunctuation "[" then contents (.list []) ts
  else if t.kind = .function then do
    let rest ← afterCall 0 ts
    return (.symbol ⟨.function, t.text, false⟩, rest)
  else if t.kind = .string then .ok (.symbol t, ts)
  else if t.isCloser then .error (.valueMissing key t.text)
  else
    let (run, rest) := splitRun t ts
    .ok (.symbol (join t run), rest)

/-- Reads an object or a list to its closing bracket. Every turn takes a symbol, so the number of
symbols bounds the turns. -/
def contents : Nat → Unfinished → List Symbol → Except Error (Value × List Symbol)
  | bound, part, ts =>
    match bound, skipDividers ts with
    | bound + 1, t :: ts =>
      match part with
      | .object fields =>
        if t.isPunctuation "\x7d" then .ok (.object fields, ts)
        else if t.kind = .word ∨ t.kind = .string then
          match skipDividers ts with
          | [] => .error .paramsEnd
          | u :: us => do
            let (value, rest) ← readWith (contents bound) (some t.text) u us
            contents bound (.object (Ordered.put t.text value fields)) rest
        else .error (.keyExpected t.text)
      | .list items =>
        if t.isPunctuation "]" then .ok (.list items, ts)
        else do
          let (value, rest) ← readWith (contents bound) none t ts
          contents bound (.list (items ++ [value])) rest
    | _, _ => .error .paramsEnd

def fields : Value → List (Text × Value)
  | object fields => fields
  | symbol _ | list _ => []

/-- Reads the object of a call and its closing brackets; what follows them does not matter. -/
def readArgument (ts : List Symbol) : Except Error (List (Text × Value)) := do
  let inside ← expect "\x7b" ts
  let (value, rest) ← contents inside.length (.object []) inside
  let _ ← expect ")" (skipDividers rest)
  return value.fields

/-- Reads a call of the given name. Without an argument it has the empty object. -/
def readCall (name : Text) : List Symbol → Except Error (List (Text × Value))
  | [] => .error .paramsEnd
  | t :: ts =>
    if t.kind = .function ∧ t.text = name then
      match ts with
      | u :: _ => if u.isPunctuation ")" then .ok [] else readArgument ts
      | [] => readArgument ts
    else .error (.callExpected name t.text)

/-- Reads the parameters of a directive. -/
def readDirective (name params : Text) : Except Error (List (Text × Value)) := do
  readCall name (← Symbol.ofText params)

end Value

end FluidCss.Param
