import FluidCss.Number.Basic
import FluidCss.Ordered
import FluidCss.Text.Quoted

/-!
# Option values

Options come as nested values of any shape. Two texts of a value are needed: a description, which
messages show, and a plain text, in which a text stands for itself.
-/

namespace FluidCss.Config

/-- A value in a settings file. -/
inductive Value where
  | null
  | flag (b : Bool)
  | number (n : Number)
  | text (t : Text)
  | list (items : List Value)
  | map (entries : List (Value × Value))
  /-- A value of another kind, such as a date or bytes: no option wants one, so it is known by its
  two texts and by whether it is empty. -/
  | foreign (kind shown plain : Text) (empty : Bool)

namespace Value

mutual

/-- The text that shows a value. -/
def describe : Value → Text
  | null => "None"
  | flag b => if b then "True" else "False"
  | number n => n.text
  | text t => Text.quote t
  | list items => "[" ++ Text.joined ", " (describeAll items) ++ "]"
  | map entries => "\x7b" ++ Text.joined ", " (describeEntries entries) ++ "\x7d"
  | foreign _ shown _ _ => shown

def describeAll : List Value → List Text
  | [] => []
  | v :: vs => describe v :: describeAll vs

def describeEntries : List (Value × Value) → List Text
  | [] => []
  | (k, v) :: entries => (describe k ++ ": " ++ describe v) :: describeEntries entries

end

/-- A text is its own plain text. -/
def plain : Value → Text
  | text t => t
  | foreign _ _ plain _ => plain
  | v => v.describe

/-- The kind of a value, as messages name it. -/
def kindName : Value → Text
  | null => "null"
  | flag _ => "bool"
  | number (.int _) => "int"
  | number (.double _) => "float"
  | text _ => "str"
  | list _ => "list"
  | map _ => "map"
  | foreign kind _ _ _ => kind

/-- A value that counts as not given where a mapping is wanted. -/
def isEmpty : Value → Bool
  | null => true
  | flag b => !b
  | number n => n.same 0
  | text s => s.isEmpty
  | list items => items.isEmpty
  | map entries => entries.isEmpty
  | foreign _ _ _ empty => empty

/-! ## Mappings -/

/-- The number that a key counts as; flags count as one and zero. -/
def asNumber? : Value → Option Number
  | flag b => some (if b then 1 else 0)
  | number n => some n
  | _ => none

/-- A value of number kind that is not a number. -/
def isNan : Value → Bool
  | number n => n.isNan
  | _ => false

/-- Two keys are one if they are equal texts or numbers, or both null, or of the same other kind and
shown alike. -/
def sameKey : Value → Value → Bool
  | null, null => true
  | text s, text t => s == t
  | foreign k s _ _, foreign l t _ _ => k == l && s == t
  | a, b =>
    match a.asNumber?, b.asNumber? with
    | some m, some n => m.same n
    | _, _ => false

/-- Sets the value of a key in a mapping, where `same` tells which keys are one; a key that is there
already keeps its place and its spelling. -/
def putEntry (same : Value → Value → Bool) (key value : Value) :
    List (Value × Value) → List (Value × Value)
  | [] => [(key, value)]
  | (k, v) :: entries =>
    if same k key then (k, value) :: entries else (k, v) :: putEntry same key value entries

/-- The mapping made by setting the values of a list one after the other, where `same` tells which
keys are one. -/
def ofEntriesBy (same : Value → Value → Bool) (entries : List (Value × Value)) : Value :=
  .map (entries.foldl (fun m (k, v) => putEntry same k v m) [])

/-- The mapping made by setting the values of a list one after the other. A key that is not a number
equals none, so it is always a new one. -/
def ofEntries (entries : List (Value × Value)) : Value := ofEntriesBy sameKey entries

end Value

end FluidCss.Config
