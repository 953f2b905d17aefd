import FluidCss.Config.File
import FluidCss.Config.Yaml.Mark
import FluidCss.Config.Yaml.Scalar

/-!
# YAML documents

This is the loader that the built program is given, for the part of YAML that settings files are
written in: no anchors, aliases, tags, directives or block scalars, which it takes for malformed.
What is proved of settings files holds for any loader.

Marks make up nodes, scalars and collections of nodes, and a text holds at most one document, which
is one node. A node that is left out is an empty plain scalar. A node gives a value unless a
collection stands as a key, or a plain scalar is one of the two that are reserved.
-/

namespace FluidCss.Config.Yaml

/-- A scalar or a collection. -/
inductive Node where
  | scalar (text : Text) (isPlain : Bool)
  | list (items : List Node)
  | map (entries : List (Node × Node))

namespace Node

/-- A node that is left out. -/
def absent : Node := .scalar [] true

/-- A collection of which a part is read. -/
inductive Unfinished where
  /-- A block sequence with marks around it. -/
  | sequence (items : List Node)
  /-- A block sequence that stands no further right than the mapping around it. -/
  | dashes (items : List Node)
  | mapping (entries : List (Node × Node))
  /-- A list in brackets; `first` says whether a comma is not yet due. -/
  | listed (first : Bool) (items : List Node)
  /-- A mapping in brackets. -/
  | mapped (first : Bool) (entries : List (Node × Node))

/-- The marks that end an entry of a block mapping. -/
def endsBlockEntry (m : Mark) : Bool := m == .key || m == .value || m == .blockEnd

/-- The marks that end an entry in brackets. -/
def endsFlowEntry (closer m : Mark) : Bool := m == .comma || m == closer

/-- Reads a node if none of the marks that end it comes first. -/
def orAbsent (read : List Mark → Option (Node × List Mark)) (ends : Mark → Bool)
    (marks : List Mark) : Option (Node × List Mark) :=
  match marks with
  | m :: _ => if ends m then some (absent, marks) else read marks
  | [] => none

/-- Reads the value of a key, which is absent without a colon. -/
def valueWith (read : List Mark → Option (Node × List Mark)) (ends : Mark → Bool) :
    List Mark → Option (Node × List Mark)
  | .value :: marks => orAbsent read ends marks
  | marks => some (absent, marks)

/-- Passes over the comma that is due after an entry in brackets, unless the closing bracket comes
first. -/
def afterComma (closer : Mark) (first : Bool) (marks : List Mark) : Option (List Mark) :=
  match marks with
  | m :: rest =>
    if first || m == closer then some marks
    else if m == .comma then some rest
    else none
  | [] => none

mutual

/-- Reads a node. `block` says whether a block collection may begin here, and `dashes` whether a
dash may without one. -/
def read (block dashes : Bool) : Nat → List Mark → Option (Node × List Mark)
  | 0, _ => none
  | bound + 1, marks =>
    match marks with
    | .scalar text isPlain :: rest => some (.scalar text isPlain, rest)
    | .listOpen :: rest => collect bound (.listed true []) rest
    | .mapOpen :: rest => collect bound (.mapped true []) rest
    | .sequenceBegin :: rest => if block then collect bound (.sequence []) rest else none
    | .mappingBegin :: rest => if block then collect bound (.mapping []) rest else none
    | .entry :: _ => if dashes then collect bound (.dashes []) marks else none
    | _ => none

/-- Reads a collection to its end. -/
def collect : Nat → Unfinished → List Mark → Option (Node × List Mark)
  | 0, _, _ => none
  | bound + 1, part, marks =>
    match part with
    | .sequence items =>
      match marks with
      | .entry :: rest => do
        let (item, rest) ←
          orAbsent (read true false bound) (fun m => m == .entry || m == .blockEnd) rest
        collect bound (.sequence (items ++ [item])) rest
      | .blockEnd :: rest => some (.list items, rest)
      | _ => none
    | .dashes items =>
      match marks with
      | .entry :: rest => do
        let (item, rest) ←
          orAbsent (read true false bound) (fun m => m == .entry || endsBlockEntry m) rest
        collect bound (.dashes (items ++ [item])) rest
      | _ => some (.list items, marks)
    | .mapping entries =>
      match marks with
      | .key :: rest => do
        let (key, rest) ← orAbsent (read true true bound) endsBlockEntry rest
        let (value, rest) ← valueWith (read true true bound) endsBlockEntry rest
        collect bound (.mapping (entries ++ [(key, value)])) rest
      | .blockEnd :: rest => some (.map entries, rest)
      | _ => none
    | .listed first items => do
      match ← afterComma .listClose first marks with
      | .listClose :: rest => some (.list items, rest)
      | .key :: rest =>
        let ends := endsFlowEntry .listClose
        let (key, rest) ← orAbsent (read false false bound) (fun m => m == .value || ends m) rest
        let (value, rest) ← valueWith (read false false bound) ends rest
        collect bound (.listed false (items ++ [.map [(key, value)]])) rest
      | rest =>
        let (item, rest) ← read false false bound rest
        collect bound (.listed false (items ++ [item])) rest
    | .mapped first entries => do
      match ← afterComma .mapClose first marks with
      | .mapClose :: rest => some (.map entries, rest)
      | .key :: rest =>
        let ends := endsFlowEntry .mapClose
        let (key, rest) ← orAbsent (read false false bound) (fun m => m == .value || ends m) rest
        let (value, rest) ← valueWith (read false false bound) ends rest
        collect bound (.mapped false (entries ++ [(key, value)])) rest
      | rest =>
        let (key, rest) ← read false false bound rest
        collect bound (.mapped false (entries ++ [(key, absent)])) rest

end

/-! ## Documents -/

/-- Demands that at most marks of ended documents follow. -/
def nothingAfter (marks : List Mark) : Bool :=
  marks.dropWhile (· == .documentEnd) == [.textEnd]

/-- Reads the node of a document that begins with a mark. -/
def ofDocument (bound : Nat) (marks : List Mark) : Option (Node × List Mark) :=
  orAbsent (read true false bound)
    (fun m => m == .documentBegin || m == .documentEnd || m == .textEnd) marks

/-- The node of a text, absent if the text holds no document. -/
def ofMarks (marks : List Mark) : Option Node := do
  let bound := 2 * marks.length + 2
  let (node, rest) ←
    match marks with
    | [.textEnd] => some (absent, marks)
    | .documentBegin :: rest => ofDocument bound rest
    | _ => read true false bound marks
  if nothingAfter rest then some node else none

/-! ## Values -/

/-- The fault of a text that is not read. -/
def notRead : LoadFault := .malformed "not valid YAML"

/-- The plain scalars that have no value. -/
def isReserved (t : Text) : Bool := (["=", "<<"] : List Text).contains t

def scalarValue (text : Text) (isPlain : Bool) : Except LoadFault Value :=
  if !isPlain then .ok (.text text)
  else if isReserved text then .error notRead
  else (plainValue text).mapError .raised

/-- The value of a key, which must be a scalar. An equals sign may be one. -/
def keyValue : Node → Except LoadFault Value
  | scalar text isPlain =>
    if text = "=" then .ok (.text text) else scalarValue text isPlain
  | list _ | map _ => .error notRead

/-- Two keys of a file are one if they are the same key. A file has a single value that is not a
number, so two keys of that kind are one as well. -/
def sameFileKey (a b : Value) : Bool := a.sameKey b || (a.isNan && b.isNan)

/-- A reason why a node has no value, and the number of collections around the place. -/
structure Fault where
  depth : Nat
  cause : LoadFault

/-- The outer one of two faults, and the first if both are equally deep: collections take their
values one level after the other. -/
def Fault.outer (a b : Fault) : Fault := if b.depth < a.depth then b else a

/-- Two results, or the outer one of the faults in them. -/
def both {α β : Type} : Except Fault α → Except Fault β → Except Fault (α × β)
  | .ok a, .ok b => .ok (a, b)
  | .error e, .error f => .error (e.outer f)
  | .error e, .ok _ => .error e
  | .ok _, .error f => .error f

mutual

/-- The value of a node with `depth` collections around it. -/
def valueAt (depth : Nat) : Node → Except Fault Value
  | scalar text isPlain => (scalarValue text isPlain).mapError (Fault.mk depth)
  | list items => (valuesAt (depth + 1) items).map .list
  | map entries => (pairsAt (depth + 1) entries).map (.ofEntriesBy sameFileKey)

def valuesAt (depth : Nat) : List Node → Except Fault (List Value)
  | [] => .ok []
  | n :: ns =>
    (both (valueAt depth n) (valuesAt depth ns)).map fun (v, vs) => v :: vs

def pairsAt (depth : Nat) : List (Node × Node) → Except Fault (List (Value × Value))
  | [] => .ok []
  | (k, v) :: rest =>
    let key := (keyValue k).mapError (Fault.mk depth)
    (both (both key (valueAt depth v)) (pairsAt depth rest)).map
      fun (entry, entries) => entry :: entries

end

/-- The value of a node in a settings file. -/
def value (node : Node) : Except LoadFault Value := (node.valueAt 0).mapError Fault.cause

end Node

/-- A code point that a document may hold. -/
def isAllowed (p : CodePoint) : Bool :=
  let n := p.number
  n == 9 || n == 10 || n == 13 || (0x20 ≤ n && n ≤ 0x7E) || n == 0x85 ||
    (0xA0 ≤ n && n ≤ 0xD7FF) || (0xE000 ≤ n && n ≤ 0xFFFD) || 0x10000 ≤ n

/-- The value of the one document in a text; a text without one is null. -/
def read (text : Text) : Except LoadFault Value :=
  match if text.all isAllowed then (marksOf text).bind Node.ofMarks else none with
  | some node => node.value
  | none => .error Node.notRead

/-- Reads a settings file in the part of YAML that is known here. -/
def load : Loader := fun content =>
  match content.decode with
  | .ok text => read text
  | .error e => .error (.raised e)

end FluidCss.Config.Yaml
