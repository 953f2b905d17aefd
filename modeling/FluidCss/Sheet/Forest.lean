import FluidCss.Error
import FluidCss.Sheet.Node

/-!
# Forests of editable nodes

A forest holds nodes that can be moved about while others refer to them. A node is known by its
number, its content can change, a container lists its children, and every node knows its parent.
The edits keep the effects of their earlier steps when a later step fails.
-/

namespace FluidCss

/-- What a node is, apart from its place. -/
inductive Content where
  | declaration (property value : Text)
  | comment (text : Text)
  | rule (selector : Text)
  | atRule (name params : Text) (block : Bool)
  | root
  deriving DecidableEq

def Content.isContainer : Content → Bool
  | rule _ | atRule .. | root => true
  | declaration .. | comment _ => false

/-- The name of a kind of node in messages. -/
def Content.kindName : Content → Text
  | declaration .. => "Declaration"
  | comment _ => "Comment"
  | rule _ => "Rule"
  | atRule .. => "AtRule"
  | root => "Root"

/-- The number of a node, its place in the order in which nodes were made. -/
abbrev NodeId := Nat

/-- A node in a forest. -/
structure Cell where
  content : Content
  parent : Option NodeId
  children : List NodeId
  deriving DecidableEq

/-- Nodes by their numbers. -/
structure Forest where
  cells : Array Cell
  deriving DecidableEq

namespace Forest

def empty : Forest := ⟨#[]⟩

/-- The number of nodes, which is also the number of the next one. -/
def size (f : Forest) : Nat := f.cells.size

def get? (f : Forest) (id : NodeId) : Option Cell := f.cells[id]?

/-- The container that a node belongs to. -/
def parent? (f : Forest) (id : NodeId) : Option NodeId := (f.get? id).bind Cell.parent

def children (f : Forest) (id : NodeId) : List NodeId :=
  match f.get? id with
  | some cell => cell.children
  | none => []

/-- Changes one node. -/
def update (f : Forest) (id : NodeId) (change : Cell → Cell) : Forest :=
  ⟨f.cells.modify id change⟩

def setParent (f : Forest) (id : NodeId) (parent : Option NodeId) : Forest :=
  f.update id fun cell => { cell with parent := parent }

def setChildren (f : Forest) (id : NodeId) (children : List NodeId) : Forest :=
  f.update id fun cell => { cell with children := children }

def setContent (f : Forest) (id : NodeId) (content : Content) : Forest :=
  f.update id fun cell => { cell with content := content }

/-- A new node without a parent and without children. -/
def add (f : Forest) (content : Content) : NodeId × Forest :=
  (f.size, ⟨f.cells.push ⟨content, none, []⟩⟩)

/-! ## Trees in a forest -/

mutual

/-- Adds a tree under a parent. -/
def plant (f : Forest) (parent : Option NodeId) : Node → NodeId × Forest
  | .declaration property value => plantCell f parent (.declaration property value)
  | .comment text => plantCell f parent (.comment text)
  | .rule selector children =>
    let (id, f) := plantCell f parent (.rule selector)
    let (ids, f) := plantAll f (some id) children
    (id, f.setChildren id ids)
  | .atRule name params block children =>
    let (id, f) := plantCell f parent (.atRule name params block)
    let (ids, f) := plantAll f (some id) children
    (id, f.setChildren id ids)
  | .root children =>
    let (id, f) := plantCell f parent .root
    let (ids, f) := plantAll f (some id) children
    (id, f.setChildren id ids)
where
  /-- Adds a node under a parent. -/
  plantCell (f : Forest) (parent : Option NodeId) (content : Content) : NodeId × Forest :=
    let (id, f) := f.add content
    (id, f.setParent id parent)

def plantAll (f : Forest) (parent : Option NodeId) : List Node → List NodeId × Forest
  | [] => ([], f)
  | node :: nodes =>
    let (id, f) := plant f parent node
    let (ids, f) := plantAll f parent nodes
    (id :: ids, f)

end

/-- The tree under a node, none if it is deeper than `depth`. -/
def toNode? (f : Forest) : Nat → NodeId → Option Node
  | 0, _ => none
  | depth + 1, id =>
    match f.get? id with
    | none => none
    | some cell =>
      match cell.content with
      | .declaration property value => some (.declaration property value)
      | .comment text => some (.comment text)
      | .rule selector => (cell.children.mapM (f.toNode? depth)).map (.rule selector)
      | .atRule name params block =>
        (cell.children.mapM (f.toNode? depth)).map (.atRule name params block)
      | .root => (cell.children.mapM (f.toNode? depth)).map .root

/-- The tree under a node. As no path is longer than the forest is large, there is none only if a
node contains itself. -/
def tree (f : Forest) (id : NodeId) : Except Error Node :=
  match f.toNode? f.size id with
  | some node => .ok node
  | none => .error .cyclic

/-- The nodes under a node in document order, none if they are deeper than `depth`. -/
def descendants? (f : Forest) : Nat → NodeId → Option (List NodeId)
  | 0, _ => none
  | depth + 1, id => do
    let below ← (f.children id).mapM fun child => do
      return child :: (← f.descendants? depth child)
    return below.flatten

/-- The nodes under a node in document order. -/
def descendants (f : Forest) (id : NodeId) : Except Error (List NodeId) :=
  match f.descendants? f.size id with
  | some ids => .ok ids
  | none => .error .cyclic

/-! ## Descriptions -/

/-- A one-line description of a node. The children of a node that is already being described are
left out. -/
def describeWithin (f : Forest) : Nat → List NodeId → NodeId → Text
  | 0, _, _ => "..."
  | depth + 1, outer, id =>
    match f.get? id with
    | none => "..."
    | some cell =>
      let items : Text :=
        if cell.children.isEmpty then "[]"
        else if id ∈ outer then "[...]"
        else "[" ++ Text.joined ", "
          (cell.children.map (f.describeWithin depth (id :: outer))) ++ "]"
      let parts : List Text := match cell.content with
        | .declaration property value => [Text.quote property, Text.quote value]
        | .comment text => [Text.quote text]
        | .rule selector => [Text.quote selector, items]
        | .atRule name params _ => [Text.quote name, Text.quote params, items]
        | .root => [items]
      cell.content.kindName ++ "(" ++ Text.joined ", " parts ++ ")"

/-- A one-line description of a node. No description is deeper than the forest is large. -/
def describe (f : Forest) (id : NodeId) : Text := f.describeWithin (f.size + 1) [] id

end Forest

/-! ## Edits -/

/-- A change of a forest that may fail. -/
abbrev Edit := EStateM Error Forest

namespace Edit

open Forest

/-- Makes a container the parent of a node and takes the node out of its old parent. -/
def adopt (parent child : NodeId) : Edit Unit := do
  let f ← get
  match f.parent? child with
  | some old =>
    if old ≠ parent then
      if child ∈ f.children old then set (f.setChildren old ((f.children old).erase child))
      else throw .childUnlisted
  | none => pure ()
  modify (·.setParent child (some parent))

/-- Puts nodes at the end of a container. -/
def append (parent : NodeId) : List NodeId → Edit Unit
  | [] => pure ()
  | child :: children => do
    adopt parent child
    modify fun f => f.setChildren parent (f.children parent ++ [child])
    append parent children

/-- Makes a container the parent of several nodes. -/
def adoptAll (parent : NodeId) : List NodeId → Edit Unit
  | [] => pure ()
  | child :: children => do
    adopt parent child
    adoptAll parent children

def index (parent node : NodeId) : Edit Nat := do
  let f ← get
  match (f.children parent).idxOf? node with
  | some i => return i
  | none => throw (.childMissing (f.describe node))

/-- Puts nodes where another node stands and detaches that one. -/
def replace (parent old : NodeId) (new : List NodeId) : Edit Unit := do
  let i ← index parent old
  adoptAll parent new
  modify fun f =>
    let children := f.children parent
    f.setChildren parent (children.take i ++ new ++ children.drop (i + 1))
  modify (·.setParent old none)

/-- Puts nodes where a node stands in its parent. -/
def replaceWith (node : NodeId) (new : List NodeId) : Edit Unit := do
  let f ← get
  match f.get? node with
  | some ⟨_, some parent, _⟩ => replace parent node new
  | some ⟨content, none, _⟩ => throw (.parentMissing content.kindName)
  | none => throw (.parentMissing [])

/-- Takes a node out of its parent. -/
def remove (node : NodeId) : Edit Unit := replaceWith node []

/-- A new container with the given nodes as children. -/
def make (content : Content) (children : List NodeId) : Edit NodeId := do
  let (id, f) := (← get).add content
  set f
  append id children
  return id

end Edit

end FluidCss
