import FluidCss.Inline
import FluidCss.Run.Directive

/-!
# Processing as a function on trees

What a run does to the nodes of a style sheet, said without a forest: nodes are taken in document
order, each gives a list of nodes in its place, and the registry is handed on from one to the next,
also from one style sheet to the next.
-/

namespace FluidCss.Fold

/-- A directive gives what it stands for; one that is not known stays with all that is in it. -/
def directive (settings : Settings) (registry : Registry) (params : Text) (self : Node) :
    Except Error (Registry × List Node) :=
  match Directive.ofParams params with
  | .scale => do
    let (scale, entries) ← Directive.readScale settings params
    return (registry.register scale.name entries, Directive.scaleNodes scale.name entries)
  | .utility => do
    let (_, rules) ← Directive.readUtility settings registry params
    return (registry, Directive.utilityNodes rules)
  | .unknown => .ok (registry, [self])

mutual

/-- What takes the place of a node, and the registry after it. -/
def node (settings : Settings) (registry : Registry) : Node → Except Error (Registry × List Node)
  | .declaration property value => do
    let new ← Inline.resolve settings.minWidth settings.maxWidth value
    return (registry, [.declaration property new])
  | .comment text => .ok (registry, [.comment text])
  | .rule selector children => do
    let (registry, children) ← nodes settings registry children
    return (registry, [.rule selector children])
  | .atRule name params block children =>
    if name = Directive.atName then
      directive settings registry params (.atRule name params block children)
    else do
      let (registry, children) ← nodes settings registry children
      return (registry, [.atRule name params block children])
  | .root children => .ok (registry, [.root children])

def nodes (settings : Settings) (registry : Registry) :
    List Node → Except Error (Registry × List Node)
  | [] => .ok (registry, [])
  | n :: ns => do
    let (registry, first) ← node settings registry n
    let (registry, others) ← nodes settings registry ns
    return (registry, first ++ others)

end

/-- What becomes of a container whose children are worked on. -/
def sheet (settings : Settings) (registry : Registry) : Node → Except Error (Registry × Node)
  | .rule selector children => do
    let (registry, children) ← nodes settings registry children
    return (registry, .rule selector children)
  | .atRule name params block children => do
    let (registry, children) ← nodes settings registry children
    return (registry, .atRule name params block children)
  | .root children => do
    let (registry, children) ← nodes settings registry children
    return (registry, .root children)
  | leaf => .ok (registry, leaf)

/-- What becomes of the registry and of several trees, when some of them are worked on in turn. -/
def sheets {ι : Type} [DecidableEq ι] (settings : Settings) :
    Registry → (ι → Node) → List ι → Except Error (Registry × (ι → Node))
  | registry, trees, [] => .ok (registry, trees)
  | registry, trees, i :: is => do
    let (registry, tree) ← sheet settings registry (trees i)
    sheets settings registry (fun j => if j = i then tree else trees j) is

end FluidCss.Fold
