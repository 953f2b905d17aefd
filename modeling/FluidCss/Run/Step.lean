import FluidCss.Inline
import FluidCss.Run.Directive
import FluidCss.Run.Record
import FluidCss.Sheet.Forest
import FluidCss.Sheet.Split

/-!
# Processing style sheets

A run works on the nodes of its style sheets in document order: directives are replaced by what they
stand for, and the values of declarations have their inline calls resolved. Scales that one sheet
defines are known to the sheets after it. The first error ends the work on a sheet, and what was
done before it stays done.
-/

namespace FluidCss

/-- What a run has come to. -/
structure Run where
  registry : Registry
  forest : Forest
  /-- The records so far, the latest first. -/
  log : List Record
  deriving DecidableEq

/-- A step of a run; a step that fails keeps what it has changed. -/
abbrev Step := EStateM Error Run

namespace Run

def empty : Run := ⟨.empty, .empty, []⟩

/-- The records in the order in which they were made. -/
def records (run : Run) : List Record := run.log.reverse

/-- An edit of the forest of the run. -/
def edit {α : Type} (e : Edit α) : Step α := fun run =>
  match e run.forest with
  | .ok a f => .ok a { run with forest := f }
  | .error err f => .error err { run with forest := f }

/-- A computation that does not touch the run. -/
def check {α : Type} : Except Error α → Step α
  | .ok a => pure a
  | .error e => throw e

def note (r : Record) : Step Unit := modify fun run => { run with log := r :: run.log }

/-- Adds trees to the forest, without a parent. -/
def plant (nodes : List Node) : Step (List NodeId) := fun run =>
  let (ids, f) := run.forest.plantAll none nodes
  .ok ids { run with forest := f }

/-- Compiles the scales of the settings and registers them under their keys. -/
def seed : List (Text × Scale) → Step Unit
  | [] => pure ()
  | (key, scale) :: scales => do
    let entries ← check scale.compile
    note (.scaleCompiled scale entries)
    modify fun run => { run with registry := run.registry.register key entries }
    seed scales

/-! ## Single nodes -/

/-- Replaces a directive by the custom properties of the scale that it defines. The scale is
registered first. -/
def processScale (settings : Settings) (id : NodeId) (params : Text) : Step Unit := do
  let (scale, entries) ← check (Directive.readScale settings params)
  note (.scaleCompiled scale entries)
  modify fun run => { run with registry := run.registry.register scale.name entries }
  note (.scaleRegistered scale entries)
  let new ← plant (Directive.scaleNodes scale.name entries)
  edit (Edit.replaceWith id new)

/-- Replaces a directive by the rules of the utility that it asks for. -/
def processUtility (settings : Settings) (id : NodeId) (params : Text) : Step Unit := do
  let (utility, rules) ← check (Directive.readUtility settings (← get).registry params)
  note (.utilityExpanded utility rules)
  let new ← plant (Directive.utilityNodes rules)
  edit (Edit.replaceWith id new)

/-- A directive that is neither a scale nor a utility stays as it is. -/
def processDirective (settings : Settings) (id : NodeId) (params : Text) : Step Unit :=
  match Directive.ofParams params with
  | .scale => processScale settings id params
  | .utility => processUtility settings id params
  | .unknown => note (.directiveIgnored params)

/-- Resolves the inline calls in the value of a declaration. -/
def processDeclaration (settings : Settings) (id : NodeId) (property value : Text) :
    Step Unit := do
  (Inline.replacements settings.minWidth settings.maxWidth value).forM fun r =>
    note (.callResolved r.call r.result)
  let new ← check (Inline.resolve settings.minWidth settings.maxWidth value)
  modify fun run =>
    { run with forest := run.forest.setContent id (.declaration property new) }

/-! ## Trees -/

/-- Processes one node; `below` processes what is in a container. -/
def visit (settings : Settings) (below : NodeId → Step Unit) (id : NodeId) : Step Unit := do
  match (← get).forest.get? id with
  | some ⟨.atRule name params _, _, _⟩ =>
    if name = Directive.atName then processDirective settings id params else below id
  | some ⟨.rule _, _, _⟩ => below id
  | some ⟨.declaration property value, _, _⟩ => processDeclaration settings id property value
  | _ => pure ()

/-- Processes the children that a container has when its turn comes. A container nested deeper than
`depth` contains itself. -/
def processChildren (settings : Settings) : Nat → NodeId → Step Unit
  | 0, _ => throw .cyclic
  | depth + 1, id => do
    ((← get).forest.children id).forM (visit settings (processChildren settings depth))

/-- Processes the tree under a container. -/
def process (settings : Settings) (id : NodeId) : Step Unit := do
  processChildren settings ((← get).forest.size + 1) id

/-! ## Style sheets -/

/-- Adds a style sheet to the forest. -/
def load (source : Text) : Step NodeId := do
  let nodes ← check (Sheet.parse source)
  let (id, f) := (← get).forest.plant none (.root nodes)
  modify fun run => { run with forest := f }
  return id

/-- The text of a style sheet as it is now. -/
def css (run : Run) (id : NodeId) : Except Error Text := (run.forest.tree id).map (Node.css 0)

/-- Reads and processes a style sheet and gives its text. -/
def processSheet (settings : Settings) (source : Text) : Step Text := do
  let id ← load source
  process settings id
  check ((← get).css id)

end Run

/-- The outcome of a step apart from the run. -/
def Step.outcome {α : Type} (p : Step α) (run : Run) : Except Error α :=
  match p run with
  | .ok a _ => .ok a
  | .error e _ => .error e

/-- The run after a step, successful or not. -/
def Step.after {α : Type} (p : Step α) (run : Run) : Run :=
  match p run with
  | .ok _ run | .error _ run => run

/-- Compiles one style sheet in a run of its own. The sheet is read before the scales of the
settings are compiled. -/
def processCss (settings : Settings) (source : Text) : Except Error Text :=
  Step.outcome (do
    let id ← Run.load source
    Run.seed settings.scales
    Run.process settings id
    Run.check ((← get).css id)) Run.empty

end FluidCss
