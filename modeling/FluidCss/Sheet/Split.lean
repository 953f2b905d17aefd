import FluidCss.Component.Basic
import FluidCss.Error
import FluidCss.Sheet.Node
import FluidCss.Text.Blank

/-!
# Statements of a style sheet

The component values of a block are divided into statements. A statement that begins with an at-sign
and a name is an at-rule; any other that ends in a block in curly brackets is a rule; and one that
ends at a semicolon or with the block around it is a declaration, with its first colon between
property and value. Selectors, parameters and values are cut out of the text as they stand there,
without the blanks around them.
-/

namespace FluidCss.Sheet

/-! ## Cutting texts out -/

/-- The text between two offsets without the blanks at its ends. -/
def slice (text : Text) (start stop : Nat) : Text :=
  Text.trim ((text.drop start).take (stop - start))

/-- The text from the first of some components up to an offset. -/
def sliceFrom (text : Text) (components : List Component) (stop : Nat) : Text :=
  match components with
  | [] => []
  | c :: _ => slice text c.start stop

/-- Where the content of a block ends, found from what follows the block in the block around it:
a closing bracket just before that is taken for the block's own. -/
def contentEnd (text : Text) (following : List Component) (stop : Nat) : Nat :=
  let after := match following with
    | c :: _ => c.start
    | [] => stop
  if after ≠ 0 ∧ text[after - 1]? = some (.char '}') then after - 1 else after

/-! ## Statements -/

def isLiteral (text : Text) : Component → Bool
  | .leaf _ (.literal t) => t == text
  | _ => false

/-- The name of an at-rule that begins with these components, and the components after it. -/
def atKeyword? : List Component → Option (Text × List Component)
  | .leaf _ (.atKeyword name) :: rest => some (name, rest)
  | _ => none

/-- What is no statement. -/
def notStatement (text : Text) (components : List Component) (stop : Nat) : Error :=
  let start := match components with
    | c :: _ => c.start
    | [] => stop
  .statementExpected (Location.ofOffset text start) (sliceFrom text components stop)

/-- The declaration made of some components, which needs a property and a colon. -/
def declarationOf (text : Text) (components : List Component) (stop : Nat) :
    Except Error Node :=
  match components.dropWhile fun c => !isLiteral ":" c with
  | [] => .error (notStatement text components stop)
  | colon :: after =>
    let property :=
      sliceFrom text (components.takeWhile fun c => !isLiteral ":" c) colon.start
    if property.isEmpty then .error (notStatement text components stop)
    else .ok (.declaration property (sliceFrom text after stop))

/-- The node of a statement that does not end in a block. -/
def statementOf (text : Text) (components : List Component) (stop : Nat) :
    Except Error Node :=
  match atKeyword? components with
  | some (name, rest) => .ok (.atRule name (sliceFrom text rest stop) false [])
  | none => declarationOf text components stop

/-- The node of a statement that ends in a block with the given children. -/
def blockOf (text : Text) (components : List Component) (stop : Nat)
    (children : List Node) : Node :=
  match atKeyword? components with
  | some (name, rest) => .atRule name (sliceFrom text rest stop) true children
  | none => .rule (sliceFrom text components stop) children

/-! ## Blocks -/

/-- What a component means where statements are divided. -/
inductive Role where
  | fault (fault : Fault)
  | space
  | comment (text : Text)
  | semicolon
  | block
  | other
  deriving DecidableEq

/-- The role of a component between statements. -/
def roleOf : Component → Role
  | .fault _ f => .fault f
  | .leaf _ .space => .space
  | .leaf _ (.comment text _) => .comment text
  | .leaf _ (.literal text) => if text = ";" then .semicolon else .other
  | .block _ .curly _ _ => .block
  | _ => .other

mutual

/-- The nodes inside a block whose content ends at `stop`. -/
def childrenOf (text : Text) (stop : Nat) : Component → Except Error (List Node)
  | .block _ _ content _ => nodesOf text stop [] content
  | _ => .ok []

/-- The nodes of a block that ends at `stop`; `pending` is the statement begun before. -/
def nodesOf (text : Text) (stop : Nat) (pending : List Component) :
    List Component → Except Error (List Node)
  | [] => if pending.isEmpty then .ok [] else do return [← statementOf text pending stop]
  | c :: cs =>
    match roleOf c, pending with
    | .fault f, _ => .error (.sheetFault f (Location.ofOffset text c.start))
    | .space, [] => nodesOf text stop [] cs
    | .comment t, [] => do return .comment t :: (← nodesOf text stop [] cs)
    | .semicolon, [] => nodesOf text stop [] cs
    | .semicolon, p :: ps => do
      let node ← statementOf text (p :: ps) c.start
      return node :: (← nodesOf text stop [] cs)
    | .block, pending => do
      let children ← childrenOf text (contentEnd text cs stop) c
      let node := blockOf text pending c.start children
      return node :: (← nodesOf text stop [] cs)
    | _, pending => nodesOf text stop (pending ++ [c]) cs

end

def parse (source : Text) : Except Error (List Node) := do
  let text := normalize source
  nodesOf text text.length [] (← Component.ofText text)

def css (nodes : List Node) : Text := (Node.root nodes).css 0

end FluidCss.Sheet
