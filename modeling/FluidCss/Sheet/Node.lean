import FluidCss.Text.Basic

/-!
# Style sheet nodes

A style sheet is a tree of declarations, comments, rules and at-rules. It is written with one
statement a line and four spaces for each level of nesting.
-/

namespace FluidCss

/-- A statement of a style sheet, or the whole of one. -/
inductive Node where
  | declaration (property value : Text)
  | comment (text : Text)
  | rule (selector : Text) (children : List Node)
  /-- `block` tells an at-rule with an empty block from one that ends in a semicolon. -/
  | atRule (name params : Text) (block : Bool) (children : List Node)
  /-- The whole of a style sheet. -/
  | root (children : List Node)

namespace Node

def indent (depth : Nat) : Text := List.replicate (4 * depth) (.char ' ')

def joinLines (lines : List Text) : Text := Text.joined "\n" lines

/-- A block around the lines `inner`, which may be none. -/
def blockCss (depth : Nat) (inner : Text) : Text :=
  if inner.isEmpty then "\x7b\n" ++ indent depth ++ "\x7d"
  else "\x7b\n" ++ inner ++ "\n" ++ indent depth ++ "\x7d"

/-- What stands before the block of an at-rule. -/
def atHead (depth : Nat) (name params : Text) : Text :=
  indent depth ++ "@" ++ name ++ (if params.isEmpty then [] else " " ++ params : Text)

mutual

/-- The text of a node at a depth of nesting. -/
def css (depth : Nat) : Node → Text
  | declaration property value => indent depth ++ property ++ ": " ++ value ++ ";"
  | comment text => indent depth ++ "/*" ++ text ++ "*/"
  | rule selector children =>
    indent depth ++ selector ++ " " ++ blockCss depth (joinLines (cssAll (depth + 1) children))
  | atRule name params block children =>
    if block then
      atHead depth name params ++ " " ++ blockCss depth (joinLines (cssAll (depth + 1) children))
    else atHead depth name params ++ ";"
  | root children => joinLines (cssAll depth children)

def cssAll (depth : Nat) : List Node → List Text
  | [] => []
  | node :: nodes => css depth node :: cssAll depth nodes

end

/-! ## Equality -/

mutual

/-- Nodes with the same texts and the same children. -/
def same : Node → Node → Bool
  | declaration p v, declaration q w => p = q && v = w
  | comment s, comment t => s = t
  | rule s ms, rule t ns => s = t && sameAll ms ns
  | atRule a p b ms, atRule c q d ns => a = c && p = q && b = d && sameAll ms ns
  | root ms, root ns => sameAll ms ns
  | _, _ => false

def sameAll : List Node → List Node → Bool
  | [], [] => true
  | m :: ms, n :: ns => same m n && sameAll ms ns
  | _, _ => false

end

mutual

theorem same_iff : ∀ m n : Node, same m n = true ↔ m = n
  | declaration .., n => by cases n <;> simp [same]
  | comment _, n => by cases n <;> simp [same]
  | rule _ ms, n => by cases n <;> simp [same, sameAll_iff ms]
  | atRule _ _ _ ms, n => by cases n <;> simp [same, sameAll_iff ms, and_assoc]
  | root ms, n => by cases n <;> simp [same, sameAll_iff ms]

theorem sameAll_iff : ∀ ms ns : List Node, sameAll ms ns = true ↔ ms = ns
  | [], ns => by cases ns <;> simp [sameAll]
  | m :: ms, ns => by cases ns <;> simp [sameAll, same_iff m, sameAll_iff ms]

end

instance : DecidableEq Node := fun m n => decidable_of_iff _ (same_iff m n)

end Node

end FluidCss
