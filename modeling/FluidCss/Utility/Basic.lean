import FluidCss.Scale.Basic

/-!
# Utilities

A utility gives one rule for every entry of a scale. Its selector carries the label of the entry in
one of three ways: as the value of an attribute, after the nesting mark that ends the selector, or
at the end of the selector.
-/

namespace FluidCss

/-- The properties that a utility sets, as they were given. -/
inductive Utility.Property where
  | single (name : Text)
  | several (names : List Text)
  deriving DecidableEq

/-- The parameters of a utility. What is not given may be checked, or taken from the settings. -/
structure Utility where
  selector : Option Text
  attributeName : Option Text
  property : Option Utility.Property
  scale : Option Text
  crossPairs : Option Bool
  lowSpecificity : Option Bool
  deriving DecidableEq

/-- A selector with declarations, each a property and a value. -/
structure GeneratedRule where
  selector : Text
  declarations : List (Text × Text)
  deriving DecidableEq

namespace Utility

/-- The names of the properties in order, empty ones left out. -/
def properties (u : Utility) : List Text :=
  (match u.property with
    | none => []
    | some (.single name) => [name]
    | some (.several names) => names).filter fun name => !name.isEmpty

/-- A text that is given and not empty. -/
def given (text : Option Text) : Option Text := text.filter fun t => !t.isEmpty

/-! ## Selectors -/

/-- How the selector carries the label. -/
inductive SelectorKind where
  | attributeValue
  | parentContext
  | pattern
  deriving DecidableEq

def SelectorKind.name : SelectorKind → Text
  | attributeValue => "attribute"
  | parentContext => "parent_context"
  | pattern => "pattern"

/-- The selector without the nesting mark at its end, if a space and the mark end it. -/
def parentContext? (selector : Text) : Option Text :=
  match selector.reverse with
  | .char '&' :: .char ' ' :: front => some (front.reverse ++ " ")
  | _ => none

/-- An attribute is preferred to a selector. -/
def selectorKind (u : Utility) : SelectorKind :=
  if (given u.attributeName).isSome then .attributeValue
  else if (u.selector.bind parentContext?).isSome then .parentContext
  else .pattern

/-- Takes the specificity away from a selector if asked for. -/
def wrap (low : Bool) (selector : Text) : Text :=
  if low then ":where(" ++ selector ++ ")" else selector

/-- The selector for one label. In a parent context only the part with the label is wrapped. -/
def selectorFor (u : Utility) (kind : SelectorKind) (low : Bool) (label : Text) : Text :=
  let selector := u.selector.getD []
  match kind with
  | .attributeValue =>
    wrap low (selector ++ "[" ++ u.attributeName.getD [] ++ "=\"" ++ label ++ "\"]")
  | .parentContext =>
    selector.dropLast ++ wrap low ("&-" ++ label)
  | .pattern => wrap low (selector ++ "-" ++ label)

/-- The value for one entry: with an attribute it refers to the custom property, otherwise it is
the entry's own. -/
def valueFor (u : Utility) (kind : SelectorKind) (entry : Scale.Entry) : Text :=
  match kind with
  | .attributeValue => "var(" ++ Scale.propertyName (u.scale.getD []) entry.label ++ ")"
  | .parentContext | .pattern => entry.rendered

end Utility

end FluidCss
