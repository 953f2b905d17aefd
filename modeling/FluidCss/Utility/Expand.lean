import FluidCss.Registry
import FluidCss.Settings
import FluidCss.Utility.Basic

/-!
# Expanded utilities

A utility is checked in a fixed order, and the first thing that is wrong is reported: the attribute,
the lack of a selector, of a property or of a scale, and last the name of the scale. Its rules come
in the order of the entries.
-/

namespace FluidCss.Utility

/-- A code point of an attribute name. -/
def isAttributePart (p : CodePoint) : Bool := p.isLetter || p.isDigit || p == '_' || p == '-'

/-- An attribute that is given must be a name. -/
def checkAttribute : Option Text → Except Error Unit
  | none => .ok ()
  | some name =>
    if name.isEmpty then .error .attributeEmpty
    else if name.all isAttributePart then .ok ()
    else .error .attributeMalformed

/-- The entries of the scale that a utility refers to, if the utility is in order. -/
def checkedEntries (u : Utility) (registry : Registry) : Except Error (List Scale.Entry) := do
  checkAttribute u.attributeName
  if (given u.selector).isNone && (given u.attributeName).isNone then throw .selectorMissing
  if u.properties.isEmpty then throw .propertyMissing
  match given u.scale with
  | none => throw .scaleMissing
  | some name =>
    match registry.get? name with
    | some entries => return entries
    | none => throw (.scaleUnknown name)

/-- The entries that a utility takes: those that come from two pairs only if asked for. -/
def chosen (crossPairs : Bool) (entries : List Scale.Entry) : List Scale.Entry :=
  if crossPairs then entries else entries.filter fun e => !e.isCrossPair

/-- The rule for one entry, with every property in order. -/
def ruleFor (u : Utility) (low : Bool) (entry : Scale.Entry) : GeneratedRule :=
  let kind := u.selectorKind
  ⟨u.selectorFor kind low entry.label, u.properties.map fun p => (p, u.valueFor kind entry)⟩

/-- The rules of a utility; the flags that it does not give come from the settings. -/
def expand (u : Utility) (registry : Registry) (settings : Settings) :
    Except Error (List GeneratedRule) := do
  let entries ← u.checkedEntries registry
  let low := u.lowSpecificity.getD settings.lowSpecificity
  let crossPairs := u.crossPairs.getD settings.crossPairs
  return (chosen crossPairs entries).map (u.ruleFor low)

end FluidCss.Utility
