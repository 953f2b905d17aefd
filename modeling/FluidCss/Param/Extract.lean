import FluidCss.Number.Numeral
import FluidCss.Param.Value
import FluidCss.Settings
import FluidCss.Utility.Basic

/-!
# What a directive means

The object of a directive gives a scale or a utility. Fields that the directive does not know are
ignored, whatever their value. Where a single value is wanted, a list or an object is an error.
-/

namespace FluidCss.Param

/-- The fields of an object, in order. -/
abbrev Fields := List (Text × Value)

namespace Fields

def get? (fields : Fields) (key : Text) : Option Value := Ordered.get? key fields

/-- The text of a field with a single value. -/
def text? (fields : Fields) (key : Text) : Except Error (Option Text) :=
  match fields.get? key with
  | none => .ok none
  | some (.symbol s) => .ok (some s.text)
  | some _ => .error (.singleValueExpected key)

/-- A flag is set by the word `true` and by nothing else. -/
def flag? (fields : Fields) (key : Text) : Except Error (Option Bool) := do
  return (← fields.text? key).map fun (text : Text) => text == "true"

/-- A width, or `default` if the field is absent. -/
def width (fields : Fields) (key : Text) (default : Number) : Except Error Number := do
  match ← fields.text? key with
  | none => return default
  | some text =>
    match Numeral.number? text with
    | some n => return n
    | none => throw (.numberExpected key text)

end Fields

/-! ## Scales -/

/-- The number that a list item gives; only a single value gives one. -/
def itemNumber? : Value → Option Number
  | .symbol s => Numeral.number? s.text
  | _ => none

/-- The items of a list; any other value counts as a list of itself. -/
def itemsOf : Value → List Value
  | .list items => items
  | value => [value]

/-- A pair takes the first two numbers of its list. Without two numbers there is no pair. -/
def pair? (field : Text × Value) : Option SizePair :=
  match (itemsOf field.2).filterMap itemNumber? with
  | least :: greatest :: _ => some ⟨field.1, least, greatest⟩
  | _ => none

/-- The pairs of an object in order; anything else has no pairs. -/
def pairsOf : Option Value → List SizePair
  | some (.object fields) => fields.filterMap pair?
  | _ => []

/-- The scale that a directive defines. -/
def scaleOf (fields : Fields) (settings : Settings) : Except Error Scale := do
  let pairs := pairsOf (fields.get? "pairs")
  if pairs.isEmpty then throw .scalePairsMissing
  let name ← fields.text? "prefix"
  let crossPairs ← fields.flag? "generateAllCrossPairs"
  let minWidth ← fields.width "minWidth" settings.minWidth
  let maxWidth ← fields.width "maxWidth" settings.maxWidth
  Scale.checked
    ⟨minWidth, maxWidth, name.getD Scale.defaultName, crossPairs.getD settings.crossPairs, pairs⟩

/-! ## Utilities -/

/-- The text of a list item that is a string. -/
def itemString? : Value → Option Text
  | .symbol s => if s.kind = .string then some s.text else none
  | _ => none

/-- A list gives the strings in it, a single value itself. -/
def propertyOf (fields : Fields) : Except Error (Option Utility.Property) :=
  match fields.get? "property" with
  | some (.list items) => .ok (some (.several (items.filterMap itemString?)))
  | _ => do return (← fields.text? "property").map Utility.Property.single

/-- The utility that a directive asks for. -/
def utilityOf (fields : Fields) : Except Error Utility := do
  let property ← propertyOf fields
  let selector ← fields.text? "selector"
  let attributeName ← fields.text? "attribute"
  let scale ← fields.text? "scale"
  let crossPairs ← fields.flag? "generateAllCrossPairs"
  let lowSpecificity ← fields.flag? "lowSpecificity"
  return ⟨selector, attributeName, property, scale, crossPairs, lowSpecificity⟩

end FluidCss.Param
