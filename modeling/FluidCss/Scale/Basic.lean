import FluidCss.Error

/-!
# Scales

A scale is a named list of size pairs over a range of viewport widths. Compiling it gives entries,
each a label with the text of a value. Pairs keep the order in which they are defined.
-/

namespace FluidCss

/-- A named pair of sizes in pixels. Whether the first is below the second is checked when the
value between them is worked out. -/
structure SizePair where
  name : Text
  least : Number
  greatest : Number
  deriving DecidableEq

/-- Named pairs of sizes between two widths. -/
structure Scale where
  /-- The width at which every pair is at its least size. -/
  minWidth : Number
  /-- The width at which every pair is at its greatest size. -/
  maxWidth : Number
  /-- The name under which the scale is registered and its custom properties begin. -/
  name : Text
  /-- Whether each two pairs give one more entry. -/
  crossPairs : Bool
  pairs : List SizePair
  deriving DecidableEq

namespace Scale

/-- The name of a scale that gives itself none. -/
def defaultName : Text := "space"

/-- A scale must have a name. -/
def checked (scale : Scale) : Except Error Scale :=
  if scale.name.isEmpty then .error .scaleNameEmpty else .ok scale

/-- One labelled value of a compiled scale. -/
structure Entry where
  label : Text
  /-- A length or a clamp, as text. -/
  rendered : Text
  deriving DecidableEq

/-- A hyphen in the label is the only mark of an entry that comes from two pairs. -/
def Entry.isCrossPair (entry : Entry) : Bool := entry.label.contains '-'

/-- The custom property under which an entry is published. -/
def propertyName (scale label : Text) : Text := "--" ++ scale ++ "-" ++ label

end Scale

end FluidCss
