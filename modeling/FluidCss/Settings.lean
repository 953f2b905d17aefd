import FluidCss.Scale.Basic

/-!
# Settings of a run

The viewport widths and flags that hold where a directive or an inline call gives none, and the
scales that every run starts with.
-/

namespace FluidCss

/-- What holds for a whole run. -/
structure Settings where
  minWidth : Number
  maxWidth : Number
  crossPairs : Bool
  lowSpecificity : Bool
  /-- The scales that are registered before a style sheet is processed, by name. -/
  scales : List (Text × Scale)
  deriving DecidableEq

def Settings.default : Settings := ⟨320, 1760, false, false, []⟩

end FluidCss
