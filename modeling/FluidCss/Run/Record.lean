import FluidCss.Text.Quoted
import FluidCss.Utility.Basic

/-!
# The log of a run

A run records what it does, for those who ask for it. A record holds what came of a step, and its
line tells of it in short. -/

namespace FluidCss

/-- Something that happened in a run. -/
inductive Record where
  | settingsLoading (file : Text)
  | scaleCompiled (scale : Scale) (entries : List Scale.Entry)
  | scaleRegistered (scale : Scale) (entries : List Scale.Entry)
  | directiveIgnored (params : Text)
  | utilityExpanded (utility : Utility) (rules : List GeneratedRule)
  | callResolved (call result : Text)
  | outputWritten (characters : Nat) (file : Text)
  deriving DecidableEq

namespace Record

open Text (quote)

/-- The part of the program that speaks, and what it says. -/
def parts : Record → Text × Text
  | settingsLoading file => ("config", "Loading ruler config from " ++ file)
  | scaleCompiled scale entries =>
    ("scale",
      "Compiled scale " ++ quote scale.name ++ ": " ++ toString entries.length ++ " entries")
  | scaleRegistered scale entries =>
    ("processor",
      "Registered scale " ++ quote scale.name ++ " (" ++ toString entries.length ++ " entries)")
  | directiveIgnored params =>
    ("processor", "Ignoring unrecognized @ruler directive: " ++ quote params)
  | utilityExpanded utility rules =>
    ("utility", "Expanded utility on scale " ++ quote (utility.scale.getD []) ++ " (" ++
      utility.selectorKind.name ++ " selector): " ++ toString rules.length ++ " rules")
  | callResolved call result => ("fluid", "Rewrote " ++ call ++ " -> " ++ result)
  | outputWritten n file => ("cli", "Wrote " ++ toString n ++ " bytes to " ++ file)

def line (r : Record) : Text := "DEBUG ruler." ++ r.parts.1 ++ ": " ++ r.parts.2

end Record

end FluidCss
