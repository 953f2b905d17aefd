import FluidCss.Param.Extract
import FluidCss.Sheet.Node
import FluidCss.Utility.Expand

/-!
# Directives

An at-rule of the directive name defines a scale or asks for a utility, as the start of its
parameters tells. A scale becomes one custom property for every entry, a utility becomes its rules.
-/

namespace FluidCss

inductive Directive where
  | scale
  | utility
  | unknown
  deriving DecidableEq

namespace Directive

/-- The name of the at-rules that are directives. -/
def atName : Text := "ruler"

/-- The blanks before the parameters do not matter here. -/
def ofParams (params : Text) : Directive :=
  let t := Text.trimStart params
  if List.isPrefixOf ("scale(" : Text) t then .scale
  else if List.isPrefixOf ("utility(" : Text) t then .utility
  else .unknown

theorem ofParams_eq_scale_iff {params : Text} :
    ofParams params = .scale ↔ ("scale(" : Text) <+: Text.trimStart params := by
  rw [← List.isPrefixOf_iff_prefix, ofParams]
  split
  · rename_i hscale
    exact iff_of_true rfl hscale
  · rename_i hscale
    refine iff_of_false ?_ hscale
    split <;> nofun

/-- No text begins with both names. -/
theorem not_scale_of_utility {t : Text} (h : ("utility(" : Text) <+: t) :
    ¬("scale(" : Text) <+: t := by
  intro hscale
  obtain ⟨others, rfl⟩ := h
  obtain ⟨rest, heq⟩ := hscale
  cases congrArg List.head? heq

theorem ofParams_eq_utility_iff {params : Text} :
    ofParams params = .utility ↔ ("utility(" : Text) <+: Text.trimStart params := by
  constructor
  · intro h
    rw [ofParams] at h
    split at h
    · cases h
    split at h
    · rename_i hutility
      exact List.isPrefixOf_iff_prefix.1 hutility
    · cases h
  · intro h
    have hscale := not_scale_of_utility h
    rw [← List.isPrefixOf_iff_prefix] at h hscale
    rw [ofParams, if_neg hscale, if_pos h]

theorem ofParams_eq_unknown_iff {params : Text} : ofParams params = .unknown ↔
    ¬("scale(" : Text) <+: Text.trimStart params ∧
      ¬("utility(" : Text) <+: Text.trimStart params := by
  rw [← ofParams_eq_scale_iff, ← ofParams_eq_utility_iff]
  cases ofParams params <;> simp

/-- The scale that a directive defines, with its entries. -/
def readScale (settings : Settings) (params : Text) :
    Except Error (Scale × List Scale.Entry) := do
  let fields ← Param.Value.readDirective "scale" params
  let scale ← Param.scaleOf fields settings
  return (scale, ← scale.compile)

/-- The utility that a directive asks for, with its rules. -/
def readUtility (settings : Settings) (registry : Registry) (params : Text) :
    Except Error (Utility × List GeneratedRule) := do
  let fields ← Param.Value.readDirective "utility" params
  let utility ← Param.utilityOf fields
  return (utility, ← utility.expand registry settings)

/-- One custom property for every entry. -/
def scaleNodes (scale : Text) (entries : List Scale.Entry) : List Node :=
  entries.map fun e => .declaration (Scale.propertyName scale e.label) e.rendered

def utilityNodes (rules : List GeneratedRule) : List Node :=
  rules.map fun r => .rule r.selector (r.declarations.map fun (p, v) => .declaration p v)

end Directive

end FluidCss
