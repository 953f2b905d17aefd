import FluidCss.Ordered
import FluidCss.Scale.Compile

/-!
# Registered scales

A run knows its scales by name, in the order in which the names were first registered. Registering
a name again replaces its entries.
-/

namespace FluidCss

/-- Compiled scales under their names. -/
structure Registry where
  /-- The entries under each name. -/
  scales : List (Text × List Scale.Entry)
  deriving DecidableEq

namespace Registry

def empty : Registry := ⟨[]⟩

/-- Adds a scale, or replaces the one of that name where it stands. -/
def register (r : Registry) (name : Text) (entries : List Scale.Entry) : Registry :=
  ⟨Ordered.put name entries r.scales⟩

def get? (r : Registry) (name : Text) : Option (List Scale.Entry) := Ordered.get? name r.scales

def contains (r : Registry) (name : Text) : Bool := (r.get? name).isSome

/-- The names of the scales, in the order in which they came. -/
def names (r : Registry) : List Text := r.scales.map Prod.fst

/-- The number of scales. -/
def size (r : Registry) : Nat := r.scales.length

/-- A registry with given entries; of a name that occurs twice the last entries count. -/
def ofList (scales : List (Text × List Scale.Entry)) : Registry := ⟨Ordered.ofList scales⟩

/-- A registry with the compiled scales under the given keys. -/
def ofScales (scales : List (Text × Scale)) : Except Error Registry := do
  return ⟨← (Ordered.ofList scales).mapM fun (key, scale) => do return (key, ← scale.compile)⟩

@[simp] theorem get?_register_self (r : Registry) (name : Text) (entries : List Scale.Entry) :
    (r.register name entries).get? name = some entries :=
  Ordered.get?_put_self name entries r.scales

theorem get?_register_of_ne {name other : Text} (h : other ≠ name) (r : Registry)
    (entries : List Scale.Entry) : (r.register name entries).get? other = r.get? other :=
  Ordered.get?_put_of_ne h entries r.scales

end Registry

end FluidCss
