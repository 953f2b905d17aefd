import FluidCss.Clamp
import FluidCss.Scale.Basic

/-!
# Compiled scales

Every pair gives one entry. With cross pairs, every two of them give one more, from the least size
of the lower pair to the greatest size of the other, where the lower pair is the one with the
smaller least size, and the earlier one if they agree.
-/

namespace FluidCss.Scale

/-- Every two elements of a list, the earlier one first, in the order of their places. -/
def couples {α : Type} : List α → List (α × α)
  | [] => []
  | a :: as => as.map (a, ·) ++ couples as

/-- Puts the pair with the smaller least size first. -/
def lowerFirst : SizePair × SizePair → SizePair × SizePair
  | (a, b) => if b.least.lt a.least then (b, a) else (a, b)

def pairEntry (minWidth maxWidth : Number) (pair : SizePair) : Except Error Entry := do
  return ⟨pair.name, ← fluidText pair.least pair.greatest minWidth maxWidth⟩

def crossEntry (minWidth maxWidth : Number) (couple : SizePair × SizePair) :
    Except Error Entry := do
  let (lower, upper) := lowerFirst couple
  return ⟨lower.name ++ "-" ++ upper.name,
    ← fluidText lower.least upper.greatest minWidth maxWidth⟩

/-- The entries of the pairs in their order, then those of every two pairs if asked for. -/
def entriesOf (pairs : List SizePair) (minWidth maxWidth : Number) (crossPairs : Bool) :
    Except Error (List Entry) := do
  let base ← pairs.mapM (pairEntry minWidth maxWidth)
  let cross ← if crossPairs then (couples pairs).mapM (crossEntry minWidth maxWidth) else pure []
  return base ++ cross

def compile (scale : Scale) : Except Error (List Entry) :=
  entriesOf scale.pairs scale.minWidth scale.maxWidth scale.crossPairs

end FluidCss.Scale
