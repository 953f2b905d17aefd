import FluidCss.Error
import FluidCss.Length

/-!
# Fluid values

A size that grows with the viewport follows the line through (least width, least size) and
(greatest width, greatest size), and is held fast at both ends:

    slope     = (maxSize - minSize) / (maxWidth - minWidth)
    intercept = -minWidth * slope + minSize

If the two sizes are equal there is nothing to interpolate, and the widths do not matter.
-/

namespace FluidCss

/-- A fluid value in printed precision. -/
inductive Fluid where
  | static (size : Fixed)
  | clamp (least slope intercept greatest : Fixed)
  deriving DecidableEq

namespace Fluid

/-- The text of a fluid value: a length alone, or a clamp of three. -/
def text : Fluid → Text
  | static size => Length.remText size
  | clamp least slope intercept greatest =>
    "clamp(" ++ Length.remText least ++ ", " ++ Length.vwText slope ++ " + " ++
      Length.remText intercept ++ ", " ++ Length.remText greatest ++ ")"

/-- Demands that the minimum is below the maximum. A not-a-number passes. -/
def checkOrder (quantity : Text) (least greatest : Number) : Except Error Unit :=
  if least.ge greatest then .error (.range quantity least greatest) else .ok ()

/-- The slope and the intercept of the line through the two points. -/
def line (minSize maxSize minWidth maxWidth : Number) :
    Except ArithmeticError (Number × Number) := do
  let rise ← maxSize.sub minSize
  let run ← maxWidth.sub minWidth
  let slope ← rise.div run
  let intercept ← (← minWidth.neg.mul slope).add minSize
  return (slope, intercept)

/-- The line can be printed: neither its slope in hundredths nor its intercept is infinite. -/
def isPrintable (slope intercept : Number) : Except ArithmeticError Bool := do
  if ← (← slope.mul 100).isFinite then intercept.isFinite else return false

/-- The parts of a clamp in printed precision. -/
def rounded (minSize maxSize slope intercept : Number) : Except ArithmeticError Fluid := do
  let least ← Length.rems minSize
  let share ← Length.viewportShare slope
  let offset ← Length.rems intercept
  let greatest ← Length.rems maxSize
  return .clamp least share offset greatest

/-- The fluid value between two sizes over a range of widths. The sizes are checked before the
widths. -/
def between (minSize maxSize minWidth maxWidth : Number) : Except Error Fluid := do
  if minSize.same maxSize then
    return .static (← Error.ofArithmetic (Length.rems minSize))
  checkOrder "size" minSize maxSize
  checkOrder "width" minWidth maxWidth
  let (slope, intercept) ← Error.ofArithmetic (line minSize maxSize minWidth maxWidth)
  if ← Error.ofArithmetic (isPrintable slope intercept) then
    Error.ofArithmetic (rounded minSize maxSize slope intercept)
  else
    throw (.lineOutOfRange minSize maxSize minWidth maxWidth)

end Fluid

/-- The text of the fluid value between two sizes over a range of widths. -/
def fluidText (minSize maxSize minWidth maxWidth : Number) : Except Error Text :=
  (Fluid.between minSize maxSize minWidth maxWidth).map Fluid.text

end FluidCss
