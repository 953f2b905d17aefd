import FluidCss.Number.Basic

/-!
# Lengths

Sizes come in as pixels and are printed relative to the root font size of sixteen pixels. A slope,
in pixels per pixel of viewport width, is printed in hundredths of the viewport width.
-/

namespace FluidCss.Length

/-- The pixels of one rem. -/
def pixelsPerRem : Number := 16

/-- A size in pixels as a number of rems. -/
def rems (pixels : Number) : Except ArithmeticError Fixed := do
  (← pixels.div pixelsPerRem).roundFixed

/-- Rems are written without superfluous zeros. -/
def remText (rems : Fixed) : Text := rems.shortText ++ "rem"

/-- A slope as a number of hundredths of the viewport width. -/
def viewportShare (slope : Number) : Except ArithmeticError Fixed := do
  (← slope.mul 100).roundFixed

/-- Shares of the viewport width are written with all four places. -/
def vwText (share : Fixed) : Text := share.text ++ "vw"

end FluidCss.Length
