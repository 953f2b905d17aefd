import FluidCss.Text.Basic

/-!
# Blank characters

Texts cut out of a style sheet lose the blanks at both ends. The blank characters are the spaces,
line ends and separators of Unicode, together with the four information separators of ASCII.
-/

namespace FluidCss.Text

/-- A character that is taken off the ends of a text. -/
def isBlank (p : CodePoint) : Bool :=
  let n := p.number
  (9 ≤ n && n ≤ 13) || (28 ≤ n && n ≤ 32) || n == 0x85 || n == 0xA0 || n == 0x1680 ||
    (0x2000 ≤ n && n ≤ 0x200A) || n == 0x2028 || n == 0x2029 || n == 0x202F || n == 0x205F ||
    n == 0x3000

/-- A blank that may surround a number: the information separators do not count. -/
def isNumeralBlank (p : CodePoint) : Bool := isBlank p && !(28 ≤ p.number && p.number ≤ 31)

/-- What lies between the first and the last code point that fail `drop`. -/
def trimBy (drop : CodePoint → Bool) (t : Text) : Text :=
  ((t.dropWhile drop).reverse.dropWhile drop).reverse

/-- The text without the blanks at its two ends. -/
def trim (t : Text) : Text := trimBy isBlank t

/-- The text without the blanks at its start. -/
def trimStart (t : Text) : Text := t.dropWhile isBlank

end FluidCss.Text
