import FluidCss.Text.Basic

/-!
# Places in a text

A place is an offset in code points. Messages name it by line and column, both from one; only the
line feed ends a line.
-/

namespace FluidCss

/-- A place in a text, by line and column. -/
structure Location where
  line : Nat
  column : Nat
  deriving DecidableEq

/-- The place after the first `n` code points of a text. -/
def Location.ofOffset (t : Text) (n : Nat) : Location :=
  let before := t.take n
  ⟨before.count (.char '\n') + 1, (before.reverse.takeWhile (· != .char '\n')).length + 1⟩

def Location.text (l : Location) : Text :=
  "line " ++ toString l.line ++ ", column " ++ toString l.column

end FluidCss
