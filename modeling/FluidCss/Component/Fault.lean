import FluidCss.Text.Basic

/-!
# Faults of style sheet text

Where reading style sheet text goes wrong, a fault stands in the result, and reading goes on.
-/

namespace FluidCss

/-- What is wrong at one place of a text. -/
inductive Fault where
  /-- A string runs into the end of its line. -/
  | badString
  | unclosedString
  | badUrl
  | unclosedUrl
  /-- A closing bracket that closes nothing. -/
  | unmatched (closer : Char)
  deriving DecidableEq

def Fault.message : Fault → Text
  | badString => "Bad string token"
  | unclosedString => "EOF in string"
  | badUrl => "bad URL token"
  | unclosedUrl => "EOF in URL"
  | unmatched closer => "Unmatched " ++ closer.toString

end FluidCss
