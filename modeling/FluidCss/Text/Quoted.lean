import FluidCss.Text.Printable

/-!
# Quoted texts

Messages and node descriptions show a text between quotes on one line. Single quotes are used
unless the text holds a single quote and no double quote. The backslash and the quote in use are
escaped, as is every code point that is not printable, so the written form determines the text.
-/

namespace FluidCss.Text

/-- The quote that stands around a text. -/
def quoteFor (t : Text) : Char :=
  if t.contains '\'' && !t.contains '"' then '"' else '\''

/-- The lower-case hexadecimal digits of `n`, filled up with zeros to `width` places. -/
def hex (width n : Nat) : Text :=
  let digits := Nat.toDigits 16 n
  ofChars (List.replicate (width - digits.length) '0' ++ digits)

/-- The written form of a code point between the quotes `q`. -/
def quoteChar (q : Char) (p : CodePoint) : Text :=
  if p = '\\' ∨ p = q then ['\\', p]
  else if p = '\n' then "\\n"
  else if p = '\r' then "\\r"
  else if p = '\t' then "\\t"
  else if isPrintable p then [p]
  else if p.number < 0x100 then "\\x" ++ hex 2 p.number
  else if p.number < 0x10000 then "\\u" ++ hex 4 p.number
  else "\\U" ++ hex 8 p.number

def quote (t : Text) : Text :=
  let q := quoteFor t
  [.char q] ++ t.flatMap (quoteChar q) ++ [.char q]

/-- The text as a string, in which a half of a surrogate pair is escaped. -/
def display (t : Text) : String :=
  String.ofList (t.flatMap fun p => match p with
    | .char c => [c]
    | .half n => '\\' :: 'u' :: Nat.toDigits 16 (0xD800 + n))

example : quote "it's" = "\"it's\"" := by decide +kernel
example : quote "a\n\x7f" = "'a\\n\\x7f'" := by decide +kernel
example : quote [.half 0] = "'\\ud800'" := by decide +kernel
example : display [.char 'a', .half 0x7FF] = "a\\udfff" := by decide +kernel

end FluidCss.Text
