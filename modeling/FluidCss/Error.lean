import FluidCss.Component.Fault
import FluidCss.Number.Numeral
import FluidCss.Text.Location
import FluidCss.Text.Quoted

/-!
# Errors

Each way in which a run can fail is one constructor that keeps what the message tells. The wording
is in `Error.message` alone. Errors about the authored text and the options carry the tag of the
program; a failing file access, a misused node tree and a failing number operation do not.
-/

namespace FluidCss

/-- Why a file is not opened. -/
inductive FileFault where
  | missing
  | denied
  /-- A directory stands where a file should. -/
  | directory
  /-- The path leads through something that is no directory. -/
  | notDirectory
  | nameTooLong
  /-- No path may hold the character zero. -/
  | zeroInPath
  deriving DecidableEq

/-- Why bytes are no text: `count` of them from an offset on, the first of which is `byte`. -/
structure DecodeFault where
  byte : UInt8
  offset : Nat
  count : Nat
  reason : Text
  deriving DecidableEq

/-- A cause of failure. Values of unknown shape are kept as the text that shows them. -/
inductive Error where
  /-- A minimum that is not below its maximum. -/
  | range (quantity : Text) (least greatest : Number)
  /-- The line between two sizes leaves the range of numbers. -/
  | lineOutOfRange (minSize maxSize minWidth maxWidth : Number)
  | arithmetic (cause : ArithmeticError)
  /-- An integer with more digits than are read. -/
  | integerTooLong (digits : Nat)
  | inlineSizesMissing
  | scaleNameEmpty
  | scalePairsMissing
  | malformedParams (fault : Fault)
  | paramsEnd
  | callExpected (name found : Text)
  | bracketExpected (bracket found : Text)
  | keyExpected (found : Text)
  | valueMissing (key : Option Text) (closer : Text)
  | singleValueExpected (key : Text)
  | numberExpected (key found : Text)
  | attributeEmpty
  | attributeMalformed
  | selectorMissing
  | propertyMissing
  | scaleMissing
  | scaleUnknown (name : Text)
  | sheetFault (fault : Fault) (place : Location)
  | statementExpected (place : Location) (found : Text)
  /-- The options as a whole are a value that is no mapping and does not count as absent. -/
  | optionsNotMapping
  | optionNotNumber (key found : Text)
  | optionNotFinite (key found : Text)
  | optionNotFlag (key found : Text)
  | scalesNotMapping (found : Text)
  | seedNotMapping (name found : Text)
  | seedPairsMissing (name : Text)
  | seedPairMalformed (pair name found : Text)
  /-- The settings file does not hold what its format allows. -/
  | settingsUnreadable (file reason : Text)
  | settingsNotMapping (file found : Text)
  | settingsFileMissing (file : Text)
  | inaccessible (fault : FileFault) (path : Text)
  | undecodable (fault : DecodeFault)
  /-- A text that cannot be written to a file: `count` halves of surrogate pairs in a row, of which
  `first` is the first, at an offset. -/
  | halfWritten (first : CodePoint) (offset count : Nat)
  | parentMissing (node : Text)
  | childMissing (node : Text)
  /-- A parent that no longer lists its child. -/
  | childUnlisted
  /-- A node that contains itself. -/
  | cyclic
  /-- An error that comes from outside, under the name that it has there. -/
  | foreign (name : String) (message : Text)
  deriving DecidableEq

namespace Error

/-- The kinds of error that callers tell apart. -/
inductive Kind where
  | configuration
  | range
  | sheet
  | options
  | numeral
  | file (fault : FileFault)
  | decoding
  | encoding
  | tree
  | arithmetic (cause : ArithmeticError)
  | cyclic
  | foreign (name : String)
  deriving DecidableEq

def kind : Error → Kind
  | range .. => .range
  | sheetFault .. | statementExpected .. => .sheet
  | optionsNotMapping => .options
  | integerTooLong _ => .numeral
  | settingsFileMissing _ => .file .missing
  | inaccessible fault _ => .file fault
  | undecodable _ => .decoding
  | halfWritten .. => .encoding
  | parentMissing _ | childMissing _ | childUnlisted => .tree
  | arithmetic cause => .arithmetic cause
  | cyclic => .cyclic
  | foreign name _ => .foreign name
  | _ => .configuration

/-- The error is about the authored text or the options, as all errors of a run should be. -/
def isTagged (e : Error) : Bool :=
  match e.kind with
  | .configuration | .range | .sheet => true
  | _ => false

open Text (quote)

/-- The message of a failing file access. -/
def fileDetail (path : Text) : FileFault → Text
  | .missing => "[Errno 2] No such file or directory: " ++ quote path
  | .denied => "[Errno 13] Permission denied: " ++ quote path
  | .directory => "[Errno 21] Is a directory: " ++ quote path
  | .notDirectory => "[Errno 20] Not a directory: " ++ quote path
  | .nameTooLong => "[Errno 36] File name too long: " ++ quote path
  | .zeroInPath => "embedded null byte"

/-- The message without the tag. -/
def detail : Error → Text
  | range quantity least greatest =>
    "Invalid " ++ quantity ++ ": min (" ++ least.plainText ++ ") must be less than max (" ++
      greatest.plainText ++ ")"
  | lineOutOfRange minSize maxSize minWidth maxWidth =>
    "Fluid value out of range for sizes " ++ minSize.text ++ ".." ++ maxSize.text ++
      " between widths " ++ minWidth.text ++ ".." ++ maxWidth.text
  | arithmetic .overflow => "number too large"
  | arithmetic .divisionByZero => "division by zero"
  | arithmetic .invalidOperation => "an infinity has no decimal places"
  | integerTooLong digits =>
    "Exceeds the limit (" ++ toString Numeral.integerDigitLimit ++
      " digits) for integer string conversion: value has " ++ toString digits ++
      " digits; use sys.set_int_max_str_digits() to increase the limit"
  | inlineSizesMissing => "ruler.fluid() requires minSize and maxSize"
  | scaleNameEmpty => "Scale prefix cannot be empty"
  | scalePairsMissing => "No pairs defined in @ruler scale()"
  | malformedParams fault => "Malformed directive parameters: " ++ fault.message
  | paramsEnd => "Unexpected end of directive parameters"
  | callExpected name found => "Expected " ++ name ++ "(...), got " ++ quote found
  | bracketExpected bracket found =>
    "Expected " ++ quote bracket ++ " in directive parameters, got " ++ quote found
  | keyExpected found => "Expected a parameter name, got " ++ quote found
  | valueMissing key closer =>
    let place : Text := match key with
      | some k => if k.isEmpty then "" else " for " ++ quote k
      | none => ""
    "Missing value" ++ place ++ " before " ++ quote closer
  | singleValueExpected key => "Parameter " ++ quote key ++ " expects a single value"
  | numberExpected key found =>
    "Parameter " ++ quote key ++ " must be a number, got " ++ quote found
  | attributeEmpty => "@ruler utility() attribute parameter cannot be empty"
  | attributeMalformed =>
    "@ruler utility() attribute parameter must contain only letters, numbers, hyphens, " ++
      "and underscores"
  | selectorMissing => "@ruler utility() requires either \"selector\" or \"attribute\" parameter"
  | propertyMissing => "@ruler utility() requires a \"property\" parameter"
  | scaleMissing => "@ruler utility() requires a \"scale\" parameter"
  | scaleUnknown name =>
    "Scale \"" ++ name ++ "\" not found. Define it with @ruler scale() first."
  | sheetFault fault place => fault.message ++ " at " ++ place.text
  | statementExpected place found =>
    "Expected a declaration or rule at " ++ place.text ++ ": " ++ quote found
  | optionsNotMapping => "the options must be a mapping"
  | optionNotNumber key found =>
    "Config option " ++ quote key ++ " must be a number, got " ++ found
  | optionNotFinite key found => "Config option " ++ quote key ++ " must be finite, got " ++ found
  | optionNotFlag key found =>
    "Config option " ++ quote key ++ " must be true or false, got " ++ found
  | scalesNotMapping found => "Config option 'scales' must be a mapping, got " ++ found
  | seedNotMapping name found =>
    "Scale " ++ quote name ++ " in config must be a mapping, got " ++ found
  | seedPairsMissing name => "No pairs defined for scale " ++ quote name ++ " in config"
  | seedPairMalformed pair name found =>
    "Pair " ++ pair ++ " of scale " ++ quote name ++ " must be a [min, max] list, got " ++ found
  | settingsUnreadable file reason => "Failed to parse config file " ++ file ++ ": " ++ reason
  | settingsNotMapping file found =>
    "Config file " ++ file ++ " must contain a mapping, got " ++ found
  | settingsFileMissing file => "Ruler config file not found: " ++ file
  | inaccessible fault path => fileDetail path fault
  | undecodable fault =>
    if fault.count ≤ 1 then
      "'utf-8' codec can't decode byte 0x" ++ Text.hex 2 fault.byte.toNat ++ " in position " ++
        toString fault.offset ++ ": " ++ fault.reason
    else
      "'utf-8' codec can't decode bytes in position " ++ toString fault.offset ++ "-" ++
        toString (fault.offset + fault.count - 1) ++ ": " ++ fault.reason
  | halfWritten first offset count =>
    if count ≤ 1 then
      "'utf-8' codec can't encode character " ++ quote [first] ++ " in position " ++
        toString offset ++ ": surrogates not allowed"
    else
      "'utf-8' codec can't encode characters in position " ++ toString offset ++ "-" ++
        toString (offset + count - 1) ++ ": surrogates not allowed"
  | parentMissing node => node ++ " has no parent to be replaced in"
  | childMissing node => node ++ " is not a child of this container"
  | childUnlisted => "list.remove(x): x not in list"
  | cyclic => "a node contains itself"
  | foreign _ message => message

/-- The message as it is reported. -/
def message (e : Error) : Text := if e.isTagged then "[ruler] " ++ e.detail else e.detail

/-- An arithmetic failure as an error. -/
def ofArithmetic {α : Type} : Except ArithmeticError α → Except Error α
  | .ok a => .ok a
  | .error cause => .error (.arithmetic cause)

end Error

end FluidCss
