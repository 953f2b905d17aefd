import FluidCss.Text.Digit

/-!
# Arguments

The command line takes one or more input files in one row, and options before or after them:

    -o FILE, --output FILE    where the text is written
    -c FILE, --config FILE    the settings
    -v, --verbose             show the log
    -h, --help                show what the arguments are

A long option may be cut short and take its value after an equals sign; short options may be written
together, the value following directly. An equals sign after the first letter is passed over. A
double hyphen as a value takes the option back. After a double hyphen everything is a file.
-/

namespace FluidCss.CommandLine

/-- The switches of the command line. -/
inductive Switch where
  | output
  | config
  | verbose
  | help
  deriving DecidableEq

namespace Switch

def all : List Switch := [help, output, config, verbose]

/-- A switch is followed by a value. -/
def takesValue : Switch → Bool
  | output | config => true
  | verbose | help => false

/-- The short form of a switch. -/
def letter : Switch → Char
  | output => 'o'
  | config => 'c'
  | verbose => 'v'
  | help => 'h'

/-- The long form of a switch. -/
def word : Switch → String
  | output => "output"
  | config => "config"
  | verbose => "verbose"
  | help => "help"

/-- The switch of a letter. -/
def ofLetter? (c : Char) : Option Switch := all.find? fun s => s.letter == c

/-- The switches whose words begin with the given letters. -/
def ofWord (cs : List Char) : List Switch := all.filter fun s => cs.isPrefixOf s.word.toList

end Switch

/-- Switches that are written together and take effect together. -/
structure Group where
  /-- The switches without a value. -/
  flags : List Switch
  /-- A switch that takes a value, which is written with it or follows it. -/
  valued : Option (Switch × Option String)
  deriving DecidableEq

namespace Group

/-- A switch alone, with the value that is written with it. -/
def single (s : Switch) (value : Option String) : Group :=
  if s.takesValue then ⟨[], some (s, value)⟩ else ⟨[s], none⟩

/-- The value that is written directly after a letter. -/
def attached (cs : List Char) : Option String :=
  if cs.isEmpty then none else some (String.ofList cs)

/-- Reads letters written together, each of a switch, up to the first that takes a value. -/
def ofLetters? : List Char → Option Group
  | [] => some ⟨[], none⟩
  | c :: cs =>
    match Switch.ofLetter? c with
    | none => none
    | some s =>
      if s.takesValue then some (single s (attached cs))
      else (ofLetters? cs).map fun group => { group with flags := s :: group.flags }

/-- Reads a switch with what is written after its letter. After an equals sign even an empty value
is one, and a switch that takes no value needs further letters. -/
def ofSwitch? (s : Switch) : List Char → Option Group
  | '=' :: cs =>
    if s.takesValue then some (single s (some (String.ofList cs)))
    else if cs.isEmpty then none
    else ofLetters? (s.letter :: cs)
  | cs => ofLetters? (s.letter :: cs)

end Group

/-- What a single argument is. -/
inductive Argument where
  | file (name : String)
  /-- The double hyphen. -/
  | mark
  | switches (group : Group)
  /-- A switch that does not exist. -/
  | unknown
  /-- A switch with a value that it may not have. -/
  | wrong
  /-- Letters that several switches begin with. -/
  | ambiguous
  deriving DecidableEq

namespace Argument

/-- What begins like a switch but is none: a file if there is a space in it. -/
def notSwitch (text : String) : Argument :=
  if text.toList.contains ' ' then file text else unknown

/-- What is written after two hyphens. -/
def long (text : String) (cs : List Char) : Argument :=
  let name := cs.takeWhile (· != '=')
  match Switch.ofWord name, cs.drop name.length with
  | [], _ => notSwitch text
  | [s], [] => switches (.single s none)
  | [s], _ :: value =>
    if s.takesValue then switches (.single s (some (String.ofList value))) else wrong
  | _, _ => ambiguous

/-- A number with a minus sign, which is no switch. A line end may follow it. -/
def isNegativeNumber (cs : List Char) : Bool :=
  let digit (c : Char) : Bool := Text.isDigit c
  let number := if cs.getLast? = some '\n' then cs.dropLast else cs
  let whole := number.takeWhile digit
  match number.drop whole.length with
  | [] => !whole.isEmpty
  | '.' :: places => !places.isEmpty && places.all digit
  | _ => false

/-- What is written after one hyphen. -/
def short (text : String) (cs : List Char) : Argument :=
  match cs with
  | [] => file text
  | c :: tail =>
    match Switch.ofLetter? c with
    | some s =>
      match Group.ofSwitch? s tail with
      | some group => switches group
      | none => wrong
    | none => if isNegativeNumber cs then file text else notSwitch text

/-- The arguments before a double hyphen may be switches, those after it are files. -/
def classify : List String → List Argument
  | [] => []
  | text :: texts =>
    match text.toList with
    | ['-', '-'] => mark :: texts.map file
    | '-' :: '-' :: cs => long text cs :: classify texts
    | '-' :: cs => short text cs :: classify texts
    | _ => file text :: classify texts

end Argument

/-- Arguments that make sense. -/
structure Arguments where
  inputs : List String
  output : Option String
  config : Option String
  verbose : Bool
  deriving DecidableEq

/-- What the arguments ask for. -/
inductive Request where
  | run (arguments : Arguments)
  | help
  | wrong
  deriving DecidableEq

namespace Arguments

/-- Arguments of which a part is read; `reading` says whether the last one was an input file. -/
structure Draft where
  arguments : Arguments
  reading : Bool
  /-- A file stands apart from the row of inputs. -/
  stray : Bool

/-- Before any argument is read. -/
def Draft.start : Draft := ⟨⟨[], none, none, false⟩, false, false⟩

/-- An input belongs to the first row of inputs. -/
def Draft.addInput (p : Draft) (name : String) : Draft :=
  if p.reading || p.arguments.inputs.isEmpty then
    { p with
      arguments := { p.arguments with inputs := p.arguments.inputs ++ [name] }
      reading := true }
  else { p with stray := true }

/-- A double hyphen does not end a row of inputs. -/
def Draft.addMark (p : Draft) : Draft :=
  if p.reading || p.arguments.inputs.isEmpty then p else { p with stray := true }

/-- Something stands there that is neither a switch nor an input. -/
def Draft.addStray (p : Draft) : Draft := { p with reading := false, stray := true }

/-- The value that a switch is given. A double hyphen gives none. -/
def given (value : String) : Option String := if value = "--" then none else some value

/-- Sets a switch, to a value if it takes one. -/
def Draft.set (p : Draft) (s : Switch) (value : String) : Draft :=
  let arguments := match s with
    | .output => { p.arguments with output := given value }
    | .config => { p.arguments with config := given value }
    | .verbose => { p.arguments with verbose := true }
    | .help => p.arguments
  { p with arguments := arguments, reading := false }

/-- Sets the switches of a group. -/
def Draft.setGroup (p : Draft) (group : Group) (value : Option (Switch × String)) : Draft :=
  let p := group.flags.foldl (fun p s => p.set s "") p
  match value with
  | some (s, v) => p.set s v
  | none => p

/-- The request that arguments make together with those before them. Help is given as soon as it is
asked for. -/
def collect (p : Draft) : List Argument → Request
  | [] => if p.stray || p.arguments.inputs.isEmpty then .wrong else .run p.arguments
  | .file name :: rest => collect (p.addInput name) rest
  | .mark :: rest => collect p.addMark rest
  | .unknown :: rest => collect p.addStray rest
  | .wrong :: _ | .ambiguous :: _ => .wrong
  | .switches group :: rest =>
    match group.valued, rest with
    | some (_, none), [] => .wrong
    | some (s, none), .file name :: rest =>
      if .help ∈ group.flags then .help else collect (p.setGroup group (some (s, name))) rest
    | some (_, none), _ :: _ => .wrong
    | some (s, some value), rest =>
      if .help ∈ group.flags then .help else collect (p.setGroup group (some (s, value))) rest
    | none, rest =>
      if .help ∈ group.flags then .help else collect (p.setGroup group none) rest

/-- The request that a command line makes. -/
def parse (texts : List String) : Request :=
  let arguments := Argument.classify texts
  if .ambiguous ∈ arguments then .wrong else collect .start arguments

end Arguments

end FluidCss.CommandLine
