import FluidCss.CommandLine.Outcome
import FluidCss.Config.Yaml.Node

/-!
# The program

Reads the files that the arguments name, runs the command line on their texts, and prints and writes
what comes out.
-/

namespace FluidCss

/-- The fault that an error of the system stands for. -/
def faultOf? : IO.Error → Option FileFault
  | .noFileOrDirectory .. => some .missing
  | .permissionDenied .. => some .denied
  | .inappropriateType _ code _ => some (if code = 21 then .directory else .notDirectory)
  | .invalidArgument _ code _ => if code = 36 then some .nameTooLong else none
  | _ => none

/-- The text of a file, or why it is not opened. -/
def readText (path : String) : IO (Except FileFault FileContent) := do
  if path.toList.contains '\x00' then return .error .zeroInPath
  try
    return .ok (.text (Text.ofString (← IO.FS.readFile path)))
  catch e =>
    match faultOf? e with
    | some fault => return .error fault
    | none => throw e

/-- The texts of the files that the arguments name. -/
def readNamed (paths : List String) : IO (List (String × Except FileFault FileContent)) :=
  paths.mapM fun path => do return (path, ← readText (normalPath path))

/-- The files that a command line reads. -/
def namedFiles (texts : List String) : List String :=
  match CommandLine.Arguments.parse texts with
  | .run arguments => arguments.config.toList ++ arguments.inputs
  | .help | .wrong => []

/-- What the help switch shows. -/
def helpText : String :=
  "usage: ruler [-h] [-o OUTPUT] [-c CONFIG] [-v] inputs [inputs ...]"

/-- Shows lines on the error output. -/
def say (lines : List Text) : IO Unit := lines.forM fun line => IO.eprintln line.display

/-- Reports an error that ends the program. -/
def fail (e : Error) : IO UInt32 := do
  say [e.message]
  return 1

/-- Writes the output file, which is left empty if its text cannot be encoded. -/
def save (path : String) (text : Text) : IO (Except Error Unit) := do
  try
    IO.FS.writeFile path (text.toString?.getD "")
    match text.firstHalves? with
    | some (first, offset, count) => return .error (.halfWritten first offset count)
    | none => return .ok ()
  catch e =>
    match faultOf? e with
    | some fault => return .error (.inaccessible fault path)
    | none => throw e

/-- Shows an outcome and gives the exit code. The last line of a log tells of the writing. -/
def present (outcome : CommandLine.Outcome) : IO UInt32 := do
  match outcome.exit, outcome.written with
  | .success, some (path, text) =>
    match ← save path text with
    | .ok _ =>
      say outcome.messages
      return 0
    | .error e =>
      say outcome.messages.dropLast
      fail e
  | .success, none =>
    say outcome.messages
    match CommandLine.Sink.encoded outcome.output with
    | .ok _ =>
      IO.print outcome.output.display
      return 0
    | .error (e, _) => fail e
  | .failure, _ =>
    say outcome.messages
    return 1
  | .usage, _ =>
    IO.eprintln helpText
    return 2
  | .help, _ =>
    IO.println helpText
    return 0
  | .raised e, _ =>
    say outcome.messages
    fail e

end FluidCss

/-- Reads the files that the arguments name, runs, and writes what came of it. -/
def main (texts : List String) : IO UInt32 := do
  let files ← FluidCss.readNamed (FluidCss.namedFiles texts)
  FluidCss.present (FluidCss.CommandLine.run FluidCss.Config.Yaml.load
    (fun path => (FluidCss.Ordered.get? path files).getD (.error .missing)) texts)
