import FluidCss.CommandLine.Arguments
import FluidCss.Config.File
import FluidCss.Run.Batch

/-!
# What the command line does

All inputs are processed in one run. Their texts, joined by line ends, are either printed or written
to the output file. If anything fails before that, nothing is printed and no file is written: an
error that the user can mend is reported, any other is raised. Where texts go to and what reads the
settings file are parameters (`System`), since printing and writing can fail as well. -/

namespace FluidCss.CommandLine

/-- How the program ends. -/
inductive Exit where
  | success
  /-- An error was reported. -/
  | failure
  | usage
  | help
  /-- An error that is not reported but raised. -/
  | raised (error : Error)
  deriving DecidableEq

/-- What came of a call. -/
structure Outcome where
  exit : Exit
  /-- What is printed. -/
  output : Text
  /-- The lines of the log, if it is shown, and of the error report. -/
  messages : List Text
  /-- The file that is written, with its text. -/
  written : Option (String × Text)
  deriving DecidableEq

namespace Outcome

/-- An outcome without output. -/
def silent (exit : Exit) (messages : List Text) : Outcome := ⟨exit, [], messages, none⟩

/-- An error is reported if the user can mend it. -/
def ofError (log : List Text) (e : Error) : Outcome :=
  if e.isTagged || e.kind = .file .missing then silent .failure (log ++ [e.message])
  else silent (.raised e) log

/-- The text of all outputs. -/
def joined (outputs : List (String × Text)) : Text :=
  Text.joined "\n" (outputs.map Prod.snd) ++ "\n"

end Outcome

/-- The lines of a log, if it is shown. -/
def shown (verbose : Bool) (records : List Record) : List Text :=
  if verbose then records.map Record.line else []

/-- The settings that the arguments name, and the records of reading them. -/
def settingsFor (load : Config.Loader) (read : Reader) :
    Option String → List Record × Except Error Settings
  | none => ([], .ok Settings.default)
  | some path =>
    let name := normalPath path
    ([.settingsLoading name], Config.settingsOfFile load name (read path))

/-- What is to be printed or written of the outputs. -/
def deliver (arguments : Arguments) (records : List Record) (outputs : List (String × Text)) :
    Outcome :=
  let text := Outcome.joined outputs
  match arguments.output with
  | none => ⟨.success, text, shown arguments.verbose records, none⟩
  | some path =>
    let name := normalPath path
    ⟨.success, [], shown arguments.verbose (records ++ [.outputWritten text.length name]),
      some (name, text)⟩

/-- Runs the program with arguments that make sense, up to printing and writing. -/
def runWith (load : Config.Loader) (read : Reader) (arguments : Arguments) : Outcome :=
  match settingsFor load read arguments.config with
  | (records, .error e) => .ofError (shown arguments.verbose records) e
  | (records, .ok settings) =>
    match Run.batch settings read arguments.inputs Run.empty with
    | .error e run => .ofError (shown arguments.verbose (records ++ run.records)) e
    | .ok outputs run => deliver arguments (records ++ run.records) outputs

def run (load : Config.Loader) (read : Reader) (texts : List String) : Outcome :=
  match Arguments.parse texts with
  | .wrong => .silent .usage []
  | .help => .silent .help []
  | .run arguments => runWith load read arguments

/-! ## Printing and writing -/

/-- Where a text goes to. It arrives as a whole, or there is an error after a part of it. -/
abbrev Sink (Part : Type) := Text → Except (Error × Part) Unit

/-- A sink that takes every text. -/
def Sink.all {Part : Type} : Sink Part := fun _ => .ok ()

/-- A sink that encodes a text before it takes it, which halves of surrogate pairs do not allow. -/
def Sink.encoded : Sink Text := fun text =>
  match text.firstHalves? with
  | some (first, offset, count) => .error (.halfWritten first offset count, [])
  | none => .ok ()

/-- What a call finds around it. -/
structure System where
  files : Files
  /-- What reads a settings file. -/
  load : Config.Loader
  /-- Where printed texts go to. -/
  stdout : Sink Text
  /-- Where encoded texts go to when a file has been opened for them. -/
  disk : Sink FileContent

/-- Writes a file. It is made empty before its text is encoded, which fails if the text holds halves
of surrogate pairs. -/
def System.writeFile (system : System) (name : String) (text : Text) : Except Error Unit × Files :=
  match system.files.target name with
  | .error fault => (.error (.inaccessible fault name), system.files)
  | .ok place =>
    match text.firstHalves? with
    | some (first, offset, count) =>
      (.error (.halfWritten first offset count), system.files.put place (.text []))
    | none =>
      match system.disk text with
      | .error (e, arrived) => (.error e, system.files.put place arrived)
      | .ok _ => (.ok (), system.files.put place (.text text))

/-- Prints the output of a call that has succeeded so far, or writes its file. If that fails an
error is raised, and the last line of the log, which tells of a file that was written, is left out.
-/
def Outcome.carryOut (outcome : Outcome) (system : System) : Outcome × Files :=
  match outcome.exit, outcome.written with
  | .success, some (name, text) =>
    match system.writeFile name text with
    | (.ok _, after) => (outcome, after)
    | (.error e, after) => (.silent (.raised e) outcome.messages.dropLast, after)
  | .success, none =>
    match system.stdout outcome.output with
    | .ok _ => (outcome, system.files)
    | .error (e, arrived) => (⟨.raised e, arrived, outcome.messages, none⟩, system.files)
  | _, _ => (outcome, system.files)

/-- Runs the program and gives the files after it. -/
def System.run (system : System) (texts : List String) : Outcome × Files :=
  (CommandLine.run system.load system.files.read texts).carryOut system

end FluidCss.CommandLine
