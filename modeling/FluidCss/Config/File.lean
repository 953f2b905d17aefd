import FluidCss.Config.Options
import FluidCss.Files

/-!
# Settings from a file

A settings file holds a mapping of options; an empty one gives the default settings. What reads the
value in a file is not part of the program, so it is a parameter.
-/

namespace FluidCss.Config

/-- Why no value is read from a settings file. -/
inductive LoadFault where
  /-- The file does not hold what its format allows. -/
  | malformed (reason : Text)
  /-- Anything else has gone wrong on the way. -/
  | raised (error : Error)

/-- What reads the value in a settings file. -/
abbrev Loader := FileContent → Except LoadFault Value

/-- The settings in a file of the given name and content. -/
def settingsOfContent (load : Loader) (file : Text) (content : FileContent) :
    Except Error Settings :=
  match load content with
  | .ok .null => settingsOf (.map [])
  | .ok (.map entries) => settingsOf (.map entries)
  | .ok v => .error (.settingsNotMapping file v.kindName)
  | .error (.malformed reason) => .error (.settingsUnreadable file reason)
  | .error (.raised e) => .error e

/-- The settings in a file of the given name, if it can be opened. -/
def settingsOfFile (load : Loader) (file : Text) (content : Except FileFault FileContent) :
    Except Error Settings :=
  match content with
  | .ok content => settingsOfContent load file content
  | .error .missing => .error (.settingsFileMissing file)
  | .error fault => .error (.inaccessible fault file)

end FluidCss.Config
