import FluidCss.Files
import FluidCss.Run.Step

/-!
# Processing files

Several files are processed in one run, in the given order. A path that is given twice is processed
twice; its text is listed once, where it came first, as it was made last.
-/

namespace FluidCss

namespace Run

/-- The text of a file that must be there. -/
def readFile (read : Reader) (path : String) : Except Error Text :=
  match read path with
  | .ok content => content.decode
  | .error fault => .error (.inaccessible fault (normalPath path))

/-- Processes files one after the other and collects their texts by path. -/
def processFiles (settings : Settings) (read : Reader) :
    List String → List (String × Text) → Step (List (String × Text))
  | [], outputs => pure outputs
  | path :: paths, outputs => do
    let source ← check (readFile read path)
    let css ← processSheet settings source
    processFiles settings read paths (Ordered.put (normalPath path) css outputs)

/-- A run over files, from the scales of the settings on. -/
def batch (settings : Settings) (read : Reader) (paths : List String) :
    Step (List (String × Text)) := do
  seed settings.scales
  processFiles settings read paths []

end Run

/-- Compiles one file in a run of its own. -/
def processFile (settings : Settings) (read : Reader) (path : String) :
    Except Error Text := do
  processCss settings (← Run.readFile read path)

/-- Compiles several files in one run. -/
def processFiles (settings : Settings) (read : Reader) (paths : List String) :
    Except Error (List (String × Text)) :=
  Step.outcome (Run.batch settings read paths) Run.empty

end FluidCss
