import FluidCss.CommandLine.Outcome
import FluidCss.Proofs.Files
import FluidCss.Proofs.Ordered

/-!
# What a call delivers

**Theorem (`System.run_delivers`).** A call of the program is all or nothing, whatever reads the
settings file and wherever texts go to. It fails and leaves everything as it was unless the settings
are good, every input is compiled in the run that the inputs before it have left, and the output
file, if there is one, can be opened. If it ends with success, one text is all that is printed or
all that is written: the texts of the inputs, every path once.

What the inputs come to is told as a relation (`Run.Compiles`, `Yields`) that follows the inputs one
by one, and the program computes it (`Run.batch_eq_ok_iff`): the induction is on the inputs, with
the dictionary so far as a parameter. No file is touched before all of them are compiled, so a
failing input leaves nothing behind whatever came before it. Writing comes last and changes one
place only (`Files.Admits.put`). It can itself break off when the file has been opened, and only
then is there a part of a text (`Writes`). -/

namespace FluidCss

variable {settings : Settings} {read : Reader} {arguments : CommandLine.Arguments}

namespace Run

/-- Inputs are compiled one after the other: every text is what the run makes of its input, as the
inputs before it have left the run. -/
inductive Compiles (settings : Settings) (read : Reader) :
    Run → List String → List Text → Run → Prop
  | nil (run : Run) : Compiles settings read run [] [] run
  | cons {path : String} {paths : List String} {source css : Text} {texts : List Text}
    {run next last : Run} (hsource : read path = .ok (.text source))
    (hcss : processSheet settings (unifyLines source) run = .ok css next)
    (hothers : Compiles settings read next paths texts last) :
    Compiles settings read run (path :: paths) (css :: texts) last

theorem check_eq_ok_iff {α : Type} {x : Except Error α} {a : α} {run next : Run} :
    check x run = .ok a next ↔ x = .ok a ∧ run = next := by
  cases x with
  | error e => exact ⟨nofun, nofun⟩
  | ok b =>
    constructor
    · intro h
      cases h
      exact ⟨rfl, rfl⟩
    · intro h
      obtain ⟨hvalue, hrun⟩ := h
      cases hvalue
      cases hrun
      rfl

theorem readFile_eq_ok_iff {path : String} {t : Text} :
    readFile read path = .ok t ↔
      ∃ source, read path = .ok (.text source) ∧ unifyLines source = t := by
  unfold readFile
  cases read path with
  | error fault => simp
  | ok content => cases content <;> simp [FileContent.decode]

/-- The texts are put into a dictionary one after the other, under the paths of their inputs. -/
theorem processFiles_eq_ok_iff {paths : List String} {outputs result : List (String × Text)}
    {run last : Run} :
    processFiles settings read paths outputs run = .ok result last ↔
      ∃ texts, Compiles settings read run paths texts last ∧
        result =
          ((paths.map normalPath).zip texts).foldl (fun m (k, v) => Ordered.put k v m) outputs := by
  induction paths generalizing outputs run with
  | nil =>
    constructor
    · intro h
      cases h
      exact ⟨[], .nil _, rfl⟩
    · intro h
      obtain ⟨texts, hcompiles, hresult⟩ := h
      cases hcompiles
      rw [hresult]
      rfl
  | cons path paths ih =>
    -- Each input is read, compiled and put into the dictionary, and then the others are.
    rw [processFiles, step_bind_eq_ok]
    simp only [step_bind_eq_ok, check_eq_ok_iff, readFile_eq_ok_iff, ih]
    constructor
    · intro h
      obtain ⟨t, start, ⟨⟨source, hsource, hlines⟩, hstart⟩, css, next, hcss, texts, hcompiles,
        hresult⟩ := h
      subst hstart hlines
      exact ⟨css :: texts, .cons hsource hcss hcompiles, hresult⟩
    · intro h
      obtain ⟨texts, hcompiles, hresult⟩ := h
      cases hcompiles with
      | cons hsource hcss hothers =>
        exact ⟨_, run, ⟨⟨_, hsource, rfl⟩, rfl⟩, _, _, hcss, _, hothers, hresult⟩

theorem batch_eq_ok_iff {paths : List String} {outputs : List (String × Text)} {run last : Run} :
    batch settings read paths run = .ok outputs last ↔
      ∃ start texts, seed settings.scales run = .ok () start ∧
        Compiles settings read start paths texts last ∧
        IsDictionary ((paths.map normalPath).zip texts) outputs := by
  rw [batch, step_bind_eq_ok]
  simp only [processFiles_eq_ok_iff, Ordered.isDictionary_iff, Ordered.ofList]
  constructor
  · intro h
    obtain ⟨_, start, hseed, texts, hcompiles, houtputs⟩ := h
    exact ⟨start, texts, hseed, hcompiles, houtputs⟩
  · intro h
    obtain ⟨start, texts, hseed, hcompiles, houtputs⟩ := h
    exact ⟨(), start, hseed, texts, hcompiles, houtputs⟩

end Run

namespace CommandLine

variable {system : System}

/-! ## What the inputs come to -/

/-- The settings of a call are the default ones, or those in the file that it names. An empty file
is a mapping without entries. -/
def HasSettings (system : System) (config : Option String) (settings : Settings) : Prop :=
  match config with
  | none => settings = .default
  | some path => ∃ content entries, system.files.read path = .ok content ∧
    (system.load content = .ok (.map entries) ∨ system.load content = .ok .null ∧ entries = []) ∧
    Config.settingsOf (.map entries) = .ok settings

theorem settingsOfContent_eq_ok_iff {load : Config.Loader} {file : Text} {content : FileContent} :
    Config.settingsOfContent load file content = .ok settings ↔ ∃ entries,
      (load content = .ok (.map entries) ∨ load content = .ok .null ∧ entries = []) ∧
        Config.settingsOf (.map entries) = .ok settings := by
  unfold Config.settingsOfContent
  cases hload : load content with
  | error fault => cases fault <;> simp
  | ok value => cases value <;> simp

theorem settingsFor_eq_ok_iff {config : Option String} :
    (settingsFor system.load system.files.read config).2 = .ok settings ↔
      HasSettings system config settings := by
  cases config with
  | none => simp [settingsFor, HasSettings, eq_comm]
  | some path =>
    simp only [settingsFor, HasSettings]
    cases hread : system.files.read path with
    | error fault => cases fault <;> simp [Config.settingsOfFile]
    | ok content => simp [Config.settingsOfFile, settingsOfContent_eq_ok_iff]

/-- What the inputs of a call come to: all of them are compiled in one run, and a path that is
repeated keeps its first place and its last text. -/
def Yields (system : System) (arguments : Arguments) (outputs : List (String × Text)) : Prop :=
  ∃ settings start texts last, HasSettings system arguments.config settings ∧
    Run.seed settings.scales .empty = .ok () start ∧
    Run.Compiles settings system.files.read start arguments.inputs texts last ∧
    IsDictionary ((arguments.inputs.map normalPath).zip texts) outputs

theorem yields_iff {outputs : List (String × Text)} : Yields system arguments outputs ↔
    ∃ settings last, (settingsFor system.load system.files.read arguments.config).2 = .ok settings ∧
      Run.batch settings system.files.read arguments.inputs .empty = .ok outputs last := by
  simp only [Yields, Run.batch_eq_ok_iff, settingsFor_eq_ok_iff]
  constructor
  · intro h
    obtain ⟨settings, start, texts, last, hsettings, hseed, hcompiles, houtputs⟩ := h
    exact ⟨settings, last, hsettings, start, texts, hseed, hcompiles, houtputs⟩
  · intro h
    obtain ⟨settings, last, hsettings, start, texts, hseed, hcompiles, houtputs⟩ := h
    exact ⟨settings, start, texts, last, hsettings, hseed, hcompiles, houtputs⟩

theorem Yields.unique {outputs outputs' : List (String × Text)}
    (h : Yields system arguments outputs)
    (h' : Yields system arguments outputs') : outputs = outputs' := by
  obtain ⟨settings, last, hsettings, hbatch⟩ := yields_iff.1 h
  obtain ⟨settings', last', hsettings', hbatch'⟩ := yields_iff.1 h'
  cases hsettings.symm.trans hsettings'
  cases hbatch.symm.trans hbatch'
  rfl

/-- A call has something to deliver, or it fails if its inputs come to nothing. -/
theorem runWith_cases (system : System) (arguments : Arguments) :
    (∃ outputs records, Yields system arguments outputs ∧
      runWith system.load system.files.read arguments = deliver arguments records outputs) ∨
    (∀ outputs, ¬Yields system arguments outputs) ∧
      ∃ log e, runWith system.load system.files.read arguments = .ofError log e := by
  simp only [yields_iff]
  unfold runWith
  -- The settings are read before the inputs, so a fault in them comes first.
  rcases settingsFor system.load system.files.read arguments.config with ⟨records, e | settings⟩
  · refine .inr ⟨?_, _, e, rfl⟩
    intro outputs h
    obtain ⟨settings, last, hsettings, -⟩ := h
    cases hsettings
  · cases hbatch : Run.batch settings system.files.read arguments.inputs .empty with
    | error e run =>
      refine .inr ⟨?_, shown arguments.verbose (records ++ run.records), e, ?_⟩
      · intro outputs h
        obtain ⟨settings', last, hsettings, hbatch'⟩ := h
        cases hsettings
        cases hbatch.symm.trans hbatch'
      · simp only [hbatch]
    | ok outputs run =>
      refine .inl ⟨outputs, records ++ run.records, ⟨settings, run, rfl, hbatch⟩, ?_⟩
      simp only [hbatch]

/-! ## Writing -/

/-- The texts of all outputs with line feeds between them, and a last line feed. -/
def wholeText (outputs : List (String × Text)) : Text :=
  List.intercalate ("\n" : Text) (outputs.map Prod.snd) ++ ("\n" : Text)

theorem joined_eq_wholeText (outputs : List (String × Text)) :
    Outcome.joined outputs = wholeText outputs := by
  rw [Outcome.joined, Text.joined_eq_intercalate, wholeText]

/-- The file that a path leads to holds a text, and everything else is as it was. -/
def Replaces (files : Files) (path : String) (text : Text) (after : Files) : Prop :=
  ∃ place, files.follow path = .ok place ∧ after.entry place = .file (.text text) ∧
    ∀ other ≠ place, after.entry other = files.entry other

/-- An opened file takes a text: it can be encoded, and it arrives as a whole. -/
def IsStored (system : System) (text : Text) : Prop :=
  (∀ n, .half n ∉ text) ∧ system.disk text = .ok ()

/-- How writing a text ends: the file is not opened, or it takes a part of the text, or all of it.
-/
inductive Writes (system : System) (path : String) (text : Text) : Except Error Unit × Files → Prop
  | closed {e : Error} (h : ∀ place, ¬system.files.Admits path place) :
    Writes system path text (.error e, system.files)
  | brokenOff {place : Place} {e : Error} {arrived : FileContent}
    (h : system.files.Admits path place) (htext : ¬IsStored system text) :
    Writes system path text (.error e, system.files.put place arrived)
  | done {place : Place} (h : system.files.Admits path place) (htext : IsStored system text) :
    Writes system path text (.ok (), system.files.put place (.text text))

theorem target_normalPath (files : Files) (path : String) :
    files.target (normalPath path) = files.target path := by
  rw [Files.target, Files.follow_normalPath, Files.target]

theorem writes_writeFile (system : System) (path : String) (text : Text) :
    Writes system path text (system.writeFile (normalPath path) text) := by
  unfold System.writeFile
  rw [target_normalPath]
  cases htarget : system.files.target path with
  | error fault =>
    refine .closed fun place hadmits => ?_
    cases htarget.symm.trans (Files.target_eq_ok_iff.2 hadmits)
  | ok place =>
    have hadmits := Files.target_eq_ok_iff.1 htarget
    cases hhalves : text.firstHalves? with
    -- A text with half a character is broken off there; else the disk has its say.
    | some halves =>
      refine .brokenOff hadmits fun hstored => ?_
      cases hhalves.symm.trans (Text.firstHalves?_eq_none_iff.2 hstored.1)
    | none =>
      cases hdisk : system.disk text with
      | error fault =>
        refine .brokenOff hadmits fun hstored => ?_
        cases hdisk.symm.trans hstored.2
      | ok _ => exact .done hadmits ⟨Text.firstHalves?_eq_none_iff.1 hhalves, hdisk⟩

/-! ## Delivery -/

/-- The inputs come to something, and the output file can be opened, if there is one. Nothing is
printed or written before that. -/
def Begins (system : System) (arguments : Arguments) : Prop :=
  (∃ outputs, Yields system arguments outputs) ∧
    ∀ path ∈ arguments.output, ∃ place, system.files.Admits path place

/-- A text is all that is printed, or all that is written. -/
def IsDelivered (files : Files) (text : Text) (path? : Option String) (printed : Text)
    (after : Files) : Prop :=
  match path? with
  | none => printed = text ∧ after = files
  | some path => printed = [] ∧ Replaces files path text after

/-- A text can be printed, or written to the output file. -/
def IsTaken (system : System) (text : Text) : Option String → Prop
  | none => system.stdout text = .ok ()
  | some path => (∃ place, system.files.Admits path place) ∧ IsStored system text

theorem carryOut_ofError (log : List Text) (e : Error) (system : System) :
    (Outcome.ofError log e).carryOut system = (Outcome.ofError log e, system.files) ∧
      (Outcome.ofError log e).exit ≠ .success ∧ (Outcome.ofError log e).output = [] := by
  unfold Outcome.ofError
  split
  · exact ⟨rfl, nofun, rfl⟩
  · exact ⟨rfl, nofun, rfl⟩

/-- What is to be printed is printed if the standard output takes it. -/
theorem carryOut_printed {records : List Record} {outputs : List (String × Text)}
    {outcome : Outcome}
    {after : Files} (hpath : arguments.output = none)
    (h : (deliver arguments records outputs).carryOut system = (outcome, after)) :
    (outcome.exit = .success ↔ system.stdout (wholeText outputs) = .ok ()) ∧
      (outcome.exit = .success → outcome.output = wholeText outputs) ∧ after = system.files := by
  simp only [deliver, hpath, joined_eq_wholeText, Outcome.carryOut] at h
  cases hstdout : system.stdout (wholeText outputs) with
  | ok _ =>
    rw [hstdout] at h
    cases h
    exact ⟨⟨fun _ => rfl, fun _ => rfl⟩, fun _ => rfl, rfl⟩
  | error fault =>
    rw [hstdout] at h
    cases h
    exact ⟨⟨nofun, nofun⟩, nofun, rfl⟩

/-- What is to be written is written as a whole if the file can be opened and takes it. -/
theorem carryOut_written {records : List Record} {outputs : List (String × Text)}
    {outcome : Outcome}
    {after : Files} {path : String} (hpath : arguments.output = some path)
    (h : (deliver arguments records outputs).carryOut system = (outcome, after)) :
    (outcome.exit = .success ↔
      (∃ place, system.files.Admits path place) ∧ IsStored system (wholeText outputs)) ∧
    (outcome.exit = .success → Replaces system.files path (wholeText outputs) after) ∧
    outcome.output = [] ∧ ((∀ place, ¬system.files.Admits path place) → after = system.files) := by
  simp only [deliver, hpath, joined_eq_wholeText, Outcome.carryOut] at h
  have hwrites := writes_writeFile system path (wholeText outputs)
  generalize system.writeFile (normalPath path) (wholeText outputs) = result at h hwrites
  cases hwrites with
  | closed hclosed =>
    cases h
    refine ⟨⟨nofun, ?_⟩, nofun, rfl, fun _ => rfl⟩
    intro ⟨⟨place, hadmits⟩, _⟩
    exact absurd hadmits (hclosed place)
  -- The file was opened, so there is nothing to show of what it holds now.
  | @brokenOff place _ _ hadmits hbroken =>
    cases h
    refine ⟨⟨nofun, ?_⟩, nofun, rfl, fun hclosed => absurd hadmits (hclosed place)⟩
    intro ⟨_, hstored⟩
    exact absurd hstored hbroken
  | @done place hadmits hstored =>
    cases h
    refine ⟨⟨fun _ => ⟨⟨place, hadmits⟩, hstored⟩, fun _ => rfl⟩, fun _ => ?_, rfl,
      fun hclosed => absurd hadmits (hclosed place)⟩
    obtain ⟨hentry, hothers⟩ := hadmits.put (.text (wholeText outputs))
    exact ⟨place, hadmits.follow, hentry, hothers⟩

/-- **All or nothing.** If the inputs of a call do not come to anything, or the output file cannot
be opened, the call fails, nothing is printed and no file is changed. If it ends with success, one
text is all that is printed, or all that is written: the texts of the inputs, joined by line feeds.
It does end with success if the inputs come to something and that text is taken. -/
theorem System.run_delivers {texts : List String} {outcome : Outcome} {after : Files}
    (h : Arguments.parse texts = .run arguments) (hrun : system.run texts = (outcome, after)) :
    (¬Begins system arguments →
      outcome.exit ≠ .success ∧ outcome.output = [] ∧ after = system.files) ∧
    (outcome.exit = .success → ∃ outputs, Yields system arguments outputs ∧
      IsDelivered system.files (wholeText outputs) arguments.output outcome.output after) ∧
    ∀ outputs, Yields system arguments outputs →
      IsTaken system (wholeText outputs) arguments.output → outcome.exit = .success := by
  rw [System.run, CommandLine.run, h] at hrun
  rcases runWith_cases system arguments with
    ⟨outputs, records, hyields, hdeliver⟩ | ⟨hnone, log, e, herror⟩
  · simp only [hdeliver] at hrun
    cases hpath : arguments.output with
    | none =>
      obtain ⟨hexit, houtput, hafter⟩ := carryOut_printed hpath hrun
      refine ⟨fun hbegins => ?_, fun h => ⟨outputs, hyields, houtput h, hafter⟩, ?_⟩
      · exact absurd ⟨⟨outputs, hyields⟩, by simp [hpath]⟩ hbegins
      · intro outputs' hyields' htaken
        cases hyields.unique hyields'
        exact hexit.2 htaken
    | some path =>
      obtain ⟨hexit, hreplaces, houtput, hclosed⟩ := carryOut_written hpath hrun
      refine ⟨fun hbegins => ?_, fun h => ⟨outputs, hyields, houtput, hreplaces h⟩, ?_⟩
      -- The inputs come to something, so what does not begin is the file.
      · have hnot : ∀ place, ¬system.files.Admits path place := by
          intro place hadmits
          refine hbegins ⟨⟨outputs, hyields⟩, fun other hother => ?_⟩
          obtain rfl := Option.some.inj (hpath.symm.trans hother)
          exact ⟨place, hadmits⟩
        refine ⟨fun h => ?_, houtput, hclosed hnot⟩
        obtain ⟨⟨place, hadmits⟩, -⟩ := hexit.1 h
        exact hnot place hadmits
      · intro outputs' hyields' htaken
        cases hyields.unique hyields'
        exact hexit.2 htaken
  · obtain ⟨hcarried, hexit, houtput⟩ := carryOut_ofError log e system
    simp only [herror, hcarried] at hrun
    cases hrun
    refine ⟨fun _ => ⟨hexit, houtput, rfl⟩, fun h => absurd h hexit, ?_⟩
    -- Without a yield there is nothing to be taken.
    intro outputs hyields
    exact absurd hyields (hnone outputs)

/-- A scale, a utility for it, a file that holds no text, and settings with another width. Only
texts without halves of surrogate pairs can be printed. -/
def gapSystem : System where
  files := {
    home := ["files"]
    contents := [(["files", "a.css"], .text "@ruler scale(\x7bpairs:\x7bs:[8,16]\x7d\x7d);"),
      (["files", "b.css"],
        .text "@ruler utility(\x7bselector:'.gap',property:'gap',scale:'space'\x7d);"),
      (["files", "c.css"], .garbled ⟨0xFF, 0, 1, "invalid start byte"⟩),
      (["files", "ruler.yaml"], .text "minWidth: 400\n")]
    refused := [] }
  load content :=
    if content = .text "minWidth: 400\n" then .ok (.map [(.text "minWidth", .number (.int 400))])
    else .error (.malformed "another file")
  stdout := .encoded
  disk := .all

/-- A call that repeats an input and writes over another one. -/
def writingCall : List String := ["-c", "ruler.yaml", "a.css", "b.css", "./a.css", "-o", "b.css"]

def writtenText : Text :=
  "--space-s: clamp(0.5rem, 0.5882vw + 0.3529rem, 1rem);\n.gap-s \x7b\n    gap: clamp(0.5rem, " ++
    "0.5882vw + 0.3529rem, 1rem);\n\x7d\n"

def printingCall : List String := ["a.css", "b.css"]

def printedText : Text :=
  "--space-s: clamp(0.5rem, 0.5556vw + 0.3889rem, 1rem);\n.gap-s \x7b\n    gap: clamp(0.5rem, " ++
    "0.5556vw + 0.3889rem, 1rem);\n\x7d\n"

/-- A call whose last input cannot be read. -/
def failingCall : List String := ["a.css", "b.css", "c.css", "-o", "b.css"]

theorem System.run_delivers_gapSystem :
    (∃ arguments outputs, Arguments.parse writingCall = .run arguments ∧
      Yields gapSystem arguments outputs ∧ wholeText outputs = writtenText ∧
      (gapSystem.run writingCall).1.exit = .success ∧ (gapSystem.run writingCall).1.output = [] ∧
      Replaces gapSystem.files "b.css" writtenText (gapSystem.run writingCall).2) ∧
    (∃ arguments outputs, Arguments.parse printingCall = .run arguments ∧
      Yields gapSystem arguments outputs ∧ wholeText outputs = printedText ∧
      (gapSystem.run printingCall).1.exit = .success ∧
      (gapSystem.run printingCall).1.output = printedText ∧
      (gapSystem.run printingCall).2 = gapSystem.files) ∧
    ∃ arguments, Arguments.parse failingCall = .run arguments ∧ ¬Begins gapSystem arguments ∧
      (gapSystem.run failingCall).1.exit ≠ .success ∧ (gapSystem.run failingCall).1.output = [] ∧
      (gapSystem.run failingCall).2 = gapSystem.files := by
  refine ⟨?_, ?_, ?_⟩
  · have hparse : Arguments.parse writingCall =
        .run ⟨["a.css", "b.css", "./a.css"], some "b.css", some "ruler.yaml", false⟩ := by
      decide +kernel
    have hplace : gapSystem.files.follow "b.css" = .ok ["files", "b.css"] := by decide +kernel
    -- The call is evaluated for its exit and for what the file holds then.
    obtain ⟨hexit, hentry⟩ : (gapSystem.run writingCall).1.exit = .success ∧
        (gapSystem.run writingCall).2.entry ["files", "b.css"] = .file (.text writtenText) := by
      decide +kernel
    obtain ⟨-, hdelivers, -⟩ := run_delivers hparse (Prod.eta (gapSystem.run writingCall)).symm
    obtain ⟨outputs, hyields, hprinted, hreplaces⟩ := hdelivers hexit
    obtain ⟨place, hfollow, hfile, -⟩ := id hreplaces
    obtain rfl := Except.ok.inj (hplace.symm.trans hfollow)
    have htext : wholeText outputs = writtenText := by
      simpa using hfile.symm.trans hentry
    exact ⟨_, outputs, hparse, hyields, htext, hexit, hprinted, htext ▸ hreplaces⟩
  · have hparse : Arguments.parse printingCall = .run ⟨["a.css", "b.css"], none, none, false⟩ := by
      decide +kernel
    obtain ⟨hexit, houtput⟩ : (gapSystem.run printingCall).1.exit = .success ∧
        (gapSystem.run printingCall).1.output = printedText := by
      decide +kernel
    obtain ⟨-, hdelivers, -⟩ := run_delivers hparse (Prod.eta (gapSystem.run printingCall)).symm
    obtain ⟨outputs, hyields, hprinted, hafter⟩ := hdelivers hexit
    exact ⟨_, outputs, hparse, hyields, hprinted.symm.trans houtput, hexit, houtput, hafter⟩
  · have hparse : Arguments.parse failingCall =
        .run ⟨["a.css", "b.css", "c.css"], some "b.css", none, false⟩ := by
      decide +kernel
    have hbegins : ¬Begins gapSystem ⟨["a.css", "b.css", "c.css"], some "b.css", none, false⟩ := by
      -- The third input is no text, so the inputs come to nothing.
      have hgarbled : gapSystem.files.read "c.css" =
          .ok (.garbled ⟨0xFF, 0, 1, "invalid start byte"⟩) := by
        decide +kernel
      intro ⟨⟨outputs, _, _, _, _, _, _, hcompiles, _⟩, _⟩
      cases hcompiles with
      | cons _ _ hcompiles =>
        cases hcompiles with
        | cons _ _ hcompiles =>
          cases hcompiles with
          | cons hsource _ _ => cases hgarbled.symm.trans hsource
    obtain ⟨hfails, -, -⟩ := run_delivers hparse (Prod.eta (gapSystem.run failingCall)).symm
    exact ⟨_, hparse, hbegins, hfails hbegins⟩

end CommandLine

end FluidCss
