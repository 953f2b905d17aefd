import FluidCss.Proofs.Config.Settings
import FluidCss.Proofs.Run.Session
import FluidCss.Proofs.Scale.Definition

/-!
# Scales from options and scales from directives

**Theorem (`session_seeded`).** A scale that the options of a run define and a scale that a
directive at the beginning of the run defines are the same: either both runs fail with the same
error, or both know the same scales and every later style sheet comes to the same in both. -/

namespace FluidCss.Run

open Config Scale

variable {entries : List (Config.Value × Config.Value)} {settings : Settings}

/-! ## Ways to begin -/

/-- A run with the given options before its first style sheet. -/
def started (entries : List (Config.Value × Config.Value)) : Step Settings := do
  let settings ← check (settingsOf (.map entries))
  seed settings.scales
  return settings

/-- A run whose first style sheet defines a scale. -/
def directed (entries : List (Config.Value × Config.Value)) (d : Definition) : Step Settings := do
  let settings ← started entries
  load d.sheet >>= process settings
  return settings

/-- Options with a scale. -/
def seededEntries (entries : List (Config.Value × Config.Value)) (d : Definition) :
    List (Config.Value × Config.Value) :=
  entries ++ [(.text OptionName.scales.text, .map [(.text d.name.text, d.options)])]

def seeded (entries : List (Config.Value × Config.Value)) (d : Definition) : Step Settings :=
  started (seededEntries entries d)

/-- The scales that a run begins with, and what style sheets come to in it. -/
def session (beginning : Step Settings) (sources : List Text) :
    Except Error (Registry × List Answer) :=
  match beginning .empty with
  | .ok settings run => .ok (run.registry, answers settings sources run)
  | .error e _ => .error e

/-! ## Settings -/

theorem option?_append_of_ne {key value : Config.Value} {name : OptionName}
    (h : OptionName.ofKey? key ≠ some name) :
    option? (entries ++ [(key, value)]) name = option? entries name := by
  simp [option?, h]

/-- The scale in the options is the one that is defined. -/
theorem scalesOf_definition (d : Definition) (hleast : settings.minWidth.isFinite = .ok true)
    (hgreatest : settings.maxWidth.isFinite = .ok true) :
    scalesOf settings (some (.map [(.text d.name.text, d.options)])) =
      .ok [(d.name.text, d.scale settings)] := by
  have hscale := d.scaleOf_options settings hleast hgreatest
  show (List.mapM _ [_] >>= _) = _
  simp only [List.mapM_cons, List.mapM_nil, Config.Value.plain, hscale, bind, Except.bind, pure,
    Except.pure]
  rfl

/-- The settings that options give apart from the scales. -/
def baseOf (entries : List (Config.Value × Config.Value)) : Except Error Settings := do
  let default := Settings.default
  let minWidth ← numberOr entries .minWidth OptionName.minWidth.text default.minWidth
  let maxWidth ← numberOr entries .maxWidth OptionName.maxWidth.text default.maxWidth
  let crossPairs ← flagOr entries .crossPairs OptionName.crossPairs.text default.crossPairs
  let lowSpecificity ←
    flagOr entries .lowSpecificity OptionName.lowSpecificity.text default.lowSpecificity
  return ⟨minWidth, maxWidth, crossPairs, lowSpecificity, []⟩

theorem settingsOf_map (entries : List (Config.Value × Config.Value)) :
    settingsOf (.map entries) = baseOf entries >>= fun base =>
      (scalesOf base (option? entries .scales)).map
        fun scales => { base with scales := scales } := by
  simp only [settingsOf, Config.entriesOf, baseOf, bind_assoc, pure_bind]
  rfl

theorem baseOf_congr {others : List (Config.Value × Config.Value)}
    (h : ∀ name ≠ OptionName.scales, option? others name = option? entries name) :
    baseOf others = baseOf entries := by
  have hwidths := And.intro (h .minWidth (by decide)) (h .maxWidth (by decide))
  have hflags := And.intro (h .crossPairs (by decide)) (h .lowSpecificity (by decide))
  simp only [baseOf, numberOr, flagOr, hwidths, hflags]

theorem isFinite_of_baseOf (h : baseOf entries = .ok settings) :
    settings.minWidth.isFinite = .ok true ∧ settings.maxWidth.isFinite = .ok true := by
  obtain ⟨minWidth, hleast, h⟩ := bind_eq_ok.1 h
  obtain ⟨maxWidth, hgreatest, h⟩ := bind_eq_ok.1 h
  obtain ⟨crossPairs, -, h⟩ := bind_eq_ok.1 h
  obtain ⟨lowSpecificity, -, h⟩ := bind_eq_ok.1 h
  obtain rfl := pure_eq_ok.1 h
  exact ⟨(numberOr_eq_ok_iff.1 hleast).2, (numberOr_eq_ok_iff.1 hgreatest).2⟩

/-- The scale comes to the settings, and nothing else does. -/
theorem settingsOf_seeded (hseeds : ∀ v ∈ option? entries .scales, v.isEmpty) (d : Definition) :
    settingsOf (.map (seededEntries entries d)) =
      (settingsOf (.map entries)).map fun settings =>
        { settings with scales := [(d.name.text, d.scale settings)] } := by
  -- The last entry of a key counts, and the new one is for the scales alone.
  have hother : ∀ name ≠ OptionName.scales,
      option? (seededEntries entries d) name = option? entries name := by
    intro name hname
    refine option?_append_of_ne ?_
    cases name <;> first | decide | exact absurd rfl hname
  have hscales : option? (seededEntries entries d) .scales =
      some (.map [(.text d.name.text, d.options)]) := by
    have hkey : OptionName.ofKey? (.text OptionName.scales.text) = some .scales := by decide
    simp [option?, seededEntries, hkey]
  rw [settingsOf_map, settingsOf_map, baseOf_congr hother, hscales]
  cases hbase : baseOf entries with
  | error e => rfl
  | ok base =>
    obtain ⟨hleast, hgreatest⟩ := isFinite_of_baseOf hbase
    simp only [bind, Except.bind, scalesOf_of_isEmpty hseeds,
      scalesOf_definition d hleast hgreatest]
    rfl

theorem scales_of_settingsOf (hseeds : ∀ v ∈ option? entries .scales, v.isEmpty)
    (h : settingsOf (.map entries) = .ok settings) : settings.scales = [] := by
  rw [settingsOf_map] at h
  obtain ⟨base, -, h⟩ := bind_eq_ok.1 h
  rw [scalesOf_of_isEmpty hseeds] at h
  obtain rfl := Except.ok.inj h
  rfl

/-! ## Runs -/

theorem session_of_ok {beginning : Step Settings} {run : Run}
    (h : beginning .empty = .ok settings run)
    (sources : List Text) :
    session beginning sources = .ok (run.registry, answers settings sources run) := by
  simp only [session, h]

theorem session_of_error {beginning : Step Settings} {run : Run} {e : Error}
    (h : beginning .empty = .error e run) (sources : List Text) :
    session beginning sources = .error e := by
  simp only [session, h]

theorem started_of_error {e : Error} (h : settingsOf (.map entries) = .error e) :
    started entries .empty = .error e .empty := by
  have hcheck : check (settingsOf (.map entries)) .empty = .error e .empty := by
    rw [h]
    rfl
  exact step_bind_of_error hcheck

theorem started_of_ok (h : settingsOf (.map entries) = .ok settings) :
    started entries .empty = (seed settings.scales >>= fun _ => pure settings) .empty := by
  have hcheck : check (settingsOf (.map entries)) .empty = .ok settings .empty := by
    rw [h]
    rfl
  exact step_bind_of_ok hcheck

theorem ofParams_params (d : Definition) : Directive.ofParams d.params = .scale := rfl

/-- The fold registers the scale that the directive defines. -/
theorem fold_directive (d : Definition) (settings : Settings) (registry : Registry) :
    Fold.nodes settings registry [.atRule Directive.atName d.params false []] =
      (d.scale settings).compile.map fun compiled =>
        (registry.register d.name.text compiled, Directive.scaleNodes d.name.text compiled) := by
  rw [Fold.nodes_singleton, Fold.node_directive, Fold.directive_scale (ofParams_params d),
    d.readScale_params]
  cases (d.scale settings).compile <;> rfl

/-- **Defining a scale in the options of a run and defining it with a directive are the same.** -/
theorem session_seeded (hseeds : ∀ v ∈ option? entries .scales, v.isEmpty) (d : Definition)
    (sources : List Text) :
    session (seeded entries d) sources = session (directed entries d) sources := by
  have hseeded := settingsOf_seeded hseeds d
  cases hsettings : settingsOf (.map entries) with
  -- Either both begin with the error of the settings, or the scale is compiled on both sides.
  | error e =>
    rw [hsettings] at hseeded
    have hseed : seeded entries d .empty = .error e .empty := started_of_error hseeded
    have hdirected : directed entries d .empty = .error e .empty :=
      step_bind_of_error (started_of_error hsettings)
    rw [session_of_error hseed, session_of_error hdirected]
  | ok settings =>
    rw [hsettings] at hseeded
    have hstarted : started entries .empty = .ok settings .empty := by
      rw [started_of_ok hsettings, scales_of_settingsOf hseeds hsettings]
      rfl
    have hfold := fold_directive d settings .empty
    cases hcompile : (d.scale settings).compile with
    -- The directive leaves a record of the sheet behind, but an error ends the session as well.
    | error e =>
      rw [hcompile] at hfold
      obtain ⟨run', hprocess⟩ := load_process_of_error d.parse_sheet .empty hfold
      have hdirected : directed entries d .empty = .error e run' :=
        (step_bind_of_ok hstarted).trans (step_bind_of_error hprocess)
      have hseed : seeded entries d .empty = .error e .empty :=
        (started_of_ok hseeded).trans (step_bind_of_error (seed_of_error hcompile [] .empty))
      rw [session_of_error hseed, session_of_error hdirected]
    | ok compiled =>
      rw [hcompile] at hfold
      obtain ⟨run', hprocess, hregistry⟩ := load_process_of_ok d.parse_sheet .empty hfold
      have hdirected : directed entries d .empty = .ok settings run' :=
        (step_bind_of_ok hstarted).trans (step_bind_of_ok hprocess)
      have hseed : seeded entries d .empty =
          .ok { settings with scales := [(d.name.text, d.scale settings)] }
            ⟨Registry.empty.register d.name.text compiled, .empty,
              [.scaleCompiled (d.scale settings) compiled]⟩ :=
        (started_of_ok hseeded).trans (step_bind_of_ok (seed_of_ok hcompile [] .empty))
      rw [session_of_ok hseed, session_of_ok hdirected, answers_scales, hregistry]
      exact congrArg (fun a => Except.ok (_, a)) (answers_congr hregistry.symm)

/-- A scale with two pairs, whose widths come in part from the settings. -/
def gapScale : Definition where
  name := ⟨"gap", by decide⟩
  name_ne := by decide
  minWidth := some ⟨480, by decide +kernel⟩
  maxWidth := none
  crossPairs := some true
  pairs := [⟨⟨"s", by decide⟩, ⟨8, by decide +kernel⟩, ⟨16, by decide +kernel⟩⟩,
    ⟨⟨"l", by decide⟩, ⟨24, by decide +kernel⟩, ⟨40, by decide +kernel⟩⟩]
  pairs_ne := by decide
  nodup_names := by decide

/-- Options that set a width and no scales. -/
def wideEntries : List (Config.Value × Config.Value) :=
  [(.text "scales", .null), (.text "maxWidth", .number (.int 1200))]

/-- A style sheet that fails and one that uses the scale. -/
def laterSheets : List Text :=
  ["a\x7bb:ruler.fluid(2,1)\x7d",
    "@ruler utility(\x7bselector: '.gap', property: 'gap', scale: 'gap'\x7d);"]

def gapDirective : Text :=
  "@ruler scale(\x7b prefix: \"gap\", minWidth: 480, generateAllCrossPairs: true, " ++
    "pairs: \x7b \"s\": [8, 16], \"l\": [24, 40] \x7d \x7d);"

/-- The names of the scales that a run begins with, and which style sheets fail in it. -/
def sketch : Except Error (Registry × List Answer) → Option (List Text × List Bool)
  | .ok (registry, answers) => some (registry.names, answers.map fun a => a.error.isSome)
  | .error _ => none

theorem session_seeded_gapScale : gapScale.sheet = gapDirective ∧
    sketch (session (directed wideEntries gapScale) laterSheets) =
      some ([("gap" : Text)], [true, false]) ∧
    session (seeded wideEntries gapScale) laterSheets =
      session (directed wideEntries gapScale) laterSheets := by
  have hseeds : ∀ v ∈ option? wideEntries .scales, v.isEmpty := by decide +kernel
  exact ⟨by decide +kernel, by decide +kernel, session_seeded hseeds gapScale laterSheets⟩

end FluidCss.Run
