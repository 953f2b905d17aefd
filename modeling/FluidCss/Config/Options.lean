import FluidCss.Config.Value
import FluidCss.Settings

/-!
# Settings from options

Options are known by two spellings, and of two values the later one counts. Unknown options are
ignored. The widths and flags are checked before the scales, and the scales one after the other; a
scale takes from the run what it does not give. Values that are empty or zero count as absent where
a mapping is wanted.
-/

namespace FluidCss.Config

/-- The options that mean something. -/
inductive OptionName where
  | minWidth
  | maxWidth
  | crossPairs
  | lowSpecificity
  | scales
  deriving DecidableEq

namespace OptionName

/-- The spelling that messages use. -/
def text : OptionName → Text
  | minWidth => "minWidth"
  | maxWidth => "maxWidth"
  | crossPairs => "generateAllCrossPairs"
  | lowSpecificity => "lowSpecificity"
  | scales => "scales"

/-- The other spelling. -/
def alternative : OptionName → Text
  | minWidth => "min_width"
  | maxWidth => "max_width"
  | crossPairs => "generate_all_cross_pairs"
  | lowSpecificity => "low_specificity"
  | scales => "scales"

def all : List OptionName := [minWidth, maxWidth, crossPairs, lowSpecificity, scales]

/-- The option that a key names. -/
def ofKey? : Value → Option OptionName
  | .text t => all.find? fun name => t = name.text ∨ t = name.alternative
  | _ => none

end OptionName

/-- The value that a mapping gives an option, the last one if there are several. -/
def option? (entries : List (Value × Value)) (name : OptionName) : Option Value :=
  (entries.reverse.find? fun (key, _) => OptionName.ofKey? key = some name).map Prod.snd

/-- The value of an entry under a text key. -/
def entry? (entries : List (Value × Value)) (key : Text) : Option Value :=
  (entries.find? fun (k, _) => k.sameKey (.text key)).map Prod.snd

/-! ## Single values -/

/-- Demands a finite number. -/
def toNumber (key : Text) : Value → Except Error Number
  | .number n => do
    if ← Error.ofArithmetic n.isFinite then return n
    else throw (.optionNotFinite key n.text)
  | v => .error (.optionNotNumber key v.describe)

/-- A flag as the value of an option. -/
def toFlag (key : Text) : Value → Except Error Bool
  | .flag b => .ok b
  | v => .error (.optionNotFlag key v.describe)

/-- A number option, or the given number if it is absent. -/
def numberOr (entries : List (Value × Value)) (name : OptionName) (key : Text)
    (default : Number) : Except Error Number :=
  toNumber key ((option? entries name).getD (.number default))

/-- A flag option, or the given flag if it is absent. -/
def flagOr (entries : List (Value × Value)) (name : OptionName) (key : Text)
    (default : Bool) : Except Error Bool :=
  toFlag key ((option? entries name).getD (.flag default))

/-! ## Scales -/

/-- The pair that an entry defines, whose value is a list that begins with two numbers. -/
def pairOf (scale : Text) : Value × Value → Except Error SizePair
  | (name, .list (least :: greatest :: _)) => do
    let key := scale ++ "." ++ name.plain
    return ⟨name.plain, ← toNumber key least, ← toNumber key greatest⟩
  | (name, value) => .error (.seedPairMalformed name.describe scale value.describe)

/-- The entries of the `pairs` of a scale, of which there must be one. -/
def pairEntries (scale : Text) (entries : List (Value × Value)) :
    Except Error (List (Value × Value)) :=
  match entry? entries "pairs" with
  | some (.map (pair :: pairs)) => .ok (pair :: pairs)
  | _ => .error (.seedPairsMissing scale)

/-- The scale that an entry of the option `scales` defines. -/
def scaleOf (settings : Settings) (name : Text) : Value → Except Error Scale
  | .map entries => do
    let pairs ← (← pairEntries name entries).mapM (pairOf name)
    let key (option : OptionName) := name ++ "." ++ option.text
    let minWidth ← numberOr entries .minWidth (key .minWidth) settings.minWidth
    let maxWidth ← numberOr entries .maxWidth (key .maxWidth) settings.maxWidth
    let crossPairs ← flagOr entries .crossPairs (key .crossPairs) settings.crossPairs
    Scale.checked ⟨minWidth, maxWidth, name, crossPairs, pairs⟩
  | v => .error (.seedNotMapping name v.describe)

/-- The scales of the option `scales`, by name. -/
def scalesOf (settings : Settings) (value : Option Value) :
    Except Error (List (Text × Scale)) :=
  match value.filter fun v => !v.isEmpty with
  | none => .ok []
  | some (.map entries) => do
    return Ordered.ofList (← entries.mapM fun (key, raw) => do
      return (key.plain, ← scaleOf settings key.plain raw))
  | some v => .error (.scalesNotMapping v.describe)

/-! ## Settings -/

/-- The entries of a mapping; a value that counts as absent has none. -/
def entriesOf : Value → Except Error (List (Value × Value))
  | .map entries => .ok entries
  | v => if v.isEmpty then .ok [] else .error .optionsNotMapping

/-- The settings that options give, on top of the default ones. -/
def settingsOf (options : Value) : Except Error Settings := do
  let entries ← entriesOf options
  let minWidth ← numberOr entries .minWidth OptionName.minWidth.text Settings.default.minWidth
  let maxWidth ← numberOr entries .maxWidth OptionName.maxWidth.text Settings.default.maxWidth
  let crossPairs ←
    flagOr entries .crossPairs OptionName.crossPairs.text Settings.default.crossPairs
  let lowSpecificity ←
    flagOr entries .lowSpecificity OptionName.lowSpecificity.text Settings.default.lowSpecificity
  let run : Settings := ⟨minWidth, maxWidth, crossPairs, lowSpecificity, []⟩
  return { run with scales := ← scalesOf run (option? entries .scales) }

end FluidCss.Config
