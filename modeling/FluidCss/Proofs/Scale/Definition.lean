import FluidCss.Config.Options
import FluidCss.Proofs.Config.Settings
import FluidCss.Proofs.Number.Rounding
import FluidCss.Proofs.Param.Reading
import FluidCss.Proofs.Sheet.RoundTrip
import FluidCss.Run.Directive

/-!
# Two ways to define a scale

A scale is defined by a directive in a style sheet or by an entry in the options of a run. Both give
a name and pairs of sizes, and may give widths and a flag; the settings of the run stand in for what
is not given. The directive is a text that is split into tokens, parsed and searched for numbers;
the options are values that are checked one by one.

* `Definition.parse_sheet`: the directive is read as a statement.
* `Definition.scaleOf_fieldsOf`, `Definition.readScale_params`: its parameters are read as the
  scale.
* `Definition.scaleOf_options`: the options are read as the scale.
-/

namespace FluidCss

open Param Param.Value Piece

/-- A text that can stand between double quotes as it is. -/
structure PlainText where
  text : Text
  isPlain : Part.IsPlain text

/-- An integer that both ways take. -/
structure Pixels where
  count : Int
  natAbs_lt : count.natAbs < 10 ^ 300

theorem Pixels.isShort (n : Pixels) : Numeral.IsShort n.count := by
  refine n.natAbs_lt.trans_le ?_
  gcongr <;> decide

namespace Scale

/-- A pair of sizes as it is defined. -/
structure PairDefinition where
  name : PlainText
  least : Pixels
  greatest : Pixels

/-- What is given when a scale is defined. -/
structure Definition where
  name : PlainText
  name_ne : name.text ≠ []
  minWidth : Option Pixels
  maxWidth : Option Pixels
  crossPairs : Option Bool
  pairs : List PairDefinition
  pairs_ne : pairs ≠ []
  nodup_names : (pairs.map fun p => p.name.text).Nodup

/-! ## The scale -/

def PairDefinition.pair (p : PairDefinition) : SizePair :=
  ⟨p.name.text, .int p.least.count, .int p.greatest.count⟩

namespace Definition

/-- The scale that is defined, in a run with the given settings. -/
def scale (d : Definition) (settings : Settings) : Scale where
  minWidth := (d.minWidth.map fun n => Number.int n.count).getD settings.minWidth
  maxWidth := (d.maxWidth.map fun n => Number.int n.count).getD settings.maxWidth
  name := d.name.text
  crossPairs := d.crossPairs.getD settings.crossPairs
  pairs := d.pairs.map PairDefinition.pair

theorem checked_scale (d : Definition) (settings : Settings) :
    Scale.checked (d.scale settings) = .ok (d.scale settings) := by
  have hname : (d.scale settings).name.isEmpty = false := List.isEmpty_eq_false_iff.2 d.name_ne
  simp [Scale.checked, hname]

end Definition

/-! ## The directive -/

def flagText (b : Bool) : Text := if b then "true" else "false"

/-- A pair as a field: the name between quotes and the list of the two sizes. -/
def PairDefinition.text (p : PairDefinition) : Text :=
  fieldText (stringText p.name.text)
    (listText [Number.intText p.least.count, Number.intText p.greatest.count])

namespace Definition

def fieldTexts (d : Definition) : List Text :=
  fieldText "prefix" (stringText d.name.text) ::
    (d.minWidth.toList.map (fun n => fieldText "minWidth" (Number.intText n.count)) ++
      d.maxWidth.toList.map (fun n => fieldText "maxWidth" (Number.intText n.count)) ++
      d.crossPairs.toList.map (fun b => fieldText "generateAllCrossPairs" (flagText b)) ++
      [fieldText "pairs" (objectText (d.pairs.map PairDefinition.text))])

def params (d : Definition) : Text := "scale(" ++ objectText d.fieldTexts ++ ")"

/-- A style sheet that consists of the directive. -/
def sheet (d : Definition) : Text := "@ruler " ++ d.params ++ ";"

end Definition

/-! ## The options -/

open Config in
/-- A pair as an entry: the name with the list of the two sizes. -/
def PairDefinition.option (p : PairDefinition) : Config.Value × Config.Value :=
  (.text p.name.text, .list [.number (.int p.least.count), .number (.int p.greatest.count)])

namespace Definition

open Config in
/-- The entries of the options. -/
def entries (d : Definition) : List (Config.Value × Config.Value) :=
  d.minWidth.toList.map (fun n => (.text OptionName.minWidth.text, .number (.int n.count))) ++
    d.maxWidth.toList.map (fun n => (.text OptionName.maxWidth.text, .number (.int n.count))) ++
    d.crossPairs.toList.map (fun b => (.text OptionName.crossPairs.text, .flag b)) ++
    [(.text "pairs", .map (d.pairs.map PairDefinition.option))]

def options (d : Definition) : Config.Value := .map d.entries

end Definition

/-! ## Reading the directive -/

theorem isName_flagText (b : Bool) : IsName (flagText b) := by
  cases b <;> decide

/-- A size in a list or in a field. -/
def written (n : Pixels) : Written := .ofInt n.count n.isShort

/-- A pair as it is written. -/
def PairDefinition.field (p : PairDefinition) : Key × Written :=
  (.ofString p.name.text p.name.isPlain,
    .ofList [written p.least, written p.greatest] (List.cons_ne_nil _ _))

theorem PairDefinition.pair?_field (p : PairDefinition) :
    pair? (p.field.1.name, p.field.2.value true) = some p.pair := by
  have hleast := Numeral.number?_intText p.least.isShort
  have hgreatest := Numeral.number?_intText p.greatest.isShort
  show pair? (p.name.text, .list [.symbol ⟨.word, Number.intText p.least.count, false⟩,
    .symbol ⟨.word, Number.intText p.greatest.count, true⟩]) = _
  simp [pair?, itemsOf, itemNumber?, hleast, hgreatest, PairDefinition.pair]

namespace Definition

variable (d : Definition) (settings : Settings)

def pairFields : List (Key × Written) := d.pairs.map PairDefinition.field

theorem pairFields_ne : d.pairFields ≠ [] := by simpa [pairFields] using d.pairs_ne

theorem nodup_pairFields : (d.pairFields.map fun f => f.1.name).Nodup := by
  rw [pairFields, List.map_map]
  exact d.nodup_names

def fields : List (Key × Written) :=
  (.ofWord "prefix" (by decide), .ofString d.name.text d.name.isPlain) ::
    (d.minWidth.toList.map (fun n => (.ofWord "minWidth" (by decide), written n)) ++
      d.maxWidth.toList.map (fun n => (.ofWord "maxWidth" (by decide), written n)) ++
      d.crossPairs.toList.map (fun b =>
        (.ofWord "generateAllCrossPairs" (by decide), .ofWord (flagText b) (isName_flagText b))) ++
      [(.ofWord "pairs" (by decide), .ofFields d.pairFields d.pairFields_ne d.nodup_pairFields)])

theorem text_callPart_fields : (callPart "scale" d.fields).text = d.params := by
  have hpair : ∀ p : PairDefinition,
      fieldText p.field.1.part.text p.field.2.part.text = p.text := by
    intro p
    simp [PairDefinition.field, written, Part.text_ofList, PairDefinition.text]
  have hpairs : (objectPart d.pairFields).text = objectText (d.pairs.map PairDefinition.text) := by
    rw [objectPart, Part.text_ofFields, List.map_map, pairFields, List.map_map]
    exact congrArg objectText (List.map_congr_left fun p _ => hpair p)
  have hfields : d.fields.map (fun f => fieldText f.1.part.text f.2.part.text) = d.fieldTexts := by
    simp [fields, fieldTexts, written, hpairs, Function.comp_def]
  rw [text_callPart, hfields]
  rfl

theorem nodup_fields : (d.fields.map fun f => f.1.name).Nodup := by
  cases hleast : d.minWidth <;> cases hgreatest : d.maxWidth <;> cases hcross : d.crossPairs <;>
    · simp only [fields, hleast, hgreatest, hcross, Option.toList, List.map_cons, List.map_nil,
        List.append_nil, List.nil_append, List.cons_append, Key.name_ofWord]
      decide

theorem readDirective_params : readDirective "scale" d.params = .ok (fieldsOf d.fields) := by
  rw [← text_callPart_fields]
  exact readDirective_callPart (by decide) (by decide) (List.cons_ne_nil _ _) d.nodup_fields

/-- What is found among the fields, whichever of the optional ones there are. -/
theorem fields_show :
    Fields.get? (fieldsOf d.fields) "pairs" = some (.object (fieldsOf d.pairFields)) ∧
    Fields.text? (fieldsOf d.fields) "prefix" = .ok (some d.name.text) ∧
    Fields.text? (fieldsOf d.fields) "generateAllCrossPairs" = .ok (d.crossPairs.map flagText) ∧
    Fields.text? (fieldsOf d.fields) "minWidth" =
      .ok (d.minWidth.map fun n => Number.intText n.count) ∧
    Fields.text? (fieldsOf d.fields) "maxWidth" =
      .ok (d.maxWidth.map fun n => Number.intText n.count) := by
  cases hleast : d.minWidth <;> cases hgreatest : d.maxWidth <;> cases hcross : d.crossPairs <;>
    · simp only [fields, hleast, hgreatest, hcross]
      exact ⟨rfl, rfl, rfl, rfl, rfl⟩

theorem pairsOf_pairFields :
    pairsOf (some (.object (fieldsOf d.pairFields))) = d.pairs.map PairDefinition.pair := by
  show (fieldsOf d.pairFields).filterMap pair? = _
  rw [fieldsOf, pairFields, List.map_map, List.filterMap_map, ← List.filterMap_eq_map]
  exact List.filterMap_congr fun p _ => p.pair?_field

theorem width_eq_ok {fields : Fields} {key : Text} {n : Option Pixels} (default : Number)
    (h : fields.text? key = .ok (n.map fun n => Number.intText n.count)) :
    fields.width key default = .ok ((n.map fun n => Number.int n.count).getD default) := by
  cases n with
  | none => simp [Fields.width, h, bind, Except.bind, pure, Except.pure]
  | some n =>
    simp [Fields.width, h, bind, Except.bind, pure, Except.pure, Numeral.number?_intText n.isShort]

theorem flag?_eq_ok {fields : Fields} {key : Text} {b : Option Bool}
    (h : fields.text? key = .ok (b.map flagText)) : fields.flag? key = .ok b := by
  have hflag : ∀ b, (flagText b == "true") = b := by decide
  cases b <;> simp [Fields.flag?, h, bind, Except.bind, pure, Except.pure, hflag]

/-- **The fields of the directive give the scale.** -/
theorem scaleOf_fieldsOf : Param.scaleOf (fieldsOf d.fields) settings = .ok (d.scale settings) := by
  obtain ⟨hpairs, hname, hcross, hleast, hgreatest⟩ := d.fields_show
  have hsome : (d.pairs.map PairDefinition.pair).isEmpty = false := by
    simpa using d.pairs_ne
  simp only [Param.scaleOf, hpairs, pairsOf_pairFields, hsome, hname, flag?_eq_ok hcross,
    width_eq_ok _ hleast, width_eq_ok _ hgreatest, bind, Except.bind]
  exact d.checked_scale settings

/-- **The directive is read as the scale**, if its entries can be computed. -/
theorem readScale_params : Directive.readScale settings d.params =
    (d.scale settings).compile.map fun entries => (d.scale settings, entries) := by
  simp only [Directive.readScale, readDirective_params, scaleOf_fieldsOf, bind, Except.bind]
  cases (d.scale settings).compile <;> rfl

theorem item_callPart_fields : Part.Item [callPart "scale" d.fields] :=
  item_callPart (by decide) (by decide) (List.cons_ne_nil _ _)

/-- What comes before the parameters. -/
def front : List Part := [.leaf "@ruler" (.atKeyword Directive.atName), .gap]

/-- What comes after the parameters. -/
def back : List Part := [.leaf ";" (.literal ";")]

/-- The parts of the style sheet. -/
def parts : List Part := front ++ [callPart "scale" d.fields] ++ back

theorem textAll_parts : Part.textAll d.parts = d.sheet := by
  rw [parts, Part.textAll_append, Part.textAll_append, Part.textAll_cons _ [], text_callPart_fields,
    Part.textAll_nil, List.append_nil]
  rfl

theorem trim_params : Text.trim (" " ++ d.params) = d.params := by
  rw [Text.trim_eq_stripped, stripped_append_left (by decide)]
  refine stripped_eq_self (fun c hc => ?_) fun c hc => ?_
  · obtain rfl := Option.some.inj hc
    decide
  · rw [params, Option.mem_def, List.getLast?_append] at hc
    obtain rfl := Option.some.inj hc
    decide

theorem reads_parts : Part.Reads [] d.parts [.atRule Directive.atName d.params false []] := by
  have hparams : Part.textAll [.gap, callPart "scale" d.fields] = " " ++ d.params := by
    simp [Part.gap, text_callPart_fields]
  have hstatement : Part.Statement (front ++ [callPart "scale" d.fields])
      (.atRule Directive.atName d.params false []) := by
    rw [← trim_params, ← hparams]
    exact .atRule
  have hgap : Part.gap.role = .space := rfl
  have hcall : (callPart "scale" d.fields).role = .other := rfl
  exact .begin rfl (.more (List.cons_ne_nil _ _) (by simp [hgap]) (by simp [hgap])
    (.more (List.cons_ne_nil _ _) (by simp [hcall]) (by simp [hcall])
      (.statement hstatement rfl .nil)))

theorem spelled_parts : Spelled (Part.piecesAll d.parts) [] := by
  have hcall := d.item_callPart_fields
  have hback : Part.Bounded (Part.textAll back ++ []) := Part.bounded_cons (by decide) []
  rw [parts, Part.piecesAll_append, spelled_append, Part.piecesAll_append, spelled_append]
  refine ⟨⟨⟨?_, ?_, trivial⟩, hcall.spelled _ hback⟩, readsIn_semicolon [], trivial⟩
  · exact readsIn_atKeyword (by decide) (by decide) (stops_cons (by decide) _)
  · exact readsIn_gap (hcall.isSpace_head hback)

/-- **A style sheet that consists of the directive is read as the directive.** -/
theorem parse_sheet :
    Sheet.parse d.sheet = .ok [.atRule Directive.atName d.params false []] := by
  have hcall := d.item_callPart_fields
  have hshort : Part.Short d.parts := by
    have hfront : Part.Short front :=
      Part.short_append.2 ⟨Part.short_leaf rfl, Part.short_leaf rfl⟩
    exact Part.short_append.2 ⟨Part.short_append.2 ⟨hfront, hcall.short⟩, Part.short_leaf rfl⟩
  have hnormal : IsNormal (Part.textAll d.parts) := by
    rw [parts, Part.textAll_append, Part.textAll_append]
    exact normal_append.2 ⟨normal_append.2 ⟨by decide, hcall.normal⟩, by decide⟩
  rw [← textAll_parts]
  exact Sheet.parse_textAll ⟨hshort, hnormal⟩ d.spelled_parts d.reads_parts

end Definition

/-! ## Reading the options -/

open Config

theorem toNumber_eq_ok (key : Text) {n : Number} (h : n.isFinite = .ok true) :
    toNumber key (.number n) = .ok n :=
  toNumber_eq_ok_iff.2 ⟨rfl, h⟩

theorem PairDefinition.pairOf_option (scale : Text) (p : PairDefinition) :
    pairOf scale p.option = .ok p.pair := by
  have hleast := Number.isFinite_int p.least.natAbs_lt
  have hgreatest := Number.isFinite_int p.greatest.natAbs_lt
  simp only [pairOf, PairDefinition.option, toNumber_eq_ok _ hleast, toNumber_eq_ok _ hgreatest]
  rfl

theorem mapM_pairOf (scale : Text) (ps : List PairDefinition) :
    (ps.map PairDefinition.option).mapM (pairOf scale) = .ok (ps.map PairDefinition.pair) := by
  induction ps with
  | nil => rfl
  | cons p ps ih =>
    rw [List.map_cons, List.mapM_cons, p.pairOf_option, ih]
    rfl

/-- A width from the options, or that of the settings. -/
theorem numberOr_eq_ok {entries : List (Config.Value × Config.Value)} {name : OptionName}
    (key : Text)
    {default : Number} {n : Option Pixels}
    (hdefault : default.isFinite = .ok true)
    (h : option? entries name = n.map fun n => .number (.int n.count)) :
    numberOr entries name key default = .ok ((n.map fun n => Number.int n.count).getD default) := by
  rw [numberOr, h]
  cases n with
  | none => exact toNumber_eq_ok key hdefault
  | some n => exact toNumber_eq_ok key (Number.isFinite_int n.natAbs_lt)

theorem flagOr_eq_ok {entries : List (Config.Value × Config.Value)} {name : OptionName} (key : Text)
    {default : Bool} {b : Option Bool} (h : option? entries name = b.map .flag) :
    flagOr entries name key default = .ok (b.getD default) := by
  rw [flagOr, h]
  cases b <;> rfl

namespace Definition

variable (d : Definition) (settings : Settings)

/-- What is found among the entries, whichever of the optional ones there are. -/
theorem entries_show :
    entry? d.entries "pairs" = some (.map (d.pairs.map PairDefinition.option)) ∧
    option? d.entries .minWidth = d.minWidth.map (fun n => .number (.int n.count)) ∧
    option? d.entries .maxWidth = d.maxWidth.map (fun n => .number (.int n.count)) ∧
    option? d.entries .crossPairs = d.crossPairs.map .flag := by
  cases hleast : d.minWidth <;> cases hgreatest : d.maxWidth <;> cases hcross : d.crossPairs <;>
    · simp only [entries, hleast, hgreatest, hcross]
      exact ⟨rfl, rfl, rfl, rfl⟩

theorem pairEntries_entries (scale : Text) :
    pairEntries scale d.entries = .ok (d.pairs.map PairDefinition.option) := by
  obtain ⟨p, ps, hps⟩ := List.exists_cons_of_ne_nil d.pairs_ne
  rw [pairEntries, d.entries_show.1, hps, List.map_cons]

/-- **The options give the scale**, if the widths of the settings are finite. -/
theorem scaleOf_options (hleast : settings.minWidth.isFinite = .ok true)
    (hgreatest : settings.maxWidth.isFinite = .ok true) :
    Config.scaleOf settings d.name.text d.options = .ok (d.scale settings) := by
  obtain ⟨-, hminWidth, hmaxWidth, hcross⟩ := d.entries_show
  simp only [Config.scaleOf, options, pairEntries_entries, mapM_pairOf,
    numberOr_eq_ok _ hleast hminWidth, numberOr_eq_ok _ hgreatest hmaxWidth, flagOr_eq_ok _ hcross,
    bind, Except.bind]
  exact d.checked_scale settings

end Definition

end Scale

end FluidCss
