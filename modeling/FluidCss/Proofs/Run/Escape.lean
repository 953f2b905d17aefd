import FluidCss.Proofs.Clamp.Failure
import FluidCss.Proofs.Param.Parsing
import FluidCss.Proofs.Run.Agreement
import FluidCss.Proofs.Run.Session
import FluidCss.Proofs.Scale.Label
import FluidCss.Proofs.Sheet.Fault

/-!
# Failures that are not reported

A style sheet that cannot be compiled should give an error of the text. There are two ways around
this. An integer with more digits than are read ends the reading of tokens, in the sheet or in the
parameters of a directive. And a directive may define a scale with a size or a width that is an
integer and too large to be the same as a double: such a number overflows when it meets a double,
or is rounded to the width that it is to be told from.

**Theorem (`processCss_error`).** In a run without settings these are the only ways: any other
failure is an error of the text. In particular inline calls, whose arguments are doubles, selectors
and properties, edits of the tree and the writing of the result do not fail in another way.

Each part of a run has a lemma on its failures, from the numbers of a pair up to a style sheet; the
fold carries them over the nodes of the sheet by induction.
-/

namespace FluidCss

open Component

/-! ## Numbers of a directive -/

theorem Numeral.isReal_of_number? {t : Text} {n : Number} (h : number? t = some n) : n.IsReal := by
  unfold number? at h
  split at h
  · cases h
    trivial
  · obtain ⟨d, -, hd⟩ := Option.bind_eq_some_iff.1 h
    split at hd
    · rename_i hfinite
      cases hd
      exact hfinite
    · cases hd

/-- The widths and sizes of a scale are doubles or integers that are doubles. -/
def Scale.IsExact (scale : Scale) : Prop :=
  scale.minWidth.IsExact ∧ scale.maxWidth.IsExact ∧
    ∀ pair ∈ scale.pairs, pair.least.IsExact ∧ pair.greatest.IsExact

/-- The sizes of a pair have values. -/
def SizePair.IsReal (pair : SizePair) : Prop := pair.least.IsReal ∧ pair.greatest.IsReal

theorem Param.isReal_of_pair? {field : Text × Value} {pair : SizePair}
    (h : pair? field = some pair) : pair.IsReal := by
  have hreal : ∀ n ∈ (itemsOf field.2).filterMap itemNumber?, n.IsReal := by
    intro n hn
    obtain ⟨item, -, hitem⟩ := List.mem_filterMap.1 hn
    cases item with
    | symbol s => exact Numeral.isReal_of_number? hitem
    | list items => cases hitem
    | object fields => cases hitem
  unfold pair? at h
  split at h
  · rename_i least greatest _ hnumbers
    cases h
    rw [hnumbers] at hreal
    exact ⟨hreal _ (by simp), hreal _ (by simp)⟩
  · cases h

theorem Param.isReal_of_mem_pairsOf {value : Option Value} {pair : SizePair}
    (h : pair ∈ pairsOf value) : pair.IsReal := by
  unfold pairsOf at h
  split at h
  · obtain ⟨field, -, hfield⟩ := List.mem_filterMap.1 h
    exact isReal_of_pair? hfield
  · cases h

/-! ## Parameters -/

namespace Param

theorem isTagged_of_isConfiguration {e : Error} (h : Value.IsConfiguration e) :
    e.isTagged = true := by
  unfold Error.isTagged
  rw [show e.kind = .configuration from h]

theorem failsOnly_text? (fields : Fields) (key : Text) :
    FailsOnly (·.isTagged = true) (fields.text? key) := by
  unfold Fields.text?
  split
  · exact .ok _
  · exact .ok _
  · exact .error rfl

theorem failsOnly_flag? (fields : Fields) (key : Text) :
    FailsOnly (·.isTagged = true) (fields.flag? key) :=
  (failsOnly_text? fields key).bind fun _ _ => .ok _

theorem failsOnly_width (fields : Fields) (key : Text) (default : Number) :
    FailsOnly (·.isTagged = true) (fields.width key default) := by
  refine (failsOnly_text? fields key).bind fun text _ => ?_
  cases text with
  | none => exact .ok _
  | some text =>
    dsimp only
    split
    · exact .ok _
    · exact .error rfl

theorem failsOnly_checked (scale : Scale) : FailsOnly (·.isTagged = true) scale.checked := by
  unfold Scale.checked
  split
  · exact .error rfl
  · exact .ok _

theorem failsOnly_scaleOf (fields : Fields) (settings : Settings) :
    FailsOnly (·.isTagged = true) (scaleOf fields settings) := by
  unfold scaleOf
  dsimp only
  split
  · exact .error rfl
  · refine (failsOnly_text? _ _).bind fun _ _ => (failsOnly_flag? _ _).bind fun _ _ => ?_
    refine (failsOnly_width _ _ _).bind fun _ _ => (failsOnly_width _ _ _).bind fun _ _ => ?_
    exact failsOnly_checked _

theorem failsOnly_utilityOf (fields : Fields) :
    FailsOnly (·.isTagged = true) (utilityOf fields) := by
  have hproperty : FailsOnly (·.isTagged = true) (propertyOf fields) := by
    unfold propertyOf
    split
    · exact .ok _
    · exact (failsOnly_text? _ _).bind fun _ _ => .ok _
  refine hproperty.bind fun _ _ => (failsOnly_text? _ _).bind fun _ _ => ?_
  refine (failsOnly_text? _ _).bind fun _ _ => (failsOnly_text? _ _).bind fun _ _ => ?_
  exact (failsOnly_flag? _ _).bind fun _ _ => (failsOnly_flag? _ _).bind fun _ _ => .ok _

theorem isReal_of_scaleOf {fields : Fields} {settings : Settings} {scale : Scale}
    (h : scaleOf fields settings = .ok scale) : ∀ pair ∈ scale.pairs, pair.IsReal := by
  unfold scaleOf at h
  dsimp only at h
  split at h
  · cases h
  · obtain ⟨_, -, h⟩ := bind_eq_ok.1 h
    obtain ⟨_, -, h⟩ := bind_eq_ok.1 h
    obtain ⟨_, -, h⟩ := bind_eq_ok.1 h
    obtain ⟨_, -, h⟩ := bind_eq_ok.1 h
    unfold Scale.checked at h
    split at h
    · cases h
    · cases h
      exact fun pair hpair => isReal_of_mem_pairsOf hpair

end Param

/-! ## Directives -/

namespace Directive

/-- A failure of work on the directive with the given parameters that is not reported as an error
of the text. -/
inductive Escapes (settings : Settings) (params : Text) : Error → Prop
  /-- The parameters hold an integer that is too long. -/
  | integer {digits : Nat} : Numeral.integerDigitLimit < digits →
    ofText (normalize params) = .error (.integerTooLong digits) →
    Escapes settings params (.integerTooLong digits)
  /-- The parameters give a scale with too large a number. -/
  | scale {fields : Param.Fields} {scale : Scale} {cause : ArithmeticError} :
    ofParams params = .scale → Param.Value.readDirective "scale" params = .ok fields →
    Param.scaleOf fields settings = .ok scale → ¬ scale.IsExact → cause ≠ .invalidOperation →
    Escapes settings params (.arithmetic cause)

/-- A failure of work on a directive is reported, or it is one of these. -/
def Fails (settings : Settings) (params : Text) (e : Error) : Prop :=
  e.isTagged = true ∨ Escapes settings params e

variable {settings : Settings} {params : Text}

theorem failsOnly_readDirective (name : Text) :
    FailsOnly (Fails settings params) (Param.Value.readDirective name params) := by
  unfold Param.Value.readDirective Param.Symbol.ofText
  refine FailsOnly.bind (FailsOnly.bind (fun e he => ?_) fun cs _ => ?_) fun ts _ => ?_
  · obtain ⟨digits, rfl, hdigits⟩ := exists_of_ofText_error he
    exact .inr (.integer hdigits he)
  · refine (Param.Symbol.failsOnly_ofComponents false cs).mono ?_
    rintro _ ⟨fault, rfl⟩
    exact .inl rfl
  · exact (Param.Value.failsOnly_readCall name ts).mono
      fun _ he => .inl (Param.isTagged_of_isConfiguration he)

end Directive

/-! ## Scales -/

namespace Scale

variable {minWidth maxWidth : Number}

theorem mem_of_mem_couples {pairs : List SizePair} {couple : SizePair × SizePair}
    (h : couple ∈ couples pairs) :
    (lowerFirst couple).1 ∈ pairs ∧ (lowerFirst couple).2 ∈ pairs := by
  rcases lowerFirst_eq couple.1 couple.2 with hlower | hlower
  · rw [hlower]
    exact mem_couples h
  · rw [hlower]
    exact (mem_couples h).symm

theorem failsOnly_fluidText {minSize maxSize : Number} (hmin : minSize.IsReal)
    (hmax : maxSize.IsReal) : FailsOnly (Fluid.Reports fun c => c ≠ .invalidOperation ∧
      ¬ Fluid.AreExact minSize maxSize minWidth maxWidth)
      (fluidText minSize maxSize minWidth maxWidth) :=
  (Fluid.failsOnly_between hmin hmax).map Fluid.text

/-- An entry is worked out, or it is reported why not, unless the scale has too large a number. -/
theorem failsOnly_compile {scale : Scale} (h : ∀ pair ∈ scale.pairs, pair.IsReal) :
    FailsOnly (Fluid.Reports fun c => c ≠ .invalidOperation ∧ ¬ scale.IsExact) scale.compile := by
  -- Every entry is the fluid value from the least size of a pair to the greatest size of a pair.
  have hentry : ∀ a ∈ scale.pairs, ∀ b ∈ scale.pairs, ∀ f : Text → Entry,
      FailsOnly (Fluid.Reports fun c => c ≠ .invalidOperation ∧ ¬ scale.IsExact)
        (do return f (← fluidText a.least b.greatest scale.minWidth scale.maxWidth)) := by
    intro a ha b hb f
    refine FailsOnly.bind ?_ fun _ _ => .ok _
    refine (failsOnly_fluidText (h a ha).1 (h b hb).2).mono fun e he => he.imp id ?_
    rintro ⟨c, rfl, hcause, hnot⟩
    refine ⟨c, rfl, hcause, fun hexact => hnot ?_⟩
    exact ⟨(hexact.2.2 a ha).1, (hexact.2.2 b hb).2, hexact.1, hexact.2.1⟩
  unfold compile entriesOf
  refine (FailsOnly.mapM fun pair hpair => hentry pair hpair pair hpair _).bind fun _ _ => ?_
  dsimp only
  split
  · refine (FailsOnly.mapM fun couple hcouple => ?_).bind fun _ _ => .ok _
    obtain ⟨hlower, hupper⟩ := mem_of_mem_couples hcouple
    exact hentry _ hlower _ hupper _
  · exact .ok _

end Scale

namespace Directive

variable {settings : Settings} {registry : Registry} {params : Text}

theorem failsOnly_readScale (hkind : ofParams params = .scale) :
    FailsOnly (Fails settings params) (readScale settings params) := by
  refine (failsOnly_readDirective "scale").bind fun fields hfields => ?_
  refine ((Param.failsOnly_scaleOf fields settings).mono fun _ => .inl).bind fun scale hscale => ?_
  refine FailsOnly.bind ?_ fun _ _ => .ok _
  refine (Scale.failsOnly_compile (Param.isReal_of_scaleOf hscale)).mono fun e he => he.imp id ?_
  rintro ⟨c, rfl, hcause, hnot⟩
  exact .scale hkind hfields hscale hnot hcause

theorem failsOnly_expand (u : Utility) :
    FailsOnly (·.isTagged = true) (u.expand registry settings) := by
  have hattribute : FailsOnly (·.isTagged = true) (Utility.checkAttribute u.attributeName) := by
    unfold Utility.checkAttribute
    split
    · exact .ok _
    split
    · exact .error rfl
    split
    · exact .ok _
    · exact .error rfl
  refine FailsOnly.bind ?_ fun _ _ => .ok _
  unfold Utility.checkedEntries
  refine hattribute.bind fun _ _ => ?_
  dsimp only
  split
  · exact .error rfl
  split
  · exact .error rfl
  split
  · exact .error rfl
  split
  · exact .ok _
  · exact .error rfl

theorem failsOnly_readUtility :
    FailsOnly (Fails settings params) (readUtility settings registry params) := by
  refine (failsOnly_readDirective "utility").bind fun fields _ => ?_
  refine ((Param.failsOnly_utilityOf fields).mono fun _ => .inl).bind fun u _ => ?_
  exact ((failsOnly_expand u).mono fun _ => .inl).bind fun _ _ => .ok _

end Directive

/-! ## Inline calls -/

namespace Inline

variable {minWidth maxWidth : Number}

theorem isExact_of_argument? {cs : Text} {n : Number} (h : argument? cs = some n) : n.IsExact := by
  unfold argument? at h
  split at h
  · split at h
    · rename_i d _ hd
      cases h
      exact (Bool.and_eq_true_iff.1 hd).1
    · cases h
  · cases h

/-- The failures of a call are reported: all its numbers are doubles. -/
theorem failsOnly_callText (hmin : minWidth.IsExact) (hmax : maxWidth.IsExact)
    (arguments : Text) :
    FailsOnly (·.isTagged = true) (callText minWidth maxWidth arguments) := by
  have hargument : ∀ {i : Nat} {n : Number},
      (((splitCommas arguments).map argument?)[i]?).join = some n → n.IsExact := by
    intro i n h
    rw [Option.join_eq_some_iff] at h
    obtain ⟨cs, -, hcs⟩ := List.mem_map.1 (List.mem_of_getElem? h)
    exact isExact_of_argument? hcs
  -- A width that is not given is the one of the run.
  have hwidth : ∀ {i : Nat} {width : Number}, width.IsExact →
      ((((splitCommas arguments).map argument?)[i]?).join.getD width).IsExact := by
    intro i width hexact
    cases h : (((splitCommas arguments).map argument?)[i]?).join with
    | none => exact hexact
    | some n => exact hargument h
  unfold callText
  dsimp only
  split
  · rename_i minSize maxSize hminSize hmaxSize
    have hsizes := And.intro (hargument hminSize) (hargument hmaxSize)
    refine (Scale.failsOnly_fluidText hsizes.1.isReal hsizes.2.isReal).mono fun e he => ?_
    rcases he with htagged | ⟨c, -, -, hnot⟩
    · exact htagged
    · exact absurd ⟨hsizes.1, hsizes.2, hwidth hmin, hwidth hmax⟩ hnot
  · exact .error rfl

theorem failsOnly_resolvePieces (hmin : minWidth.IsExact) (hmax : maxWidth.IsExact) :
    ∀ ps : List Piece, FailsOnly (·.isTagged = true) (resolvePieces minWidth maxWidth ps).2
  | [] => .ok _
  | .char c :: ps => (failsOnly_resolvePieces hmin hmax ps).map _
  | .call arguments :: ps => by
    have hcall := failsOnly_callText hmin hmax arguments
    unfold resolvePieces
    split
    · rename_i e he
      exact .error (hcall e he)
    · exact (failsOnly_resolvePieces hmin hmax ps).map _

end Inline

/-! ## Style sheets -/

namespace Fold

variable {settings : Settings} {registry : Registry}

/-- A failure of work on nodes is reported, or it is one of a directive among them. -/
def Fails (settings : Settings) (ns : List Node) (e : Error) : Prop :=
  e.isTagged = true ∨ ∃ params, Meets params ns ∧ Directive.Escapes settings params e

theorem Fails.imp {ns ms : List Node} {e : Error} (h : Fails settings ns e)
    (hmeets : ∀ params, Meets params ns → Meets params ms) : Fails settings ms e :=
  Or.imp id (fun ⟨params, hns, he⟩ => ⟨params, hmeets params hns, he⟩) h

theorem failsOnly_directive (params : Text) (self : Node) :
    FailsOnly (Directive.Fails settings params) (directive settings registry params self) := by
  cases hkind : Directive.ofParams params with
  | scale =>
    rw [directive_scale hkind]
    exact (Directive.failsOnly_readScale hkind).map _
  | utility =>
    rw [directive_utility hkind]
    exact Directive.failsOnly_readUtility.map _
  | unknown =>
    rw [directive_unknown hkind]
    exact .ok _

mutual

theorem failsOnly_node (hmin : settings.minWidth.IsExact) (hmax : settings.maxWidth.IsExact) :
    ∀ (n : Node) (registry : Registry), FailsOnly (Fails settings [n]) (node settings registry n)
  | .declaration property value, _ =>
    FailsOnly.bind ((Inline.failsOnly_resolvePieces hmin hmax _).mono fun _ => .inl)
      fun _ _ => .ok _
  | .comment text, _ => .ok _
  | .rule selector children, registry =>
    ((failsOnly_nodes hmin hmax children registry).mono fun _ he => he.imp fun _ => .rule).bind
      fun _ _ => .ok _
  | .atRule name params isBlock children, registry => by
    rcases eq_or_ne name Directive.atName with rfl | hname
    · rw [node_directive]
      exact (failsOnly_directive params _).mono
        fun _ he => Or.imp id (fun hescapes => ⟨params, .here, hescapes⟩) he
    · rw [node_atRule hname]
      exact ((failsOnly_nodes hmin hmax children registry).mono
        fun _ he => he.imp fun _ => .atRule hname).bind fun _ _ => .ok _
  | .root children, _ => .ok _

/-- **The failures of work on nodes are reported, or come of directives among the nodes.** -/
theorem failsOnly_nodes (hmin : settings.minWidth.IsExact) (hmax : settings.maxWidth.IsExact) :
    ∀ (ns : List Node) (registry : Registry),
      FailsOnly (Fails settings ns) (nodes settings registry ns)
  | [], _ => .ok _
  | n :: ns, registry =>
    ((failsOnly_node hmin hmax n registry).mono
        fun _ he => he.imp fun _ hmeets => hmeets.append_right ns).bind fun _ _ =>
      ((failsOnly_nodes hmin hmax ns _).mono fun _ he => he.imp fun _ => .later).bind
        fun _ _ => .ok _

end

end Fold

namespace Sheet

/-- A style sheet is read, or it is reported why not, unless an integer in it is too long. -/
theorem isTagged_of_parse_error {source : Text} {e : Error} (h : parse source = .error e) :
    e.isTagged = true ∨ ofText (normalize source) = .error e := by
  cases hread : ofText (normalize source) with
  | error e' =>
    have hparse : parse source = .error e' := by
      simp only [parse, hread]
      rfl
    rw [Except.error.inj (h.symm.trans hparse)]
    exact .inr rfl
  | ok cs =>
    have haccounts := parse_accounts hread
    rw [h] at haccounts
    rcases haccounts with ⟨_, _, rfl⟩ | ⟨_, _, -, rfl⟩ <;> exact .inl rfl

end Sheet

/-! ## Runs -/

/-- A failure to compile a style sheet that is not reported as an error of the text. -/
inductive Escapes (source : Text) : Error → Prop
  /-- The sheet holds an integer that is too long. -/
  | sheet {digits : Nat} : Numeral.integerDigitLimit < digits →
    ofText (normalize source) = .error (.integerTooLong digits) →
    Escapes source (.integerTooLong digits)
  /-- The failure is one of a directive in the sheet. -/
  | directive {ns : List Node} {params : Text} {e : Error} : Sheet.parse source = .ok ns →
    Fold.Meets params ns → Directive.Escapes .default params e → Escapes source e

/-- **A style sheet is compiled, or it is reported why not, unless an integer in it is too long, or
a number of a scale in it too large.** -/
theorem processCss_error {source : Text} {e : Error} (h : processCss .default source = .error e) :
    e.isTagged = true ∨ Escapes source e := by
  cases hparse : Sheet.parse source with
  | error e' =>
    have houtcome : processCss .default source = .error e' := by
      simp only [processCss, Step.outcome, step_bind_of_error (Run.load_of_error hparse Run.empty)]
    obtain rfl := Except.error.inj (houtcome.symm.trans h)
    -- The reader fails on faults, which it reports, and on integers that are too long.
    refine (Sheet.isTagged_of_parse_error hparse).imp id fun hread => ?_
    obtain ⟨digits, rfl, hdigits⟩ := exists_of_ofText_error hread
    exact .sheet hdigits hread
  | ok ns =>
    have hexact : ∀ n : Number, n = 320 ∨ n = 1760 → n.IsExact := by
      rintro _ (rfl | rfl) <;> show Int.natAbs _ ≤ 2 ^ 53 <;> norm_num
    obtain ⟨id, f, bs, hload, rfl, hvisited⟩ := Run.exists_visited .default hparse Run.empty
    have hseed : Run.seed Settings.default.scales { Run.empty with forest := f } =
      .ok () { Run.empty with forest := f } := rfl
    simp only [processCss, Step.outcome, step_bind_of_ok hload, step_bind_of_ok hseed] at h
    rcases hvisited.elim with ⟨e', run', hprocess, herror⟩ | ⟨run', bs', hprocess, hw, -⟩
    · rw [step_bind_of_error hprocess] at h
      obtain rfl := Except.error.inj h
      have hfails := @Fold.failsOnly_nodes .default (hexact 320 (.inl rfl)) (hexact 1760 (.inr rfl))
        (Branch.nodes bs) .empty e' herror
      rcases hfails with htagged | ⟨params, hmeets, hescapes⟩
      · exact .inl htagged
      · exact .inr (.directive hparse hmeets hescapes)
    · have hcss : run'.css id = .ok (Node.css 0 (.root (Branch.nodes bs'))) := by
        rw [Run.css, Forest.tree_of_holds hw.holds_mk hw.nodup_mk]
        rfl
      rw [step_bind_of_ok hprocess] at h
      simp only [bind, EStateM.bind, get_apply, hcss] at h
      cases h

/-- A style sheet with a scale between two widths that are different numbers, but the same double.
-/
def closeWidths : Text :=
  "@ruler scale(\x7bminWidth: 9007199254740992.0, maxWidth: 9007199254740993, " ++
    "pairs: \x7ba: [1, 2]\x7d\x7d);"

theorem processCss_error_closeWidths :
    processCss .default closeWidths = .error (.arithmetic .divisionByZero) ∧
      Escapes closeWidths (.arithmetic .divisionByZero) := by
  have h : processCss .default closeWidths = .error (.arithmetic .divisionByZero) := by
    decide +kernel
  exact ⟨h, (processCss_error h).resolve_left (by decide)⟩

/-- A style sheet with a scale whose second size is ten to the 400. -/
def largeSize : Text :=
  Text.ofString "@ruler scale(\x7b pairs: \x7b a: [1, 1" ++ List.replicate 400 (.char '0') ++
    Text.ofString "] \x7d \x7d);"

/-- **A failure may be other than an error of the text.** -/
theorem overflow_escapes : ¬ ∀ (source : Text) (e : Error),
    processCss .default source = .error e → e.isTagged = true := by
  intro h
  have hlarge : processCss .default largeSize = .error (.arithmetic .overflow) := by
    decide +kernel
  exact absurd (h largeSize _ hlarge) (by decide)

end FluidCss
