import FluidCss.Proofs.Component.Spelling
import FluidCss.Proofs.Param.Nesting
import FluidCss.Proofs.Run.Agreement
import FluidCss.Proofs.Sheet.Reading

/-!
# Directives that are called by their names

The start of its parameters tells what a directive is for, before they are read. The parameters of a
style sheet have no blanks at their ends, so the name that is found there is the first of their
symbols, and the call that is read is the one that was looked for.

* `Fold.areTrimmed_of_parse`: parameters are cut out without the blanks around them.
* `Param.Symbol.exists_of_ofText_call`: the first symbol of a text that begins with a call.
* `readDirective_nested`: which errors the reading of parameters cannot end in.
-/

namespace FluidCss

/-! ## The parameters of a style sheet -/

theorem Sheet.trim_sliceFrom (text : Text) (components : List Component) (stop : Nat) :
    Text.trim (sliceFrom text components stop) = sliceFrom text components stop := by
  cases components with
  | nil => rfl
  | cons c cs => exact Text.trim_trim _

namespace Fold

open Sheet

/-- The directives that the fold comes to have no blanks around their parameters. -/
def AreTrimmed (nodes : List Node) : Prop :=
  ∀ params, Meets params nodes → Text.trim params = params

variable {text : Text} {components : List Component} {stop : Nat} {node : Node}
  {nodes children : List Node}

theorem AreTrimmed.nil : AreTrimmed [] := by
  intro params h
  cases h

theorem AreTrimmed.cons (hnode : AreTrimmed [node]) (hnodes : AreTrimmed nodes) :
    AreTrimmed (node :: nodes) := by
  intro params h
  cases h with
  | here => exact hnode params .here
  | rule h => exact hnode params (.rule h)
  | atRule hname h => exact hnode params (.atRule hname h)
  | later h => exact hnodes params h

theorem areTrimmed_atRule {name params : Text} {block : Bool} (hparams : Text.trim params = params)
    (hchildren : AreTrimmed children) : AreTrimmed [.atRule name params block children] := by
  intro params' h
  cases h with
  | here => exact hparams
  | atRule _ h => exact hchildren params' h
  | later h => cases h

theorem areTrimmed_statementOf (h : statementOf text components stop = .ok node) :
    AreTrimmed [node] := by
  unfold statementOf at h
  split at h
  · obtain rfl := Except.ok.inj h
    exact areTrimmed_atRule (trim_sliceFrom ..) .nil
  · unfold declarationOf at h
    split at h
    · cases h
    · dsimp only at h
      split at h
      · cases h
      · obtain rfl := Except.ok.inj h
        rintro params (_ | _ | _ | h)
        cases h

theorem areTrimmed_blockOf (h : AreTrimmed children) :
    AreTrimmed [blockOf text components stop children] := by
  unfold blockOf
  split
  · exact areTrimmed_atRule (trim_sliceFrom ..) h
  · intro params hmeets
    cases hmeets with
    | rule hmeets => exact h params hmeets
    | later hmeets => cases hmeets

mutual

theorem areTrimmed_childrenOf : ∀ (c : Component) {stop : Nat} {children : List Node},
    childrenOf text stop c = .ok children → AreTrimmed children
  | .block _ _ content _, stop, children, h => areTrimmed_nodesOf content h
  | .leaf .., stop, children, h => by
    obtain rfl := Except.ok.inj h
    exact .nil
  | .fault .., stop, children, h => by
    obtain rfl := Except.ok.inj h
    exact .nil
  | .function .., stop, children, h => by
    obtain rfl := Except.ok.inj h
    exact .nil

/-- The nodes of a block are trimmed, whatever statement was begun before. -/
theorem areTrimmed_nodesOf : ∀ (cs : List Component) {pending : List Component} {stop : Nat}
    {nodes : List Node}, nodesOf text stop pending cs = .ok nodes → AreTrimmed nodes
  | [], pending, stop, nodes, h => by
    by_cases hpending : pending = []
    · subst hpending
      obtain rfl := Except.ok.inj h
      exact .nil
    · obtain ⟨node, hnode, rfl⟩ := (Part.nodesOf_nil_iff hpending).1 h
      exact areTrimmed_statementOf hnode
  | c :: cs, pending, stop, nodes, h => by
    -- What is taken decides which node comes of it, if any; a comment has no parameters.
    cases Part.taken_of_ok h with
    | space _ _ hrest | semicolon _ _ hrest | begin _ _ hrest | more _ _ _ hrest =>
      exact areTrimmed_nodesOf cs hrest
    | @comment t _ _ _ hrest =>
      have hcomment : AreTrimmed [.comment t] := by
        rintro params (_ | _ | _ | h)
        cases h
      exact hcomment.cons (areTrimmed_nodesOf cs hrest)
    | statement _ _ hnode hrest =>
      exact (areTrimmed_statementOf hnode).cons (areTrimmed_nodesOf cs hrest)
    | block _ hchildren hrest =>
      exact (areTrimmed_blockOf (areTrimmed_childrenOf c hchildren)).cons
        (areTrimmed_nodesOf cs hrest)

end

theorem areTrimmed_of_parse {source : Text} (h : parse source = .ok nodes) : AreTrimmed nodes := by
  obtain ⟨cs, -, h⟩ := bind_eq_ok.1 h
  exact areTrimmed_nodesOf cs h

end Fold

/-! ## The first symbol -/

namespace Param.Symbol

theorem normalizePoint_of_isPart {p : CodePoint} (h : Name.isPart p) : normalizePoint p = p := by
  have hdiffer : p ≠ '\r' ∧ p ≠ '\x0c' ∧ p ≠ '\x00' := by
    refine ⟨?_, ?_, ?_⟩ <;> rintro rfl <;> exact absurd h (by decide)
  simp [normalizePoint, hdiffer]

/-- The components of a text that begins with a call are that call and others. -/
theorem exists_of_ofText_call {name after : Text} {cs : List Component} (hname : IsName name)
    (hurl : name.map CodePoint.toLower ≠ "url")
    (h : Component.ofText (name ++ "(" ++ after) = .ok cs) :
    ∃ content close others, cs = .function 0 name content close :: others := by
  -- The name and its bracket are one token, whatever comes after them.
  have hspelled : Piece.Spelled [⟨name ++ "(", .function name⟩] after :=
    ⟨Piece.readsIn_function hname hurl after, trivial⟩
  have hscan := hspelled.scan 0
  rw [Piece.textOf_cons, Piece.textOf_nil, List.append_nil] at hscan
  simp only [Component.ofText, hscan] at h
  split at h
  · cases h
  · obtain rfl := Except.ok.inj h
    obtain ⟨inside, here, outer, hnest⟩ := Part.exists_nest_cons .round []
      (Lexeme.scan (name ++ "(").length 0 after)
    rw [← Nat.zero_add (name ++ "(").length] at hnest
    have hcontent : Component.ofLexemes (Piece.located 0 [⟨name ++ "(", .function name⟩] ++
        Lexeme.scan (0 + (name ++ "(").length) 0 after) =
          .function 0 name inside.content inside.close :: here.content := by
      simp only [Component.ofLexemes, Piece.located, List.singleton_append, Component.nest, hnest,
        Component.Level.push]
    exact ⟨_, _, _, hcontent⟩

/-- **The first symbol of a text that begins with a call is its name.** -/
theorem exists_of_ofText {name after : Text} {ts : List Symbol} (hname : IsName name)
    (hurl : name.map CodePoint.toLower ≠ "url") (h : ofText (name ++ "(" ++ after) = .ok ts) :
    ∃ others, ts = ⟨.function, name, false⟩ :: others := by
  have hnormal : ∀ c ∈ name ++ "(", normalizePoint c = c := by
    intro c hc
    rcases List.mem_append.1 hc with hc | hc
    · exact normalizePoint_of_isPart (hname.isPart c hc)
    · obtain rfl := List.mem_singleton.1 hc
      rfl
  obtain ⟨cs, hread, h⟩ := bind_eq_ok.1 h
  rw [normalize_append hnormal] at hread
  obtain ⟨content, close, others, rfl⟩ := exists_of_ofText_call hname hurl hread
  obtain ⟨first, hfirst, h⟩ := bind_eq_ok.1 h
  obtain ⟨rest, -, h⟩ := bind_eq_ok.1 h
  obtain ⟨inner, -, hfirst⟩ := bind_eq_ok.1 hfirst
  rw [← pure_eq_ok.1 h, ← pure_eq_ok.1 hfirst]
  exact ⟨_, rfl⟩

end Param.Symbol

namespace Directive

/-- The name that the call of a directive has. -/
def callName? : Directive → Option Text
  | scale => some ("scale" : Text)
  | utility => some ("utility" : Text)
  | unknown => none

/-- The parameters of a directive that is called by a name begin with a call of that name. -/
theorem exists_of_callName? {params name : Text} (htrim : Text.trim params = params)
    (h : (ofParams params).callName? = some name) :
    IsName name ∧ name.map CodePoint.toLower ≠ "url" ∧ ∃ after, params = name ++ "(" ++ after := by
  -- Directives are told apart without the blanks before them, and here there are none.
  have hstart : Text.trimStart params = params := by
    cases params with
    | nil => rfl
    | cons c params => simp [Text.trimStart, Text.isBlank_head_of_trim htrim c rfl]
  have hscale : IsName "scale" := by decide
  have hutility : IsName "utility" := by decide
  cases hkind : ofParams params with
  | scale =>
    rw [hkind] at h
    obtain rfl := Option.some.inj h
    obtain ⟨after, hparams⟩ := ofParams_eq_scale_iff.1 hkind
    exact ⟨hscale, by decide, after, (hparams.trans hstart).symm⟩
  | utility =>
    rw [hkind] at h
    obtain rfl := Option.some.inj h
    obtain ⟨after, hparams⟩ := ofParams_eq_utility_iff.1 hkind
    exact ⟨hutility, by decide, after, (hparams.trans hstart).symm⟩
  | unknown =>
    rw [hkind] at h
    cases h

end Directive

/-! ## Errors that cannot arise -/

namespace Param.Value

theorem readDirective_of_ofText {name params : Text} {ts : List Symbol}
    (h : Symbol.ofText params = .ok ts) : readDirective name params = readCall name ts := by
  rw [readDirective, h]
  rfl

/-- Apart from errors of the text, a directive fails where its symbols are read as a call. -/
theorem readCall_of_readDirective_error {name params : Text} {e : Error}
    (h : readDirective name params = .error e) (hdigits : ∀ digits, e ≠ .integerTooLong digits)
    (hfault : ∀ fault, e ≠ .malformedParams fault) :
    ∃ ts, Symbol.ofText params = .ok ts ∧ readCall name ts = .error e := by
  cases hread : Symbol.ofText params with
  | error e' =>
    rw [readDirective, hread] at h
    obtain rfl := Except.error.inj h
    rcases Symbol.failsOnly_ofText params _ hread with ⟨digits, he⟩ | ⟨fault, he⟩
    · exact absurd he (hdigits digits)
    · exact absurd he (hfault fault)
  | ok ts => exact ⟨ts, rfl, readDirective_of_ofText hread ▸ h⟩

/-- **Parameters do not end too early**, unless they have no symbols at all. -/
theorem readDirective_eq_paramsEnd_iff (name params : Text) :
    readDirective name params = .error .paramsEnd ↔ Symbol.ofText params = .ok [] := by
  constructor
  · intro h
    obtain ⟨ts, hread, hcall⟩ := readCall_of_readDirective_error h (by simp) (by simp)
    by_contra hne
    have hfails := failsOnly_readCall_of_isNested name (isNested_ofText hread) fun hnil =>
      hne (by rw [hread, hnil])
    exact hfails _ hcall rfl
  · intro h
    rw [readDirective_of_ofText h]
    rfl

/-- **The call that a directive of a style sheet is taken for is the call that is read.** -/
theorem readDirective_ne_callExpected {params name found : Text}
    (htrim : Text.trim params = params)
    (hname : (Directive.ofParams params).callName? = some name) :
    readDirective name params ≠ .error (.callExpected name found) := by
  intro h
  obtain ⟨hisName, hurl, after, hparams⟩ := Directive.exists_of_callName? htrim hname
  obtain ⟨ts, hread, hcall⟩ := readCall_of_readDirective_error h (by simp) (by simp)
  rw [hparams] at hread
  obtain ⟨others, rfl⟩ := Symbol.exists_of_ofText hisName hurl hread
  cases failsOnly_readCall_cons rfl rfl others _ hcall

/-- **The symbols of a text are nested, and so reading never comes to their end.** If a text has any
symbols, it does not end too early as the parameters of a directive; and if it is the parameters of
a directive of a style sheet, the call that the directive is taken for is the one that is found. -/
theorem readDirective_nested (text : Text) :
    (∀ ts, Symbol.ofText text = .ok ts → IsNested ts) ∧
      (∀ name, readDirective name text = .error .paramsEnd ↔ Symbol.ofText text = .ok []) ∧
      ∀ source nodes found, Sheet.parse source = .ok nodes → Fold.Meets text nodes →
        (Directive.ofParams text = .scale →
          readDirective "scale" text ≠ .error (.callExpected "scale" found)) ∧
        (Directive.ofParams text = .utility →
          readDirective "utility" text ≠ .error (.callExpected "utility" found)) := by
  refine ⟨fun ts => isNested_ofText, fun name => readDirective_eq_paramsEnd_iff name text, ?_⟩
  intro source nodes found hparse hmeets
  have htrim := Fold.areTrimmed_of_parse hparse text hmeets
  constructor
  · intro hscale
    exact readDirective_ne_callExpected htrim (by rw [hscale, Directive.callName?])
  · intro hutility
    exact readDirective_ne_callExpected htrim (by rw [hutility, Directive.callName?])

/-- A call in which four brackets are open where the text ends. -/
def unclosedCall : Text := "scale(\x7b a: f(["

theorem readDirective_nested_unclosedCall : ∃ ts nodes,
    Symbol.ofText unclosedCall = .ok ts ∧ ts.length = 10 ∧ IsNested ts ∧
      Sheet.parse ("@ruler " ++ unclosedCall) = .ok nodes ∧ Fold.Meets unclosedCall nodes ∧
      Directive.ofParams unclosedCall = .scale ∧
      readDirective "scale" unclosedCall ≠ .error .paramsEnd ∧
      ∀ found, readDirective "scale" unclosedCall ≠ .error (.callExpected "scale" found) := by
  obtain ⟨hnested, hend, hcall⟩ := readDirective_nested unclosedCall
  have hread : Symbol.ofText unclosedCall = .ok
      [⟨.function, "scale", false⟩, ⟨.punctuation, "\x7b", false⟩, ⟨.word, "a", true⟩,
        ⟨.divider, ":", false⟩, ⟨.function, "f", true⟩, ⟨.punctuation, "[", false⟩,
        ⟨.punctuation, "]", false⟩, ⟨.punctuation, ")", false⟩, ⟨.punctuation, "\x7d", false⟩,
        ⟨.punctuation, ")", false⟩] := by
    decide +kernel
  have hparse : Sheet.parse ("@ruler " ++ unclosedCall) =
      .ok [.atRule "ruler" unclosedCall false []] := rfl
  have hscale : Directive.ofParams unclosedCall = .scale := by decide
  refine ⟨_, _, hread, rfl, hnested _ hread, hparse, .here, hscale, ?_, fun found => ?_⟩
  · rw [Ne, hend, hread]
    simp
  · exact (hcall _ _ found hparse .here).1 hscale

end Param.Value

end FluidCss
