import FluidCss.Param.Extract
import FluidCss.Proofs.Component.Renaming
import FluidCss.Proofs.Param.Parsing

/-!
# The names of nested calls

**Theorem (`renamed_calls_read_alike`).** Where the tokens of two directives differ in the names of
nested calls and in nothing else (`Lexeme.AreRenamedInside`), both directives fail, with the same
error, or both mean the same, if the names agree as far as they are taken. A name is taken as the
text of a field with a single value, as a flag, as a width, and as a number of a pair
(`SameForScale`, `SameForUtility`), and from nowhere else. So a call is not quite opaque
(`call_sets_flag`).

A nested call is passed over up to its closing bracket whatever its name is. The walks through both
rows of symbols hence take the same steps, and the values that they give are the same but for names
(`contents_renamed`). They part only where a call stands in the place of a key or a bracket: the
error tells its name. What a directive means is then compared field by field, and `text?_cases` says
for each field that it has the same text in both objects or is a call in both. -/

namespace FluidCss

namespace Param

/-! ## Symbols and values that differ in names -/

/-- Two symbols are one, or names of functions. -/
inductive Symbol.Renamed : Symbol → Symbol → Prop
  | same (t : Symbol) : Renamed t t
  | function (name name' : Text) (spaced : Bool) :
    Renamed ⟨.function, name, spaced⟩ ⟨.function, name', spaced⟩

/-- Symbols in a row that are the same but for the names of functions. -/
abbrev Symbol.AreRenamed : List Symbol → List Symbol → Prop := List.Forall₂ Symbol.Renamed

/-- The same symbol and after it symbols that are the same but for the names of functions. -/
inductive Symbol.AreRenamedInside : List Symbol → List Symbol → Prop
  | nil : AreRenamedInside [] []
  | cons (t : Symbol) {ts us : List Symbol} (h : Symbol.AreRenamed ts us) :
    AreRenamedInside (t :: ts) (t :: us)

mutual

/-- Two values are the same but for the names of calls. -/
inductive Value.Renamed : Value → Value → Prop
  | symbol {t u : Symbol} (h : Symbol.Renamed t u) : Value.Renamed (.symbol t) (.symbol u)
  | list {items items' : List Value} (h : Value.AreRenamed items items') :
    Value.Renamed (.list items) (.list items')
  | object {fields fields' : Fields} (h : Fields.Renamed fields fields') :
    Value.Renamed (.object fields) (.object fields')

/-- Values in a row that are the same but for the names of calls. -/
inductive Value.AreRenamed : List Value → List Value → Prop
  | nil : Value.AreRenamed [] []
  | cons {v w : Value} {vs ws : List Value} (h : Value.Renamed v w)
    (hothers : Value.AreRenamed vs ws) : Value.AreRenamed (v :: vs) (w :: ws)

/-- Fields with the same keys whose values are the same but for the names of calls. -/
inductive Fields.Renamed : Fields → Fields → Prop
  | nil : Fields.Renamed [] []
  | cons (key : Text) {v w : Value} {fields fields' : Fields} (h : Value.Renamed v w)
    (hothers : Fields.Renamed fields fields') :
    Fields.Renamed ((key, v) :: fields) ((key, w) :: fields')

end

theorem Value.AreRenamed.append_singleton {vs ws : List Value} {v w : Value}
    (h : Value.AreRenamed vs ws) (hlast : Value.Renamed v w) :
    Value.AreRenamed (vs ++ [v]) (ws ++ [w]) := by
  induction vs generalizing ws with
  | nil =>
    cases h
    exact .cons hlast .nil
  | cons _ vs ih =>
    cases h with
    | cons hfirst hothers => exact .cons hfirst (ih hothers)

theorem Fields.Renamed.put {fields fields' : Fields} (h : Fields.Renamed fields fields')
    (key : Text) {v w : Value} (hvalue : Value.Renamed v w) :
    Fields.Renamed (Ordered.put key v fields) (Ordered.put key w fields') := by
  induction fields generalizing fields' with
  | nil =>
    cases h
    exact .cons key hvalue .nil
  | cons e fields ih =>
    cases h with
    | cons other hother hothers =>
      simp only [Ordered.put]
      split
      · exact .cons other hvalue hothers
      · exact .cons other hother (ih hothers)

/-! ## Symbols of trees -/

namespace Symbol

theorem areRenamed_refl (ts : List Symbol) : AreRenamed ts ts :=
  List.forall₂_same.2 fun t _ => .same t

mutual

theorem ofComponent_renamed (spaced : Bool) {c d : Component} :
    c.Renamed d → Matched AreRenamed (ofComponent spaced c) (ofComponent spaced d)
  | .leaf l => .ok (areRenamed_refl _)
  | .fault f => .error _
  | .function h => (ofComponents_renamed false h).bind fun _ _ hinner =>
      .ok (.cons (.function _ _ spaced) (List.rel_append hinner (areRenamed_refl _)))
  | .block b h => (ofComponents_renamed false h).bind fun _ _ hinner =>
      .ok (.cons (.same _) (List.rel_append hinner (areRenamed_refl _)))

theorem ofComponents_renamed (spaced : Bool) {cs ds : List Component} :
    Component.AreRenamed cs ds →
      Matched AreRenamed (ofComponents spaced cs) (ofComponents spaced ds)
  | .nil => .ok .nil
  | .cons h hothers => by
    rw [ofComponents, ofComponents, h.isSpace_eq, h.isBlank_eq]
    split
    · exact ofComponents_renamed true hothers
    split
    · exact ofComponents_renamed spaced hothers
    · exact (ofComponent_renamed spaced h).bind fun _ _ hfirst =>
        (ofComponents_renamed false hothers).bind fun _ _ hrest =>
          .ok (List.rel_append hfirst hrest)

end

/-- The first symbol of a component is not inside of it, whatever follows the component. -/
theorem ofComponent_renamedInside (spaced : Bool) {c d : Component} (h : c.RenamedInside d) :
    Matched (fun ts us => ∀ ts' us', AreRenamed ts' us' → AreRenamedInside (ts ++ ts') (us ++ us'))
      (ofComponent spaced c) (ofComponent spaced d) := by
  cases h with
  | leaf l => exact .ok fun _ _ hothers => .cons _ hothers
  | fault f => exact .error _
  | function name h =>
    exact (ofComponents_renamed false h).bind fun _ _ hinner =>
      .ok fun _ _ hothers =>
        .cons _ (List.rel_append (List.rel_append hinner (areRenamed_refl _)) hothers)
  | block b h =>
    exact (ofComponents_renamed false h).bind fun _ _ hinner =>
      .ok fun _ _ hothers =>
        .cons _ (List.rel_append (List.rel_append hinner (areRenamed_refl _)) hothers)

theorem ofComponents_renamedInside (spaced : Bool) {cs ds : List Component}
    (h : Component.AreRenamedInside cs ds) :
    Matched AreRenamedInside (ofComponents spaced cs) (ofComponents spaced ds) := by
  induction h generalizing spaced with
  | nil => exact .ok .nil
  -- Blanks before the call are alike in kind, though they may stand at other places.
  | @blank start start' l cs ds hblank _ ih =>
    have hleaf : (Component.leaf start l).Renamed (.leaf start' l) := .leaf l
    have hempty : (Component.leaf start' l).isBlank := hblank
    rw [ofComponents, ofComponents, hleaf.isSpace_eq, hleaf.isBlank_eq, hempty]
    split
    · exact ih true
    · exact ih spaced
  | @first c d cs ds h hfull hothers =>
    have hspace : c.isSpace = false := Component.isSpace_eq_false hfull
    rw [ofComponents, ofComponents, ← h.renamed.isSpace_eq, ← h.renamed.isBlank_eq, hspace, hfull]
    exact (ofComponent_renamedInside spaced h).bind fun _ _ hfirst =>
      (ofComponents_renamed false hothers).bind fun _ _ hrest => .ok (hfirst _ _ hrest)

end Symbol

namespace Value

/-! ## Reading -/

variable {t u : Symbol} {ts us : List Symbol}

/-- Two ways to read are alike: both fail with the same error, or both at a call that stands where a
key or a bracket is due, or both give results that are in a relation. -/
inductive ReadAlike {α β : Type} (R : α → β → Prop) : Except Error α → Except Error β → Prop
  | error (e : Error) : ReadAlike R (.error e) (.error e)
  | key (name name' : Text) : ReadAlike R (.error (.keyExpected name)) (.error (.keyExpected name'))
  | bracket (text name name' : Text) :
    ReadAlike R (.error (.bracketExpected text name)) (.error (.bracketExpected text name'))
  | ok {a : α} {b : β} (h : R a b) : ReadAlike R (.ok a) (.ok b)

theorem ReadAlike.of_matched {α β : Type} {R : α → β → Prop} {x : Except Error α}
    {y : Except Error β} (h : Matched R x y) : ReadAlike R x y := by
  cases h with
  | error e => exact .error e
  | ok h => exact .ok h

theorem ReadAlike.imp {α β : Type} {R S : α → β → Prop} {x : Except Error α} {y : Except Error β}
    (h : ReadAlike R x y) (hRS : ∀ a b, R a b → S a b) : ReadAlike S x y := by
  cases h with
  | error e => exact .error e
  | key name name' => exact .key name name'
  | bracket text name name' => exact .bracket text name name'
  | ok h => exact .ok (hRS _ _ h)

theorem ReadAlike.bind {α β α' β' : Type} {R : α → β → Prop} {S : α' → β' → Prop}
    {x : Except Error α} {y : Except Error β} {f : α → Except Error α'} {g : β → Except Error β'}
    (h : ReadAlike R x y) (hfg : ∀ a b, R a b → ReadAlike S (f a) (g b)) :
    ReadAlike S (x >>= f) (y >>= g) := by
  cases h with
  | error e => exact .error e
  | key name name' => exact .key name name'
  | bracket text name name' => exact .bracket text name name'
  | ok h => exact hfg _ _ h

theorem skipDividers_renamed (h : Symbol.AreRenamed ts us) :
    Symbol.AreRenamed (skipDividers ts) (skipDividers us) := by
  induction h with
  | nil => exact .nil
  | @cons t u ts us ht hothers ih =>
    cases ht with
    | same t =>
      unfold skipDividers
      rw [List.dropWhile_cons, List.dropWhile_cons]
      split
      · exact ih
      · exact .cons (.same t) hothers
    | function name name' spaced => exact .cons (.function name name' spaced) hothers

theorem splitRun_renamed (last : Symbol) (h : Symbol.AreRenamed ts us) :
    (splitRun last ts).1 = (splitRun last us).1 ∧
      Symbol.AreRenamed (splitRun last ts).2 (splitRun last us).2 := by
  induction h generalizing last with
  | nil => exact ⟨rfl, .nil⟩
  | @cons t u ts us ht hothers ih =>
    cases ht with
    | same t =>
      obtain ⟨hrun, hrest⟩ := ih t
      simp only [splitRun]
      split
      · exact ⟨congrArg (t :: ·) hrun, hrest⟩
      · exact ⟨rfl, .cons (.same t) hothers⟩
    -- A call ends the run before it, whatever its name is.
    | function name name' spaced => exact ⟨rfl, .cons (.function name name' spaced) hothers⟩

theorem afterCall_renamed (depth : Nat) (h : Symbol.AreRenamed ts us) :
    Matched Symbol.AreRenamed (afterCall depth ts) (afterCall depth us) := by
  induction h generalizing depth with
  | nil => exact .error _
  | @cons t u ts us ht hothers ih =>
    cases ht with
    | same t =>
      unfold afterCall
      split
      · exact ih (depth + 1)
      split
      · cases depth with
        | zero => exact .ok hothers
        | succ depth => exact ih depth
      · exact ih depth
    | function name name' spaced => exact ih (depth + 1)

theorem expect_renamed (bracket : Text) (h : Symbol.AreRenamed ts us) :
    ReadAlike Symbol.AreRenamed (expect bracket ts) (expect bracket us) := by
  cases h with
  | nil => exact .error _
  | cons ht hothers =>
    cases ht with
    | same t =>
      simp only [expect]
      split
      · exact .ok hothers
      · exact .error _
    | function name name' spaced => exact .bracket bracket name name'

/-- Parts of objects and lists that are the same but for the names of calls. -/
inductive Unfinished.Renamed : Unfinished → Unfinished → Prop
  | object {fields fields' : Fields} (h : Fields.Renamed fields fields') :
    Unfinished.Renamed (.object fields) (.object fields')
  | list {items items' : List Value} (h : Value.AreRenamed items items') :
    Unfinished.Renamed (.list items) (.list items')

/-- What is read and what is left are the same but for the names of calls. -/
def RenamedWithRest (x y : Value × List Symbol) : Prop :=
  x.1.Renamed y.1 ∧ Symbol.AreRenamed x.2 y.2

theorem readWith_renamed
    {contents : Unfinished → List Symbol → Except Error (Value × List Symbol)}
    (h : ∀ {part part' ts us}, part.Renamed part' → Symbol.AreRenamed ts us →
      ReadAlike RenamedWithRest (contents part ts) (contents part' us))
    (key : Option Text) (ht : t.Renamed u) (hothers : Symbol.AreRenamed ts us) :
    ReadAlike RenamedWithRest (readWith contents key t ts) (readWith contents key u us) := by
  cases ht with
  | same t =>
    unfold readWith
    split
    · exact h (.object .nil) hothers
    split
    · exact h (.list .nil) hothers
    split
    · exact (ReadAlike.of_matched (afterCall_renamed 0 hothers)).bind fun _ _ hrest =>
        .ok ⟨.symbol (.same _), hrest⟩
    split
    · exact .ok ⟨.symbol (.same t), hothers⟩
    split
    · exact .error _
    · obtain ⟨hrun, hrest⟩ := splitRun_renamed t hothers
      dsimp only
      rw [hrun]
      exact .ok ⟨.symbol (.same _), hrest⟩
  | function name name' spaced =>
    exact (ReadAlike.of_matched (afterCall_renamed 0 hothers)).bind fun _ _ hrest =>
      .ok ⟨.symbol (.function name name' false), hrest⟩

theorem contents_renamed : ∀ (bound : Nat) {part part' : Unfinished} {ts us : List Symbol},
    part.Renamed part' → Symbol.AreRenamed ts us →
      ReadAlike RenamedWithRest (contents bound part ts) (contents bound part' us)
  | 0, part, part', ts, us, _, _ => by
    simp only [contents]
    exact .error _
  -- Both rows are read by the same turns, so each turn is compared with its counterpart.
  | bound + 1, part, part', ts, us, hpart, hts => by
    have ih : ∀ {part part' ts us}, Unfinished.Renamed part part' → Symbol.AreRenamed ts us →
        ReadAlike RenamedWithRest (contents bound part ts) (contents bound part' us) :=
      contents_renamed bound
    have hskip := skipDividers_renamed hts
    unfold contents
    generalize skipDividers ts = ts' at hskip
    generalize skipDividers us = us' at hskip
    cases hskip with
    | nil => exact .error _
    | @cons t u ts us ht hothers =>
      cases hpart with
      | object hfields =>
        cases ht with
        | same t =>
          dsimp only
          split
          · exact .ok ⟨.object hfields, hothers⟩
          split
          · have hvalue := skipDividers_renamed hothers
            generalize skipDividers ts = ts' at hvalue
            generalize skipDividers us = us' at hvalue
            cases hvalue with
            | nil => exact .error _
            | cons hfirst hrest =>
              exact (readWith_renamed ih (some t.text) hfirst hrest).bind fun _ _ hread =>
                ih (.object (hfields.put t.text hread.1)) hread.2
          · exact .error _
        -- A call where a key is wanted is refused by its own name.
        | function name name' spaced => exact .key name name'
      | list hitems =>
        have hread := readWith_renamed ih none ht hothers
        cases ht with
        | same t =>
          dsimp only
          split
          · exact .ok ⟨.list hitems, hothers⟩
          · exact hread.bind fun _ _ hread => ih (.list (hitems.append_singleton hread.1)) hread.2
        | function name name' spaced =>
          exact hread.bind fun _ _ hread => ih (.list (hitems.append_singleton hread.1)) hread.2

theorem Renamed.fields {v w : Value} (h : v.Renamed w) : Fields.Renamed v.fields w.fields := by
  cases h with
  | symbol h => exact .nil
  | list h => exact .nil
  | object h => exact h

theorem readArgument_renamed {ts us : List Symbol} (h : Symbol.AreRenamed ts us) :
    ReadAlike Fields.Renamed (readArgument ts) (readArgument us) := by
  refine (expect_renamed _ h).bind fun inside inside' hinside => ?_
  rw [hinside.length_eq]
  refine (contents_renamed _ (.object .nil) hinside).bind fun x y hread => ?_
  exact (expect_renamed _ (skipDividers_renamed hread.2)).bind fun _ _ _ => .ok hread.1.fields

theorem readCall_renamed (name : Text) {ts us : List Symbol} (h : Symbol.AreRenamedInside ts us) :
    ReadAlike Fields.Renamed (readCall name ts) (readCall name us) := by
  cases h with
  | nil => exact .error _
  | cons t h =>
    simp only [readCall]
    split
    · cases h with
      | nil => exact readArgument_renamed .nil
      | @cons u u' _ _ hu hothers =>
        have hread := readArgument_renamed (.cons hu hothers)
        cases hu with
        | same u =>
          dsimp only
          split
          · exact .ok .nil
          · exact hread
        | function name name' spaced => exact hread
    · exact .error _

theorem readDirective_of_components (name : Text) {p : Text} {cs : List Component}
    (h : Component.ofText (normalize p) = .ok cs) :
    readDirective name p = (Symbol.ofComponents false cs >>= readCall name) := by
  unfold readDirective Symbol.ofText
  rw [h]
  rfl

/-- **The objects of two directives differ in the names of calls only**, if the parameters do. -/
theorem readDirective_renamed (name : Text) {p q : Text}
    (h : Lexeme.AreRenamedInside (Lexeme.scan 0 0 (normalize p)) (Lexeme.scan 0 0 (normalize q))) :
    ReadAlike Fields.Renamed (readDirective name p) (readDirective name q) := by
  have hsymbols : Matched Symbol.AreRenamedInside (Symbol.ofText p) (Symbol.ofText q) :=
    (Component.ofText_renamedInside h).bind fun _ _ => Symbol.ofComponents_renamedInside false
  exact (ReadAlike.of_matched hsymbols).bind fun _ _ => readCall_renamed name

end Value

/-! ## What is taken from names -/

open Numeral (number?)

/-- The name of a value that is a call. -/
def Value.callName? : Value → Option Text
  | .symbol s => if s.kind = .function then some s.text else none
  | .list _ | .object _ => none

/-- The number that the name of each call in a list is read as. -/
def Value.callNumbers : Value → List (Option Number)
  | .list items => items.map fun item => item.callName?.bind number?
  | .symbol _ | .object _ => []

/-- The numbers that the names of calls in the pairs of a scale are read as. -/
def callSizes : Option Value → List (List (Option Number))
  | some (.object pairs) => pairs.map fun pair => pair.2.callNumbers
  | _ => []

namespace Fields

/-- The name of the call that is the value of a field. -/
def call? (fields : Fields) (key : Text) : Option Text := (fields.get? key).bind Value.callName?

/-- Whether the name of the call that is the value of a field sets a flag. -/
def callFlag? (fields : Fields) (key : Text) : Option Bool :=
  (fields.call? key).map fun (name : Text) => name == "true"

/-- The width that a text is read as. -/
def widthOf (key text : Text) : Except Error Number :=
  match number? text with
  | some n => .ok n
  | none => .error (.numberExpected key text)

/-- The width that the name of the call is read as, which is the value of a field. -/
def callWidth? (fields : Fields) (key : Text) : Option (Except Error Number) :=
  (fields.call? key).map (widthOf key)

/-- Two objects have the same of what a scale takes from the names of calls. -/
structure SameForScale (fields fields' : Fields) : Prop where
  name : fields.call? "prefix" = fields'.call? "prefix"
  crossPairs : fields.callFlag? "generateAllCrossPairs" = fields'.callFlag? "generateAllCrossPairs"
  minWidth : fields.callWidth? "minWidth" = fields'.callWidth? "minWidth"
  maxWidth : fields.callWidth? "maxWidth" = fields'.callWidth? "maxWidth"
  sizes : callSizes (fields.get? "pairs") = callSizes (fields'.get? "pairs")

/-- Two objects have the same of what a utility takes from the names of calls. -/
structure SameForUtility (fields fields' : Fields) : Prop where
  texts : ∀ key ∈ (["property", "selector", "attribute", "scale"] : List Text),
    fields.call? key = fields'.call? key
  flags : ∀ key ∈ (["generateAllCrossPairs", "lowSpecificity"] : List Text),
    fields.callFlag? key = fields'.callFlag? key

theorem width_of_text? {fields : Fields} {key text : Text} (h : fields.text? key = .ok (some text))
    (default : Number) : fields.width key default = widthOf key text := by
  simp only [width, h, widthOf]
  rfl

namespace Renamed

variable {fields fields' : Fields}

theorem get?_cases (h : Fields.Renamed fields fields') (key : Text) :
    (fields.get? key = none ∧ fields'.get? key = none) ∨
      ∃ v w, fields.get? key = some v ∧ fields'.get? key = some w ∧ v.Renamed w := by
  induction fields generalizing fields' with
  | nil =>
    cases h
    exact .inl ⟨rfl, rfl⟩
  | cons e fields ih =>
    cases h with
    | cons other hvalue hothers =>
      simp only [get?, Ordered.get?]
      split
      · exact .inr ⟨_, _, rfl, rfl, hvalue⟩
      · exact ih hothers

theorem text?_cases (h : Fields.Renamed fields fields') (key : Text) :
    (fields.text? key = fields'.text? key) ∨
      ∃ name name', fields.call? key = some name ∧ fields'.call? key = some name' ∧
        fields.text? key = .ok (some name) ∧ fields'.text? key = .ok (some name') := by
  rcases h.get?_cases key with ⟨hnone, hnone'⟩ | ⟨v, w, hv, hw, hrenamed⟩
  · exact .inl (by rw [text?, text?, hnone, hnone'])
  · cases hrenamed with
    | symbol hsymbol =>
      -- Only the symbol of a call has a text that differs.
      cases hsymbol with
      | same t => exact .inl (by rw [text?, text?, hv, hw])
      | function name name' spaced =>
        exact .inr ⟨name, name', by simp [call?, hv, Value.callName?],
          by simp [call?, hw, Value.callName?], by rw [text?, hv], by rw [text?, hw]⟩
    | list _ => exact .inl (by rw [text?, text?, hv, hw])
    | object _ => exact .inl (by rw [text?, text?, hv, hw])

theorem text?_eq (h : Fields.Renamed fields fields') {key : Text}
    (hcall : fields.call? key = fields'.call? key) : fields.text? key = fields'.text? key := by
  rcases h.text?_cases key with htext | ⟨name, name', hname, hname', htext, htext'⟩
  · exact htext
  · rw [hname, hname'] at hcall
    rw [htext, htext', hcall]

theorem flag?_eq (h : Fields.Renamed fields fields') {key : Text}
    (hcall : fields.callFlag? key = fields'.callFlag? key) :
    fields.flag? key = fields'.flag? key := by
  rcases h.text?_cases key with htext | ⟨name, name', hname, hname', htext, htext'⟩
  · rw [flag?, flag?, htext]
  · rw [callFlag?, callFlag?, hname, hname'] at hcall
    rw [flag?, flag?, htext, htext']
    exact congrArg Except.ok hcall

theorem width_eq (h : Fields.Renamed fields fields') {key : Text}
    (hcall : fields.callWidth? key = fields'.callWidth? key) (default : Number) :
    fields.width key default = fields'.width key default := by
  rcases h.text?_cases key with htext | ⟨name, name', hname, hname', htext, htext'⟩
  · rw [width, width, htext]
  · rw [callWidth?, callWidth?, hname, hname'] at hcall
    rw [width_of_text? htext, width_of_text? htext']
    exact Option.some.inj hcall

end Renamed

end Fields

/-! ## Pairs and properties -/

/-- An item of a list is read as the same number, if it is not a call. -/
theorem Value.Renamed.itemNumber?_eq {v w : Value} (h : v.Renamed w)
    (hcall : v.callName?.bind number? = w.callName?.bind number?) :
    itemNumber? v = itemNumber? w := by
  cases h with
  | symbol h =>
    cases h with
    | same t => rfl
    | function name name' spaced => exact hcall
  | list h => rfl
  | object h => rfl

theorem Value.Renamed.itemString?_eq {v w : Value} (h : v.Renamed w) :
    itemString? v = itemString? w := by
  cases h with
  | symbol h => cases h <;> rfl
  | list h => rfl
  | object h => rfl

theorem Value.AreRenamed.filterMap_itemString? {vs ws : List Value} (h : Value.AreRenamed vs ws) :
    vs.filterMap itemString? = ws.filterMap itemString? := by
  induction vs generalizing ws with
  | nil =>
    cases h
    rfl
  | cons v vs ih =>
    cases h with
    | cons hfirst hothers =>
      rw [List.filterMap_cons, List.filterMap_cons, hfirst.itemString?_eq, ih hothers]

theorem Value.AreRenamed.filterMap_itemNumber? {vs ws : List Value} (h : Value.AreRenamed vs ws)
    (hcalls : vs.map (fun item => item.callName?.bind number?) =
      ws.map fun item => item.callName?.bind number?) :
    vs.filterMap itemNumber? = ws.filterMap itemNumber? := by
  induction vs generalizing ws with
  | nil =>
    cases h
    rfl
  | cons v vs ih =>
    cases h with
    | cons hfirst hothers =>
      obtain ⟨hcall, hcalls⟩ := List.cons.inj hcalls
      rw [List.filterMap_cons, List.filterMap_cons, hfirst.itemNumber?_eq hcall, ih hothers hcalls]

theorem pair?_symbol (key : Text) (s : Symbol) : pair? (key, .symbol s) = none := by
  cases h : number? s.text <;> simp [pair?, itemsOf, itemNumber?, h]

theorem Value.Renamed.pair?_eq {v w : Value} (h : v.Renamed w) (key : Text)
    (hcalls : v.callNumbers = w.callNumbers) : pair? (key, v) = pair? (key, w) := by
  cases h with
  | symbol h => rw [pair?_symbol, pair?_symbol]
  | list h =>
    unfold pair? itemsOf
    rw [h.filterMap_itemNumber? hcalls]
  | object h => rfl

theorem Fields.Renamed.filterMap_pair? {fields fields' : Fields} (h : Fields.Renamed fields fields')
    (hcalls : callSizes (some (.object fields)) = callSizes (some (.object fields'))) :
    fields.filterMap pair? = fields'.filterMap pair? := by
  induction fields generalizing fields' with
  | nil =>
    cases h
    rfl
  | cons e fields ih =>
    cases h with
    | cons key hvalue hothers =>
      obtain ⟨hcall, hcalls⟩ := List.cons.inj hcalls
      rw [List.filterMap_cons, List.filterMap_cons, hvalue.pair?_eq key hcall, ih hothers hcalls]

namespace Fields.Renamed

variable {fields fields' : Fields}

theorem pairsOf_eq (h : Fields.Renamed fields fields')
    (hsizes : callSizes (fields.get? "pairs") = callSizes (fields'.get? "pairs")) :
    pairsOf (fields.get? "pairs") = pairsOf (fields'.get? "pairs") := by
  rcases h.get?_cases "pairs" with ⟨hnone, hnone'⟩ | ⟨v, w, hv, hw, hrenamed⟩
  · rw [hnone, hnone']
  · rw [hv, hw] at hsizes ⊢
    cases hrenamed with
    | symbol _ => rfl
    | list _ => rfl
    | object hpairs => exact hpairs.filterMap_pair? hsizes

theorem propertyOf_eq (h : Fields.Renamed fields fields')
    (hcall : fields.call? "property" = fields'.call? "property") :
    propertyOf fields = propertyOf fields' := by
  have htext := h.text?_eq hcall
  unfold propertyOf
  rcases h.get?_cases "property" with ⟨hnone, hnone'⟩ | ⟨v, w, hv, hw, hrenamed⟩
  · rw [hnone, hnone', htext]
  · rw [hv, hw, htext]
    cases hrenamed with
    | symbol _ => rfl
    | list hitems => simp only [hitems.filterMap_itemString?]
    | object _ => rfl

/-- **A scale takes nothing else from the names of calls.** -/
theorem scaleOf_eq (h : Fields.Renamed fields fields') (hsame : SameForScale fields fields')
    (settings : Settings) : scaleOf fields settings = scaleOf fields' settings := by
  unfold scaleOf
  rw [h.pairsOf_eq hsame.sizes, h.text?_eq hsame.name, h.flag?_eq hsame.crossPairs,
    h.width_eq hsame.minWidth, h.width_eq hsame.maxWidth]

/-- **A utility takes nothing else from the names of calls.** -/
theorem utilityOf_eq (h : Fields.Renamed fields fields') (hsame : SameForUtility fields fields') :
    utilityOf fields = utilityOf fields' := by
  unfold utilityOf
  rw [h.propertyOf_eq (hsame.texts "property" (by simp)),
    h.text?_eq (hsame.texts "selector" (by simp)), h.text?_eq (hsame.texts "attribute" (by simp)),
    h.text?_eq (hsame.texts "scale" (by simp)),
    h.flag?_eq (hsame.flags "generateAllCrossPairs" (by simp)),
    h.flag?_eq (hsame.flags "lowSpecificity" (by simp))]

end Fields.Renamed

namespace Value

/-- **Parameters that differ in the names of nested calls are read alike**: both fail, with the same
error but for a call that stands where a key or a bracket is due, or both give the same scale or
utility, if the names of their calls are the same where one is taken. -/
theorem renamed_calls_read_alike {p q : Text}
    (h : Lexeme.AreRenamedInside (Lexeme.scan 0 0 (normalize p)) (Lexeme.scan 0 0 (normalize q))) :
    ReadAlike (fun fields fields' => Fields.SameForScale fields fields' →
        ∀ settings, scaleOf fields settings = scaleOf fields' settings)
      (readDirective "scale" p) (readDirective "scale" q) ∧
    ReadAlike (fun fields fields' => Fields.SameForUtility fields fields' →
        utilityOf fields = utilityOf fields')
      (readDirective "utility" p) (readDirective "utility" q) := by
  constructor
  · exact (readDirective_renamed "scale" h).imp fun _ _ hfields => hfields.scaleOf_eq
  · exact (readDirective_renamed "utility" h).imp fun _ _ hfields => hfields.utilityOf_eq

/-- A scale with a call as its flag and another one among the sizes of a pair. -/
def scaleWithCalls (name : Text) : Text :=
  "scale(\x7bgenerateAllCrossPairs:" ++ name ++
    "() pairs:\x7b\x61:[8 " ++ name ++ "(1) 16]\x7d\x7d)"

/-- The tokens of `scaleWithCalls`, if the name is a single letter. -/
def lexemesWithCalls (name : Text) : List Lexeme :=
  [⟨0, .function "scale"⟩, ⟨6, .opener .curly⟩, ⟨7, .leaf (.ident "generateAllCrossPairs")⟩,
    ⟨28, .leaf (.literal ":")⟩, ⟨29, .function name⟩, ⟨31, .closer .round⟩, ⟨32, .leaf .space⟩,
    ⟨33, .leaf (.ident "pairs")⟩, ⟨38, .leaf (.literal ":")⟩, ⟨39, .opener .curly⟩,
    ⟨40, .leaf (.ident "a")⟩, ⟨41, .leaf (.literal ":")⟩, ⟨42, .opener .square⟩,
    ⟨43, .leaf (.number "8")⟩, ⟨44, .leaf .space⟩, ⟨45, .function name⟩, ⟨47, .leaf (.number "1")⟩,
    ⟨48, .closer .round⟩, ⟨49, .leaf .space⟩, ⟨50, .leaf (.number "16")⟩, ⟨52, .closer .square⟩,
    ⟨53, .closer .curly⟩, ⟨54, .closer .curly⟩, ⟨55, .closer .round⟩]

/-- The trees that these tokens make up. -/
def componentsWithCalls (name : Text) : List Component :=
  [.function 0 "scale" [.block 6 .curly
    [.leaf 7 (.ident "generateAllCrossPairs"), .leaf 28 (.literal ":"),
      .function 29 name [] (some 31), .leaf 32 .space,
      .leaf 33 (.ident "pairs"), .leaf 38 (.literal ":"), .block 39 .curly
      [.leaf 40 (.ident "a"), .leaf 41 (.literal ":"), .block 42 .square
        [.leaf 43 (.number "8"), .leaf 44 .space,
          .function 45 name [.leaf 47 (.number "1")] (some 48),
          .leaf 49 .space, .leaf 50 (.number "16")] (some 52)] (some 53)] (some 54)] (some 55)]

/-- The object of `scaleWithCalls`. -/
def fieldsWithCalls (name : Text) : Fields :=
  [("generateAllCrossPairs", .symbol ⟨.function, name, false⟩),
    ("pairs", .object [("a", .list [.symbol ⟨.word, "8", false⟩, .symbol ⟨.function, name, false⟩,
      .symbol ⟨.word, "16", true⟩])])]

theorem renamed_calls_read_alike_crowdedScale :
    Lexeme.AreRenamedInside (Lexeme.scan 0 0 (normalize (scaleWithCalls "f")))
      (Lexeme.scan 0 0 (normalize (scaleWithCalls "g"))) ∧
    readDirective "scale" (scaleWithCalls "f") = .ok (fieldsWithCalls "f") ∧
    readDirective "scale" (scaleWithCalls "g") = .ok (fieldsWithCalls "g") ∧
    Fields.SameForScale (fieldsWithCalls "f") (fieldsWithCalls "g") ∧
    ∀ settings,
      scaleOf (fieldsWithCalls "f") settings = scaleOf (fieldsWithCalls "g") settings := by
  have hf : Lexeme.scan 0 0 (normalize (scaleWithCalls "f")) = lexemesWithCalls "f" := rfl
  have hg : Lexeme.scan 0 0 (normalize (scaleWithCalls "g")) = lexemesWithCalls "g" := rfl
  have hrenamed : Lexeme.AreRenamedInside (lexemesWithCalls "f") (lexemesWithCalls "g") :=
    .call _ (by repeat' constructor)
  have hread : readDirective "scale" (scaleWithCalls "f") = .ok (fieldsWithCalls "f") := by
    have htrees : Component.ofText (normalize (scaleWithCalls "f")) =
        .ok (componentsWithCalls "f") := rfl
    -- The reader is evaluated on the components, since those of the text are known
    rw [readDirective_of_components "scale" htrees]
    cbv
  have hread' : readDirective "scale" (scaleWithCalls "g") = .ok (fieldsWithCalls "g") := by
    have htrees : Component.ofText (normalize (scaleWithCalls "g")) =
        .ok (componentsWithCalls "g") := rfl
    rw [readDirective_of_components "scale" htrees]
    cbv
  have hsame : Fields.SameForScale (fieldsWithCalls "f") (fieldsWithCalls "g") :=
    { name := by cbv
      crossPairs := by cbv
      minWidth := by cbv
      maxWidth := by cbv
      sizes := by
        have hno : number? "f" = none := by decide +kernel
        have hno' : number? "g" = none := by decide +kernel
        change [[none, number? "f", none]] = [[none, number? "g", none]]
        rw [hno, hno'] }
  rw [← hf, ← hg] at hrenamed
  have halike := (renamed_calls_read_alike hrenamed).1
  rw [hread, hread'] at halike
  cases halike with
  | ok hscale => exact ⟨hrenamed, hread, hread', hsame, hscale hsame⟩

/-- A utility with a call as its flag. -/
def utilityWithCall (name : Text) : Text := "utility(\x7blowSpecificity:" ++ name ++ "(x)\x7d)"

/-- The tokens of `utilityWithCall`, if the name has four letters. -/
def lexemesWithCall (name : Text) : List Lexeme :=
  [⟨0, .function "utility"⟩, ⟨8, .opener .curly⟩, ⟨9, .leaf (.ident "lowSpecificity")⟩,
    ⟨23, .leaf (.literal ":")⟩, ⟨24, .function name⟩, ⟨29, .leaf (.ident "x")⟩,
      ⟨30, .closer .round⟩,
    ⟨31, .closer .curly⟩, ⟨32, .closer .round⟩]

/-- The trees that these tokens make up. -/
def componentsWithCall (name : Text) : List Component :=
  [.function 0 "utility"
    [.block 8 .curly [.leaf 9 (.ident "lowSpecificity"), .leaf 23 (.literal ":"),
    .function 24 name [.leaf 29 (.ident "x")] (some 30)] (some 31)] (some 32)]

/-- **A call sets a flag**, if it is named `true`. -/
theorem call_sets_flag : ¬ ∀ p q : Text,
    Lexeme.AreRenamedInside (Lexeme.scan 0 0 (normalize p)) (Lexeme.scan 0 0 (normalize q)) →
    (readDirective "utility" p >>= utilityOf) = (readDirective "utility" q >>= utilityOf) := by
  intro h
  have htrue : Lexeme.scan 0 0 (normalize (utilityWithCall "true")) = lexemesWithCall "true" := rfl
  have hcalc : Lexeme.scan 0 0 (normalize (utilityWithCall "calc")) = lexemesWithCall "calc" := rfl
  have hset : (readDirective "utility" (utilityWithCall "true") >>= utilityOf) =
      .ok ⟨none, none, none, none, none, some true⟩ := by
    have htrees : Component.ofText (normalize (utilityWithCall "true")) =
        .ok (componentsWithCall "true") := rfl
    rw [readDirective_of_components "utility" htrees]
    cbv
  have hunset : (readDirective "utility" (utilityWithCall "calc") >>= utilityOf) =
      .ok ⟨none, none, none, none, none, some false⟩ := by
    have htrees : Component.ofText (normalize (utilityWithCall "calc")) =
        .ok (componentsWithCall "calc") := rfl
    rw [readDirective_of_components "utility" htrees]
    cbv
  -- The two parameters differ in the name of the call alone, but one sets the flag and one does
  -- not.
  have hsame := h (utilityWithCall "true") (utilityWithCall "calc") (by
    rw [htrue, hcalc]
    exact .call _ (by repeat' constructor))
  cases hset.symm.trans (hsame.trans hunset)

end Value

end Param

end FluidCss
