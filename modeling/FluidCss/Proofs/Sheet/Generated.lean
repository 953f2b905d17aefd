import FluidCss.Proofs.Clamp.Part
import FluidCss.Proofs.Component.Source
import FluidCss.Proofs.Run.Computed
import FluidCss.Proofs.Sheet.RoundTrip

/-!
# Generated nodes that are written and read again

The names of scales, their labels, selectors and properties are put into generated nodes as they
were given. Whether the text of the nodes reads as the nodes depends on these texts alone: the
values that are computed always stay within their declarations.

* `generated_reads`: generated nodes are read as they are if their properties, selectors and
  references are contained, each read by itself.
* `label_breaks_out`: a semicolon in a label ends the declaration.

A text is contained if it reads as whole components without a mark that ends a statement, if no
blank stands at its ends, and if no escape at its end is left open. Such a text is that of steady
parts: they are read the same before every stop, and the mark, the space or the bracket that a node
puts behind them is one. -/

namespace FluidCss

open FluidCss.Part FluidCss.Piece

/-! ## Contained texts -/

namespace Sheet

/-- A text that stays as it is within a statement: no escape at its end is left open, it has no
blanks at its ends, it reads as whole components, and none of them ends a statement. -/
structure Contained (t : Text) (cs : List Component) : Prop where
  isSealed : isSealed t
  normal : IsNormal t
  trimmed : Text.trim t = t
  read : Component.ofText t = .ok cs
  whole : Component.areWhole cs
  inner : ∀ c ∈ cs, roleOf c ≠ .semicolon ∧ roleOf c ≠ .block

/-- What begins a rule or a declaration: neither a comment nor the name of an at-rule. -/
def Leads (cs : List Component) : Prop :=
  atKeyword? cs = none ∧ ∀ c ∈ cs.head?, roleOf c = .other

def IsValue (t : Text) : Prop := ∃ cs, Contained t cs

def IsSelector (t : Text) : Prop := ∃ cs, Contained t cs ∧ Leads cs

def IsProperty (t : Text) : Prop :=
  t ≠ [] ∧ ∃ cs, Contained t cs ∧ Leads cs ∧ ∀ c ∈ cs, isLiteral ":" c = false

end Sheet

open Sheet

theorem mem_locatedAll {ps : List Part} {p : Part} (hp : p ∈ ps) (start : Nat) :
    ∃ start', p.located start' ∈ locatedAll start ps := by
  induction ps generalizing start with
  | nil => cases hp
  | cons q ps ih =>
    rcases List.mem_cons.1 hp with rfl | hp
    · exact ⟨start, List.mem_cons_self⟩
    · obtain ⟨start', hmem⟩ := ih hp (start + q.text.length)
      exact ⟨start', List.mem_cons_of_mem _ hmem⟩

/-- **A contained text is that of steady parts**, which begin a statement as its components do and
have a colon only if these have. -/
theorem Sheet.Contained.steady {t : Text} {cs : List Component} (h : Contained t cs) :
    ∃ ps, textAll ps = t ∧ Steady ps ∧
      (Leads cs → Begun ps ∧ ∀ p ∈ ps.head?, p.isKeyword = false) ∧
      ((∀ c ∈ cs, isLiteral ":" c = false) → ∀ p ∈ ps, p.isColon = false) := by
  obtain ⟨ps, rfl, rfl, hspelled, htokens, hshort⟩ := exists_spelled h.whole h.read
  -- Roles and marks do not depend on where a part stands.
  have hrole : ∀ p ∈ ps, p.role ≠ .semicolon ∧ p.role ≠ .block := by
    intro p hp
    obtain ⟨start, hlocated⟩ := mem_locatedAll hp 0
    rw [← roleOf_located start p]
    exact h.inner _ hlocated
  refine ⟨ps, rfl, ⟨⟨hshort, h.normal⟩, fun after hafter => ?_, hrole, h.trimmed⟩,
    fun hleads => ⟨⟨hrole, fun p hp => ?_⟩, fun p hp => ?_⟩, fun hcolon p hp => ?_⟩
  · have hlast : ∀ c ∈ (textAll ps).getLast?, Name.isSpace c = false := fun c hc =>
      Text.isSpace_eq_false_of_isBlank (Text.isBlank_getLast_of_trim h.trimmed c hc)
    exact hspelled.extend htokens h.isSealed hlast hafter
  · obtain ⟨tail, rfl⟩ := List.head?_eq_some_iff.1 hp
    rw [← roleOf_located 0 p]
    exact hleads.2 _ rfl
  · obtain ⟨tail, rfl⟩ := List.head?_eq_some_iff.1 hp
    cases hkeyword : p.isKeyword with
    | false => rfl
    | true =>
      obtain ⟨_, _, rfl⟩ := exists_of_isKeyword hkeyword
      cases hleads.1
  · obtain ⟨start, hlocated⟩ := mem_locatedAll hp 0
    rw [← isLiteral_located start p]
    exact hcolon _ hlocated

/-! ## Writable nodes -/

/-- A declaration whose property is contained and whose value is steady. -/
theorem writable_of_property {t : Text} {qs : List Part} (ht : IsProperty t) (hqs : Steady qs) :
    Writable (.declaration t (textAll qs)) := by
  obtain ⟨hne, cs, hcontained, hleads, hcolon⟩ := ht
  obtain ⟨ps, rfl, hps, hbegin, hfront⟩ := hcontained.steady
  obtain ⟨hbegun, hkeyword⟩ := hbegin hleads
  exact hps.writable_declaration hqs hbegun hkeyword (hfront hcolon) hne

theorem writable_of_selector {t : Text} {children : List Node} (ht : IsSelector t)
    (hchildren : ∀ n ∈ children, Writable n) : Writable (.rule t children) := by
  obtain ⟨cs, hcontained, hleads⟩ := ht
  obtain ⟨ps, rfl, hps, hbegin, -⟩ := hcontained.steady
  obtain ⟨hbegun, hkeyword⟩ := hbegin hleads
  exact hps.writable_rule hbegun hkeyword hchildren

/-! ## Generated nodes -/

/-- The properties, selectors and references in a declaration or a rule are contained. -/
inductive Node.Intact : Node → Prop
  | declaration {property value : Text} : IsProperty property →
    (∀ name : Text, value = "var(" ++ name ++ ")" → IsValue value) →
    Intact (.declaration property value)
  | rule {selector : Text} {children : List Node} : IsSelector selector →
    (∀ n ∈ children, Intact n) → Intact (.rule selector children)

theorem trim_of_isFluidText {t : Text} (h : IsFluidText t) : Text.trim t = t := by
  obtain ⟨_, _, _, _, ht⟩ := h
  obtain ⟨f, -, rfl⟩ := fluidText_eq_ok ht
  obtain ⟨p, t, hcons, hp⟩ := f.exists_text_cons
  rw [Text.trim_eq_stripped]
  refine stripped_eq_self (fun c hc => ?_) fun c hc => ?_
  · rw [hcons] at hc
    obtain rfl := Option.some.inj hc
    rcases hp with hdigit | rfl | rfl | rfl
    · rcases CodePoint.isDigit_iff.1 hdigit with
        rfl | rfl | rfl | rfl | rfl | rfl | rfl | rfl | rfl | rfl <;> decide
    all_goals decide
  · rcases f.getLast?_text with hlast | hlast
    all_goals
      rw [hlast] at hc
      obtain rfl := Option.some.inj hc
      decide

/-- A fluid value is the text of steady parts. -/
theorem IsFluidText.steady {t : Text} (h : IsFluidText t) : ∃ ps, textAll ps = t ∧ Steady ps := by
  obtain ⟨ps, rfl, hclean, hspelled, hrole⟩ := Fluid.exists_parts h
  exact ⟨ps, rfl, hclean.sound, hspelled, fun p hp => by simp [hrole p hp], trim_of_isFluidText h⟩

theorem writable_of_intact {n : Node} (hintact : n.Intact) (hgenerated : n.Generated) :
    Writable n := by
  induction hintact with
  | declaration hproperty hreference =>
    cases hgenerated with
    | declaration hvalue =>
      rcases hvalue with hfluid | ⟨name, hname⟩
      · obtain ⟨qs, rfl, hqs⟩ := hfluid.steady
        exact writable_of_property hproperty hqs
      · obtain ⟨cs, hcontained⟩ := hreference name hname
        obtain ⟨qs, rfl, hqs, -⟩ := hcontained.steady
        exact writable_of_property hproperty hqs
  | rule hselector _ ih =>
    cases hgenerated with
    | rule hchildren =>
      exact writable_of_selector hselector fun n hn => ih n hn (hchildren n hn)

namespace Run

variable {settings : Settings} {calls : List (Forest × NodeId)}

/-- **Generated nodes are read as they are.** Let a run record a directive as done. If the
properties, the selectors and the references to custom properties in what was put in its place are
contained, the text of these nodes reads as the nodes. -/
theorem generated_reads {r : Record} {nodes : List Node} (hr : r ∈ (callAll settings calls).records)
    (hnodes : r.placed? = some nodes) (hintact : ∀ n ∈ nodes, n.Intact) :
    Sheet.parse (Sheet.css nodes) = .ok nodes := by
  have hgenerated := (callAll_computed settings calls).log r (List.mem_reverse.1 hr) nodes hnodes
  exact parse_of_readsAs
    (readsAs_css fun n hn => writable_of_intact (hintact n hn) (hgenerated n hn))

/-- A style sheet with a scale and a utility that has a selector with an escape and an attribute. -/
def boxSheet : Forest :=
  let scale : Text := "scale(\x7bprefix: 's', pairs: \x7b'a-1': [16, 20]\x7d\x7d)"
  let utility : Text :=
    "utility(\x7bselector: '.sm\\\\:box', attribute: 'gap', property: 'gap', scale: 's', " ++
      "generateAllCrossPairs: true\x7d)"
  (Forest.empty.plant none
    (.root [.atRule "ruler" scale false [], .atRule "ruler" utility false []])).2

def boxRule : Node := .rule ".sm\\:box[gap=\"a-1\"]" [.declaration "gap" "var(--s-a-1)"]

theorem boxRule_intact : boxRule.Intact := by
  have hselector : IsSelector ".sm\\:box[gap=\"a-1\"]" := by
    refine ⟨[.leaf 0 (.literal "."), .leaf 1 (.ident "sm:box"), .block 8 .square
      [.leaf 9 (.ident "gap"), .leaf 12 (.literal "="), .leaf 13 (.string "a-1")] (some 18)],
      ⟨?_, ?_, ?_, rfl, rfl, ?_⟩, rfl, ?_⟩
    all_goals decide
  have hproperty : IsProperty "gap" := by
    refine ⟨?_, [.leaf 0 (.ident "gap")], ⟨?_, ?_, ?_, rfl, rfl, ?_⟩, ⟨rfl, ?_⟩, ?_⟩
    all_goals decide
  have hreference : IsValue "var(--s-a-1)" := by
    refine ⟨[.function 0 "var" [.leaf 4 (.ident "--s-a-1")] (some 11)],
      ⟨?_, ?_, ?_, rfl, rfl, ?_⟩⟩
    all_goals decide
  refine .rule hselector fun n hn => ?_
  obtain rfl := List.mem_singleton.1 hn
  exact .declaration hproperty fun _ _ => hreference

theorem generated_reads_boxSheet : ∃ r ∈ (callAll .default [(boxSheet, 0)]).records,
    r.placed? = some [boxRule] ∧ (∀ n ∈ [boxRule], n.Intact) ∧
      Sheet.parse (Sheet.css [boxRule]) = .ok [boxRule] := by
  let scale : Scale := ⟨320, 1760, "s", false, [⟨"a-1", 16, 20⟩]⟩
  let entries : List Scale.Entry := [⟨"a-1", "clamp(1rem, 0.2778vw + 0.9444rem, 1.25rem)"⟩]
  let utility : Utility :=
    ⟨some ".sm\\:box", some "gap", some (.single "gap"), some "s", some true, none⟩
  let rules : List GeneratedRule := [⟨".sm\\:box[gap=\"a-1\"]", [("gap", "var(--s-a-1)")]⟩]
  have hrecords : (callAll .default [(boxSheet, 0)]).records =
      [.scaleCompiled scale entries, .scaleRegistered scale entries,
        .utilityExpanded utility rules] := by
    decide +kernel
  have hrecord : .utilityExpanded utility rules ∈ (callAll .default [(boxSheet, 0)]).records := by
    rw [hrecords]
    simp
  have hintact : ∀ n ∈ [boxRule], n.Intact := fun n hn => List.mem_singleton.1 hn ▸ boxRule_intact
  exact ⟨_, hrecord, rfl, hintact, generated_reads hrecord rfl hintact⟩

/-- A style sheet with a scale that has a semicolon in a label. -/
def labelSheet : Forest :=
  let scale : Text := "scale(\x7bpairs: \x7b'a;b': [16, 16]\x7d\x7d)"
  (Forest.empty.plant none (.root [.atRule "ruler" scale false []])).2

/-- The semicolon in the label ends the declaration, and what is left of it cannot be read. -/
theorem label_breaks_out : ¬ ∀ (settings : Settings) (calls : List (Forest × NodeId)) (r : Record)
    (nodes : List Node), r ∈ (callAll settings calls).records → r.placed? = some nodes →
    Sheet.parse (Sheet.css nodes) = .ok nodes := by
  intro h
  let scale : Scale := ⟨320, 1760, "space", false, [⟨"a;b", 16, 16⟩]⟩
  let entries : List Scale.Entry := [⟨"a;b", "1rem"⟩]
  have hrecords : (callAll .default [(labelSheet, 0)]).records =
      [.scaleCompiled scale entries, .scaleRegistered scale entries] := by
    decide +kernel
  have hrecord : .scaleRegistered scale entries ∈ (callAll .default [(labelSheet, 0)]).records := by
    rw [hrecords]
    simp
  have hparse : ¬ (Sheet.parse (Sheet.css (Directive.scaleNodes "space" entries))).isOk := by
    decide +kernel
  rw [h .default _ _ (Directive.scaleNodes "space" entries) hrecord rfl] at hparse
  exact hparse rfl

end Run

end FluidCss
