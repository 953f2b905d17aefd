import FluidCss.Proofs.Inline.Call
import FluidCss.Proofs.Run.Agreement
import FluidCss.Proofs.Run.Computed

/-!
# Settled trees

A tree is settled when a run finds nothing in it to work on: no scale, no utility and no inline
call. A run does not visit the nodes that it puts into a tree, so whether they are settled must be
seen from what they are made of.

**Theorem (`Fold.nodes_settles`).** What the fold makes of nodes is settled.

The values of generated declarations are fluid values of the registry, or references to custom
properties. The names of scales and the labels of their entries get into the references, so it
matters that they have no opening bracket: with `ruler.fluid(1, 2` for a label, a reference would
hold a call.
-/

namespace FluidCss

/-! ## Settled nodes -/

namespace Node

mutual

/-- Nothing in a node is left to work on: no call in a declaration, and no directive whose
parameters begin with the name of a scale or a utility. Other directives are passed over with all
that is in them, and so are style sheets that stand inside another one. -/
def Settled : Node → Prop
  | declaration _ value => ¬ Inline.HasCall value
  | comment _ => True
  | rule _ children => SettledAll children
  | atRule name params _ children =>
    if name = "ruler" then
      ¬("scale(" : Text) <+: Text.trimStart params ∧ ¬("utility(" : Text) <+: Text.trimStart params
    else SettledAll children
  | root _ => True

def SettledAll : List Node → Prop
  | [] => True
  | n :: ns => Settled n ∧ SettledAll ns

end

mutual

/-- No style sheet stands in a node. -/
def Rootless : Node → Prop
  | declaration .. | comment _ => True
  | rule _ children | atRule _ _ _ children => RootlessAll children
  | root _ => False

def RootlessAll : List Node → Prop
  | [] => True
  | n :: ns => Rootless n ∧ RootlessAll ns

end

theorem settled_directive_iff {params : Text} {block : Bool} {children : List Node} :
    Settled (.atRule Directive.atName params block children) ↔
      Directive.ofParams params = .unknown := by
  have hruler : Directive.atName = "ruler" := rfl
  rw [Directive.ofParams_eq_unknown_iff, Settled, if_pos hruler]

theorem settled_atRule_iff {name params : Text} {block : Bool} {children : List Node}
    (hname : name ≠ Directive.atName) :
    Settled (.atRule name params block children) ↔ SettledAll children := by
  have hruler : name ≠ "ruler" := hname
  rw [Settled, if_neg hruler]

theorem settledAll_append {ms ns : List Node} (hms : SettledAll ms) (hns : SettledAll ns) :
    SettledAll (ms ++ ns) := by
  induction ms with
  | nil => exact hns
  | cons m ms ih => exact ⟨hms.1, ih hms.2⟩

theorem rootlessAll_append {ms ns : List Node} (hms : RootlessAll ms) (hns : RootlessAll ns) :
    RootlessAll (ms ++ ns) := by
  induction ms with
  | nil => exact hns
  | cons m ms ih => exact ⟨hms.1, ih hms.2⟩

theorem settledAll_of_forall {ns : List Node} (h : ∀ n ∈ ns, n.Settled) : SettledAll ns := by
  induction ns with
  | nil => trivial
  | cons n ns ih => exact ⟨h n List.mem_cons_self, ih fun m hm => h m (List.mem_cons_of_mem n hm)⟩

theorem rootlessAll_of_forall {ns : List Node} (h : ∀ n ∈ ns, n.Rootless) : RootlessAll ns := by
  induction ns with
  | nil => trivial
  | cons n ns ih => exact ⟨h n List.mem_cons_self, ih fun m hm => h m (List.mem_cons_of_mem n hm)⟩

end Node

open Node

/-! ## Generated nodes -/

/-- The name of a scale and the labels of its entries have no opening bracket. -/
structure Unbracketed (name : Text) (entries : List Scale.Entry) : Prop where
  name : .char '(' ∉ name
  label : ∀ e ∈ entries, .char '(' ∉ e.label

/-- A registry from which no calls come: its values are computed, and its names are no part of
one. -/
structure Registry.Quiet (r : Registry) : Prop where
  computed : r.Computed
  unbracketed : ∀ name entries, (name, entries) ∈ r.scales → Unbracketed name entries

theorem Registry.Quiet.register {r : Registry} (h : r.Quiet) {name : Text}
    {entries : List Scale.Entry} (hcomputed : ∀ e ∈ entries, IsFluidText e.rendered)
    (hunbracketed : Unbracketed name entries) : (r.register name entries).Quiet := by
  refine ⟨h.computed.register hcomputed name, fun name' entries' hmem => ?_⟩
  rcases Ordered.mem_put hmem with heq | hmem
  · obtain ⟨rfl, rfl⟩ := Prod.mk.inj heq
    exact hunbracketed
  · exact h.unbracketed name' entries' hmem

theorem Inline.not_hasCall_of_no_bracket {t : Text} (h : .char '(' ∉ t) : ¬ HasCall t := by
  rintro ⟨front, _, rfl, hstart⟩
  obtain ⟨arguments, rest, -, -, rfl⟩ := startsCall_iff.1 hstart
  have hopening : .char '(' ∈ opening := by decide
  exact h (by simp [Piece.text, hopening])

theorem Inline.not_hasCall_reference {scale label : Text} (hscale : .char '(' ∉ scale)
    (hlabel : .char '(' ∉ label) :
    ¬ HasCall ("var(" ++ Scale.propertyName scale label ++ ")") := by
  rw [List.append_assoc]
  refine not_hasCall_append (by decide) (by decide) (not_hasCall_of_no_bracket ?_)
  have hmarks : ∀ t ∈ ([("--" : Text), "-", ")"] : List Text), .char '(' ∉ t := by decide
  simp only [List.forall_mem_cons] at hmarks
  simp [Scale.propertyName, hscale, hlabel, hmarks]

namespace Directive

theorem scaleNodes_settled {scale : Text} {entries : List Scale.Entry}
    (h : ∀ e ∈ entries, IsFluidText e.rendered) : SettledAll (scaleNodes scale entries) := by
  refine settledAll_of_forall fun n hn => ?_
  obtain ⟨e, he, rfl⟩ := List.mem_map.1 hn
  exact Inline.not_hasCall_of_isFluidText (h e he)

theorem scaleNodes_rootless (scale : Text) (entries : List Scale.Entry) :
    RootlessAll (scaleNodes scale entries) := by
  refine rootlessAll_of_forall fun n hn => ?_
  obtain ⟨e, -, rfl⟩ := List.mem_map.1 hn
  trivial

/-- The values in the rules of a utility are those of entries, or references to them. -/
theorem utilityNodes_settled {settings : Settings} {registry : Registry} {params : Text}
    {utility : Utility} {rules : List GeneratedRule} (hquiet : registry.Quiet)
    (h : readUtility settings registry params = .ok (utility, rules)) :
    SettledAll (utilityNodes rules) := by
  obtain ⟨name, entries, hget, hvalues⟩ := Run.value_of_readUtility h
  have hunbracketed := hquiet.unbracketed name entries (Ordered.mem_of_get? hget)
  refine settledAll_of_forall fun n hn => ?_
  obtain ⟨rule, hrule, rfl⟩ := List.mem_map.1 hn
  refine settledAll_of_forall fun m hm => ?_
  obtain ⟨declaration, hdeclaration, rfl⟩ := List.mem_map.1 hm
  show ¬ Inline.HasCall declaration.2
  obtain ⟨e, he, hvalue | hvalue⟩ := hvalues rule hrule declaration hdeclaration
  · rw [hvalue]
    exact Inline.not_hasCall_of_isFluidText (hquiet.computed.get? hget e he)
  · rw [hvalue]
    exact Inline.not_hasCall_reference hunbracketed.name (hunbracketed.label e he)

theorem utilityNodes_rootless (rules : List GeneratedRule) :
    RootlessAll (utilityNodes rules) := by
  refine rootlessAll_of_forall fun n hn => ?_
  obtain ⟨_, -, rfl⟩ := List.mem_map.1 hn
  refine rootlessAll_of_forall fun m hm => ?_
  obtain ⟨_, -, rfl⟩ := List.mem_map.1 hm
  trivial

end Directive

/-! ## The fold -/

namespace Fold

/-- A directive that the fold comes to in a row of nodes defines a scale. -/
inductive Defines (settings : Settings) (scale : Scale) (entries : List Scale.Entry) :
    List Node → Prop
  | here {params : Text} {block : Bool} {children ns : List Node} :
    Directive.ofParams params = .scale →
    Directive.readScale settings params = .ok (scale, entries) →
    Defines settings scale entries (.atRule Directive.atName params block children :: ns)
  | rule {selector : Text} {children ns : List Node} : Defines settings scale entries children →
    Defines settings scale entries (.rule selector children :: ns)
  | atRule {name params : Text} {block : Bool} {children ns : List Node} :
    name ≠ Directive.atName → Defines settings scale entries children →
    Defines settings scale entries (.atRule name params block children :: ns)
  | later {n : Node} {ns : List Node} : Defines settings scale entries ns →
    Defines settings scale entries (n :: ns)

theorem Defines.append_right {settings : Settings} {scale : Scale} {entries : List Scale.Entry}
    {ns : List Node} (h : Defines settings scale entries ns) (others : List Node) :
    Defines settings scale entries (ns ++ others) := by
  induction h with
  | here hkind hread => exact .here hkind hread
  | rule h _ => exact .rule h
  | atRule hname h _ => exact .atRule hname h
  | later _ ih => exact .later ih

/-- The scales that directives define have no brackets in their names. -/
def Unbracketing (settings : Settings) (ns : List Node) : Prop :=
  ∀ scale entries, Defines settings scale entries ns → Unbracketed scale.name entries

variable {settings : Settings} {registry registry' : Registry}

theorem directive_settles {params : Text} {block : Bool} {children ns : List Node}
    (hquiet : registry.Quiet)
    (hnew : Unbracketing settings [.atRule Directive.atName params block children])
    (h : directive settings registry params (.atRule Directive.atName params block children) =
      .ok (registry', ns)) :
    registry'.Quiet ∧ SettledAll ns ∧ (RootlessAll children → RootlessAll ns) := by
  obtain ⟨hkind, scale, entries, hread, rfl, rfl⟩ | ⟨-, utility, rules, hread, rfl, rfl⟩ |
    ⟨hkind, rfl, rfl⟩ := directive_eq_ok h
  · obtain ⟨_, -, -, hcompile⟩ := Directive.readScale_eq_ok.1 hread
    have hcomputed : ∀ e ∈ entries, IsFluidText e.rendered := fun e he =>
      Scale.isFluidText_of_compile hcompile he
    exact ⟨hquiet.register hcomputed (hnew scale entries (.here hkind hread)),
      Directive.scaleNodes_settled hcomputed, fun _ => Directive.scaleNodes_rootless ..⟩
  · exact ⟨hquiet, Directive.utilityNodes_settled hquiet hread,
      fun _ => Directive.utilityNodes_rootless rules⟩
  · exact ⟨hquiet, ⟨settled_directive_iff.2 hkind, trivial⟩,
      fun hrootless => ⟨hrootless, trivial⟩⟩

mutual

theorem node_settles : ∀ {n : Node} {registry registry' : Registry} {ns : List Node},
    registry.Quiet → Unbracketing settings [n] →
    node settings registry n = .ok (registry', ns) →
    registry'.Quiet ∧ SettledAll ns ∧ (n.Rootless → RootlessAll ns)
  -- A value whose calls are replaced has none left, whatever stands beside their results.
  | .declaration property value, _, _, _, hquiet, _, h => by
    obtain ⟨new, hnew, h⟩ := bind_eq_ok.1 h
    obtain ⟨rfl, rfl⟩ := Prod.mk.inj (pure_eq_ok.1 h)
    exact ⟨hquiet, ⟨(Inline.resolved_of_resolve hnew).not_hasCall, trivial⟩,
      fun _ => ⟨trivial, trivial⟩⟩
  | .comment text, _, _, _, hquiet, _, h => by
    obtain ⟨rfl, rfl⟩ := Prod.mk.inj (Except.ok.inj h)
    exact ⟨hquiet, ⟨trivial, trivial⟩, fun _ => ⟨trivial, trivial⟩⟩
  | .rule selector children, _, _, _, hquiet, hnew, h => by
    obtain ⟨⟨registry₁, children'⟩, hchildren, h⟩ := bind_eq_ok.1 h
    obtain ⟨rfl, rfl⟩ := Prod.mk.inj (pure_eq_ok.1 h)
    obtain ⟨hquiet', hsettled, hrootless⟩ := nodes_settles hquiet
      (fun scale entries hdefines => hnew scale entries (.rule hdefines)) hchildren
    exact ⟨hquiet', ⟨hsettled, trivial⟩, fun h => ⟨hrootless h, trivial⟩⟩
  | .atRule name params block children, registry, registry', ns, hquiet, hnew, h => by
    rcases eq_or_ne name Directive.atName with rfl | hname
    -- What directives leave behind are generated nodes, and registered names have no brackets.
    · rw [node_directive] at h
      exact directive_settles hquiet hnew h
    · rw [node_atRule hname] at h
      obtain ⟨⟨registry₁, children'⟩, hchildren, h⟩ := bind_eq_ok.1 h
      obtain ⟨rfl, rfl⟩ := Prod.mk.inj (pure_eq_ok.1 h)
      obtain ⟨hquiet', hsettled, hrootless⟩ := nodes_settles hquiet
        (fun scale entries hdefines => hnew scale entries (.atRule hname hdefines)) hchildren
      exact ⟨hquiet', ⟨(settled_atRule_iff hname).2 hsettled, trivial⟩,
        fun h => ⟨hrootless h, trivial⟩⟩
  | .root children, _, _, _, hquiet, _, h => by
    obtain ⟨rfl, rfl⟩ := Prod.mk.inj (Except.ok.inj h)
    exact ⟨hquiet, ⟨trivial, trivial⟩, fun h => ⟨h, trivial⟩⟩

/-- **What the fold makes of nodes is settled**, if the registry is quiet and stays so. -/
theorem nodes_settles : ∀ {ms : List Node} {registry registry' : Registry} {ns : List Node},
    registry.Quiet → Unbracketing settings ms →
    nodes settings registry ms = .ok (registry', ns) →
    registry'.Quiet ∧ SettledAll ns ∧ (RootlessAll ms → RootlessAll ns)
  | [], _, _, _, hquiet, _, h => by
    obtain ⟨rfl, rfl⟩ := Prod.mk.inj (Except.ok.inj h)
    exact ⟨hquiet, trivial, fun _ => trivial⟩
  | m :: ms, _, _, _, hquiet, hnew, h => by
    obtain ⟨⟨registry₁, first⟩, hfirst, h⟩ := bind_eq_ok.1 h
    obtain ⟨⟨registry₂, others⟩, hothers, h⟩ := bind_eq_ok.1 h
    obtain ⟨rfl, rfl⟩ := Prod.mk.inj (pure_eq_ok.1 h)
    obtain ⟨hquiet₁, hsettled₁, hrootless₁⟩ := node_settles hquiet
      (fun scale entries hdefines => hnew scale entries (hdefines.append_right ms)) hfirst
    obtain ⟨hquiet₂, hsettled₂, hrootless₂⟩ := nodes_settles hquiet₁
      (fun scale entries hdefines => hnew scale entries (.later hdefines)) hothers
    exact ⟨hquiet₂, settledAll_append hsettled₁ hsettled₂,
      fun h => rootlessAll_append (hrootless₁ h.1) (hrootless₂ h.2)⟩

end

end Fold

end FluidCss
