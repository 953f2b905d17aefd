import FluidCss.Proofs.Clamp.Text
import FluidCss.Proofs.Run.Published

/-!
# Generated values are computed

The registry of a run holds nothing but what compiling scales has given. So the text of every entry
is a fluid value, whatever was registered and by whom, and the values in the nodes that take the
place of a directive are fluid values or references to custom properties.

* `Run.callAll_computed`: this holds after any calls, failed ones among them.
-/

namespace FluidCss

/-! ## Compiled scales -/

theorem Scale.isFluidText_of_pairs {minWidth maxWidth : Number} {pairs : List SizePair}
    {entries : List Scale.Entry} (h : pairs.mapM (pairEntry minWidth maxWidth) = .ok entries)
    {e : Scale.Entry} (he : e ∈ entries) : IsFluidText e.rendered := by
  obtain ⟨pair, -, hpair⟩ := exists_of_mapM_ok h he
  obtain ⟨t, ht, hpair⟩ := bind_eq_ok.1 hpair
  obtain rfl := pure_eq_ok.1 hpair
  exact ⟨_, _, _, _, ht⟩

theorem Scale.isFluidText_of_compile {scale : Scale} {entries : List Scale.Entry}
    (h : scale.compile = .ok entries) {e : Scale.Entry} (he : e ∈ entries) :
    IsFluidText e.rendered := by
  unfold compile entriesOf at h
  obtain ⟨base, hbase, h⟩ := bind_eq_ok.1 h
  by_cases hcross : scale.crossPairs = true
  · rw [if_pos hcross, bind_eq_ok] at h
    obtain ⟨cross, hcross, h⟩ := h
    obtain rfl := pure_eq_ok.1 h
    -- Both kinds of entries are the texts of fluid values, those of pairs and those of couples.
    rcases List.mem_append.1 he with he | he
    · exact isFluidText_of_pairs hbase he
    · obtain ⟨couple, -, hcouple⟩ := exists_of_mapM_ok hcross he
      obtain ⟨t, ht, hcouple⟩ := bind_eq_ok.1 hcouple
      obtain rfl := pure_eq_ok.1 hcouple
      exact ⟨_, _, _, _, ht⟩
  · rw [if_neg hcross] at h
    obtain rfl := pure_eq_ok.1 h
    rw [List.append_nil] at he
    exact isFluidText_of_pairs hbase he

/-! ## Registries -/

namespace Registry

/-- Every entry of a registry has a fluid value. -/
def Computed (r : Registry) : Prop :=
  ∀ name entries, (name, entries) ∈ r.scales → ∀ e ∈ entries, IsFluidText e.rendered

theorem computed_empty : Registry.empty.Computed := fun _ _ h => absurd h List.not_mem_nil

theorem Computed.register {r : Registry} (h : r.Computed) {entries : List Scale.Entry}
    (hentries : ∀ e ∈ entries, IsFluidText e.rendered) (name : Text) :
    (r.register name entries).Computed := by
  intro name' entries' hmem
  rcases Ordered.mem_put hmem with heq | hmem
  · rw [(Prod.mk.inj heq).2]
    exact hentries
  · exact h name' entries' hmem

theorem Computed.get? {r : Registry} (h : r.Computed) {name : Text} {entries : List Scale.Entry}
    (hget : r.get? name = some entries) : ∀ e ∈ entries, IsFluidText e.rendered :=
  h name entries (Ordered.mem_of_get? hget)

end Registry

/-! ## Generated nodes -/

/-- A value that is computed, or a reference to a custom property. -/
def IsGeneratedValue (v : Text) : Prop := IsFluidText v ∨ ∃ name : Text, v = "var(" ++ name ++ ")"

/-- Every value in a declaration or a rule is computed or a reference. -/
inductive Node.Generated : Node → Prop
  | declaration {property value : Text} :
    IsGeneratedValue value → Generated (.declaration property value)
  | rule {selector : Text} {children : List Node} :
    (∀ n ∈ children, Generated n) → Generated (.rule selector children)

theorem generated_scaleNodes {entries : List Scale.Entry}
    (h : ∀ e ∈ entries, IsFluidText e.rendered) (name : Text) :
    ∀ n ∈ Directive.scaleNodes name entries, n.Generated := by
  intro n hn
  obtain ⟨e, he, rfl⟩ := List.mem_map.1 hn
  exact .declaration (.inl (h e he))

theorem generated_utilityNodes {rules : List GeneratedRule}
    (h : ∀ rule ∈ rules, ∀ declaration ∈ rule.declarations, IsGeneratedValue declaration.2) :
    ∀ n ∈ Directive.utilityNodes rules, n.Generated := by
  intro n hn
  obtain ⟨rule, hrule, rfl⟩ := List.mem_map.1 hn
  refine .rule fun m hm => ?_
  obtain ⟨declaration, hdeclaration, rfl⟩ := List.mem_map.1 hm
  exact .declaration (h rule hrule declaration hdeclaration)

/-! ## Runs -/

namespace Run

variable {settings : Settings}

/-- The values in the rules of a utility are those of the entries of its scale, or references to
them. -/
theorem value_of_readUtility {registry : Registry} {params : Text} {utility : Utility}
    {rules : List GeneratedRule}
    (h : Directive.readUtility settings registry params = .ok (utility, rules)) :
    ∃ name entries, registry.get? name = some entries ∧ ∀ rule ∈ rules,
      ∀ declaration ∈ rule.declarations, ∃ e ∈ entries, declaration.2 = e.rendered ∨
        declaration.2 = "var(" ++ Scale.propertyName name e.label ++ ")" := by
  obtain ⟨_, -, -, hrules⟩ := Directive.readUtility_eq_ok.1 h
  obtain ⟨name, entries, hname, hget, rfl⟩ := Utility.expand_eq_ok hrules
  refine ⟨name, entries, hget, fun rule hrule declaration hdeclaration => ?_⟩
  obtain ⟨e, he, rfl⟩ := List.mem_map.1 hrule
  obtain ⟨p, -, rfl⟩ := List.mem_map.1 hdeclaration
  refine ⟨e, ?_, ?_⟩
  · unfold Utility.chosen at he
    split at he
    · exact he
    · exact List.mem_of_mem_filter he
  · show utility.valueFor utility.selectorKind e = _ ∨ _
    -- With an attribute the value is a reference, and with any other selector it is the entry's
    -- own.
    unfold Utility.valueFor
    split
    · exact .inr (by rw [hname]; rfl)
    all_goals exact .inl rfl

/-- A utility gives generated values if the registry holds computed ones. -/
theorem generated_of_readUtility {registry : Registry} {params : Text} {utility : Utility}
    {rules : List GeneratedRule} (hcomputed : registry.Computed)
    (h : Directive.readUtility settings registry params = .ok (utility, rules)) :
    ∀ n ∈ Directive.utilityNodes rules, n.Generated := by
  obtain ⟨name, entries, hget, hvalues⟩ := value_of_readUtility h
  refine generated_utilityNodes fun rule hrule declaration hdeclaration => ?_
  obtain ⟨e, he, hvalue | hvalue⟩ := hvalues rule hrule declaration hdeclaration
  · exact .inl (hvalue ▸ hcomputed.get? hget e he)
  · exact .inr ⟨_, hvalue⟩

/-- What a run has registered is computed, and what it has put in the place of directives is
generated. -/
structure Computed (run : Run) : Prop where
  registry : run.registry.Computed
  log : ∀ r ∈ run.log, ∀ row, r.placed? = some row → ∀ n ∈ row, n.Generated

theorem Computed.cons {run : Run} (h : run.Computed) {r : Record}
    (hr : ∀ row, r.placed? = some row → ∀ n ∈ row, n.Generated) :
    Computed { run with log := r :: run.log } :=
  ⟨h.registry, List.forall_mem_cons.2 ⟨hr, h.log⟩⟩

theorem Computed.cons_placed {run : Run} (h : run.Computed) {r : Record} {row : List Node}
    (hr : r.placed? = some row) (hrow : ∀ n ∈ row, n.Generated) :
    Computed { run with log := r :: run.log } :=
  h.cons fun _ hplaced => Option.some.inj (hr.symm.trans hplaced) ▸ hrow

theorem Computed.cons_none {run : Run} (h : run.Computed) {r : Record} (hr : r.placed? = none) :
    Computed { run with log := r :: run.log } :=
  h.cons fun _ hplaced => absurd (hr.symm.trans hplaced) nofun

theorem Computed.register {run : Run} (h : run.Computed) {entries : List Scale.Entry}
    (hentries : ∀ e ∈ entries, IsFluidText e.rendered) (name : Text) :
    Computed { run with registry := run.registry.register name entries } :=
  ⟨h.registry.register hentries name, h.log⟩

theorem computed_empty : empty.Computed :=
  ⟨Registry.computed_empty, fun _ h => absurd h List.not_mem_nil⟩

theorem computed_ignoresForest : IgnoresForest Computed := fun _ _ h => ⟨h.registry, h.log⟩

theorem keeps_note_computed {r : Record} (hr : r.placed? = none) : (note r).Keeps Computed :=
  .modify fun _ h => h.cons_none hr

theorem keeps_seed_computed (scales : List (Text × Scale)) : (seed scales).Keeps Computed := by
  induction scales with
  | nil => exact .pure ()
  | cons scale scales ih =>
    cases hcompile : scale.2.compile with
    -- A scale that cannot be compiled ends the seeding with the registry as it is.
    | error e =>
      intro run h
      rw [Step.after, seed_of_error hcompile]
      exact h
    | ok entries =>
      have hentries : ∀ e ∈ entries, IsFluidText e.rendered := fun e he =>
        Scale.isFluidText_of_compile hcompile he
      unfold seed
      rw [hcompile]
      show Step.Keeps _ (note (.scaleCompiled scale.2 entries) >>= fun _ =>
        modify (fun run => { run with registry := run.registry.register scale.1 entries }) >>=
          fun _ => seed scales)
      exact .bind (keeps_note_computed rfl) fun _ =>
        .bind (.modify fun run h => h.register hentries scale.1) fun _ => ih

theorem computed_keptByItems (settings : Settings) : KeptByItems settings Computed where
  ignoresForest := computed_ignoresForest
  scale := by
    intro run params scale entries hread h
    obtain ⟨_, -, -, hcompile⟩ := Directive.readScale_eq_ok.1 hread
    have hentries : ∀ e ∈ entries, IsFluidText e.rendered := fun e he =>
      Scale.isFluidText_of_compile hcompile he
    have hcompiled : Computed { run with log := .scaleCompiled scale entries :: run.log } :=
      h.cons_none rfl
    exact (hcompiled.register hentries scale.name).cons_placed rfl
      (generated_scaleNodes hentries scale.name)
  utility := fun hread h => h.cons_placed rfl (generated_of_readUtility h.registry hread)
  ignored := fun _ _ h => h.cons_none rfl
  resolved := fun _ _ _ h => h.cons_none rfl

/-- **Runs compute what they generate**, through any calls, also if some of them have failed. -/
theorem callAll_computed (settings : Settings) (calls : List (Forest × NodeId)) :
    (callAll settings calls).Computed :=
  (computed_keptByItems settings).callAll
    (keeps_seed_computed settings.scales .empty computed_empty)
    calls

end Run

end FluidCss
