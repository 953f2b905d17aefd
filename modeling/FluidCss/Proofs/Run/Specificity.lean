import FluidCss.Proofs.Run.Session

/-!
# The flag for low specificity

The settings of a run have a flag for low specificity, which holds for the utilities that do not
give one themselves. Two runs that differ in this flag alone are compared.

**Theorem (`Run.compiled_lowSpecificity`).** Both fail with the same error, or they come to the same
registry and to trees that are the same but for selectors: those of the rules of directives that ask
for a utility without saying whether its specificity is low.

Which nodes of the sheet lead to different rules is said by a relation between the nodes of the
sheet and those of the two results (`Fold.Twins`). The fold on trees keeps it from node to node, by
induction on the nodes (`Fold.nodes_twins`).
-/

namespace FluidCss

/-- The settings with the given flag for low specificity. -/
def Settings.withLowSpecificity (settings : Settings) (low : Bool) : Settings :=
  { settings with lowSpecificity := low }

/-- A directive asks for a utility and leaves it to the settings whether its specificity is low. -/
def Directive.LeavesSpecificity (params : Text) : Prop :=
  ofParams params = .utility ∧ ∃ u,
    (do Param.utilityOf (← Param.Value.readDirective "utility" params)) = .ok u ∧
      u.lowSpecificity = none

/-- Rules with the same declarations, whatever their selectors. -/
def GeneratedRule.SameDeclarations : List GeneratedRule → List GeneratedRule → Prop :=
  List.Forall₂ fun r r' => r.declarations = r'.declarations

namespace Fold

/-- What two runs make of nodes in a row is the same, but for the selectors of the rules that take
the place of directives which leave the specificity open. -/
inductive Twins : List Node → List Node → List Node → Prop
  | nil : Twins [] [] []
  | same {n : Node} {ns first ms ms' : List Node} : Twins ns ms ms' →
    Twins (n :: ns) (first ++ ms) (first ++ ms')
  | rule {selector : Text} {children inner inner' ns ms ms' : List Node} :
    Twins children inner inner' → Twins ns ms ms' →
    Twins (.rule selector children :: ns) (.rule selector inner :: ms)
      (.rule selector inner' :: ms')
  | atRule {name params : Text} {block : Bool} {children inner inner' ns ms ms' : List Node} :
    name ≠ Directive.atName → Twins children inner inner' → Twins ns ms ms' →
    Twins (.atRule name params block children :: ns) (.atRule name params block inner :: ms)
      (.atRule name params block inner' :: ms')
  | utility {params : Text} {block : Bool} {children ns ms ms' : List Node}
    {rules rules' : List GeneratedRule} : Directive.LeavesSpecificity params →
    GeneratedRule.SameDeclarations rules rules' → Twins ns ms ms' →
    Twins (.atRule Directive.atName params block children :: ns)
      (Directive.utilityNodes rules ++ ms) (Directive.utilityNodes rules' ++ ms')

/-- The twins of a first node stand before those of the others. -/
theorem Twins.append {n : Node} {ns first first' ms ms' : List Node} (h : Twins [n] first first')
    (hns : Twins ns ms ms') : Twins (n :: ns) (first ++ ms) (first' ++ ms') := by
  cases h with
  | same h =>
    cases h
    simpa using .same hns
  | rule hinner h =>
    cases h
    exact .rule hinner hns
  | atRule hname hinner h =>
    cases h
    exact .atRule hname hinner hns
  | utility hopen hrules h =>
    cases h
    simpa using .utility hopen hrules hns

theorem Twins.refl_singleton (n : Node) (ms : List Node) : Twins [n] ms ms := by
  have h : Twins [n] (ms ++ []) (ms ++ []) := .same .nil
  simpa using h

/-- Results with the same registry and with twins for nodes. -/
def TwinResults (ns : List Node) (x y : Registry × List Node) : Prop :=
  x.1 = y.1 ∧ Twins ns x.2 y.2

end Fold

/-! ## Utilities -/

section

variable {settings : Settings} {registry : Registry} {params : Text} {low low' : Bool}

/-- The flag of a rule decides on its selector alone. -/
theorem Utility.sameDeclarations_ruleFor (u : Utility) (low low' : Bool)
    (entries : List Scale.Entry) :
    GeneratedRule.SameDeclarations (entries.map (u.ruleFor low))
    (entries.map (u.ruleFor low')) := by
  induction entries with
  | nil => exact .nil
  | cons entry entries ih => exact .cons rfl ih

/-- The flag of the settings counts for a utility that gives none. -/
theorem Utility.expand_matched (u : Utility) :
    Matched (fun rules rules' => rules = rules' ∨
        u.lowSpecificity = none ∧ GeneratedRule.SameDeclarations rules rules')
      (u.expand registry (settings.withLowSpecificity low))
      (u.expand registry (settings.withLowSpecificity low')) := by
  refine Matched.bind_same fun entries _ => .ok ?_
  cases hflag : u.lowSpecificity with
  | some low => exact .inl rfl
  | none => exact .inr ⟨rfl, u.sameDeclarations_ruleFor low low' _⟩

/-- The rules of a directive are the same, or the directive leaves the specificity open. -/
theorem Directive.readUtility_matched (hkind : ofParams params = .utility) :
    Matched (fun read read' => read.2 = read'.2 ∨
        LeavesSpecificity params ∧ GeneratedRule.SameDeclarations read.2 read'.2)
      (readUtility (settings.withLowSpecificity low) registry params)
      (readUtility (settings.withLowSpecificity low') registry params) := by
  refine Matched.bind_same fun fields hfields => Matched.bind_same fun u hutility => ?_
  refine u.expand_matched.bind fun rules rules' h => .ok (h.imp id fun ⟨hflag, hrules⟩ => ?_)
  exact ⟨⟨hkind, u, bind_eq_ok.2 ⟨fields, hfields, hutility⟩, hflag⟩, hrules⟩

end

/-! ## The fold -/

namespace Fold

variable {settings : Settings} {low low' : Bool}

theorem directive_twins (registry : Registry) (params : Text) (block : Bool)
    (children : List Node) :
    Matched (TwinResults [.atRule Directive.atName params block children])
      (directive (settings.withLowSpecificity low) registry params
        (.atRule Directive.atName params block children))
      (directive (settings.withLowSpecificity low') registry params
        (.atRule Directive.atName params block children)) := by
  unfold directive
  cases hkind : Directive.ofParams params with
  | scale => exact .of_eq (fun _ => ⟨rfl, .refl_singleton _ _⟩) _
  | utility =>
    refine (Directive.readUtility_matched hkind).bind fun read read' h => .ok ⟨rfl, ?_⟩
    rcases h with hrules | ⟨hopen, hrules⟩
    · rw [hrules]
      exact .refl_singleton _ _
    · simpa using Twins.utility hopen hrules .nil
  | unknown => exact .ok ⟨rfl, .refl_singleton _ _⟩

mutual

theorem node_twins : ∀ (n : Node) (registry : Registry),
    Matched (TwinResults [n]) (node (settings.withLowSpecificity low) registry n)
      (node (settings.withLowSpecificity low') registry n)
  | .declaration _ _, _ => .of_eq (fun _ => ⟨rfl, .refl_singleton _ _⟩) _
  | .comment _, _ => .ok ⟨rfl, .refl_singleton _ _⟩
  | .rule selector children, registry =>
    (nodes_twins children registry).bind fun _ _ ⟨hregistry, hinner⟩ =>
      .ok ⟨hregistry, .rule hinner .nil⟩
  | .atRule name params block children, registry => by
    rcases eq_or_ne name Directive.atName with rfl | hname
    · rw [node_directive, node_directive]
      exact directive_twins registry params block children
    · rw [node_atRule hname, node_atRule hname]
      exact (nodes_twins children registry).bind fun _ _ ⟨hregistry, hinner⟩ =>
        .ok ⟨hregistry, .atRule hname hinner .nil⟩
  | .root _, _ => .ok ⟨rfl, .refl_singleton _ _⟩

/-- **The flag changes nothing that the fold makes of nodes but selectors of utilities.** -/
theorem nodes_twins : ∀ (ns : List Node) (registry : Registry),
    Matched (TwinResults ns) (nodes (settings.withLowSpecificity low) registry ns)
      (nodes (settings.withLowSpecificity low') registry ns)
  | [], _ => .ok ⟨rfl, .nil⟩
  | n :: ns, registry =>
    (node_twins n registry).bind fun x y hfirst => by
      obtain ⟨registry₁, first⟩ := x
      obtain ⟨registry₂, first'⟩ := y
      obtain ⟨rfl, hfirst⟩ := hfirst
      exact (nodes_twins ns registry₁).bind fun _ _ ⟨hregistry, hothers⟩ =>
        .ok ⟨hregistry, hfirst.append hothers⟩

end

end Fold

/-! ## Runs -/

/-- The registry after the scales of the settings, which are compiled in turn. -/
def Registry.seeded : List (Text × Scale) → Registry → Except Error Registry
  | [], registry => .ok registry
  | (key, scale) :: scales, registry => do seeded scales (registry.register key (← scale.compile))

namespace Run

/-- How the work on the scales of the settings may end. -/
theorem seed_spec : ∀ (scales : List (Text × Scale)) (run : Run),
    (∃ e run', Registry.seeded scales run.registry = .error e ∧ seed scales run = .error e run') ∨
      ∃ registry log, Registry.seeded scales run.registry = .ok registry ∧
        seed scales run = .ok () ⟨registry, run.forest, log⟩
  | [], run => .inr ⟨run.registry, run.log, rfl, rfl⟩
  | (key, scale) :: scales, run => by
    cases hcompile : scale.compile with
    | error e =>
      refine .inl ⟨e, run, ?_, seed_of_error hcompile scales run⟩
      simp [Registry.seeded, hcompile, bind, Except.bind]
    | ok entries =>
      rw [seed_of_ok hcompile]
      have hseeded : Registry.seeded ((key, scale) :: scales) run.registry =
          Registry.seeded scales (run.registry.register key entries) := by
        simp [Registry.seeded, hcompile, bind, Except.bind]
      rw [hseeded]
      exact seed_spec scales ⟨_, run.forest, .scaleCompiled scale entries :: run.log⟩

/-- Compiles a style sheet in a run of its own and shows the registry and the tree at the end. -/
def compiled (settings : Settings) (source : Text) : Except Error (Registry × Node) :=
  Step.outcome (do
    let id ← load source
    seed settings.scales
    process settings id
    let run ← get
    return (run.registry, ← check (run.forest.tree id))) Run.empty

theorem processCss_eq_compiled (settings : Settings) (source : Text) :
    processCss settings source = (compiled settings source).map fun c => Node.css 0 c.2 := by
  unfold processCss compiled Step.outcome
  simp only [bind, EStateM.bind]
  cases load source Run.empty with
  | error e run => rfl
  | ok id run =>
    dsimp only
    cases seed settings.scales run with
    | error e run => rfl
    | ok _ run =>
      dsimp only
      cases process settings id run with
      | error e run => rfl
      | ok _ run =>
        simp only [get_apply, css]
        cases run.forest.tree id <;> rfl

/-- **A run for one style sheet is the fold** on the nodes that are read, after the scales of the
settings. -/
theorem compiled_eq_fold (settings : Settings) (source : Text) :
    compiled settings source = do
      let ns ← Sheet.parse source
      let registry ← Registry.seeded settings.scales .empty
      let (registry, ms) ← Fold.nodes settings registry ns
      return (registry, .root ms) := by
  unfold compiled Step.outcome
  cases hparse : Sheet.parse source with
  | error e =>
    rw [step_bind_of_error (load_of_error hparse Run.empty)]
    rfl
  | ok ns =>
    obtain ⟨id, f, bs, hload, rfl, hw⟩ := exists_load hparse Run.empty
    rw [step_bind_of_ok hload]
    rcases seed_spec settings.scales { Run.empty with forest := f } with
      ⟨e, run', hseeded, hseed⟩ | ⟨registry, log, hseeded, hseed⟩
    -- The scales are seeded before the sheet is worked on, so their failure comes first.
    · rw [step_bind_of_error hseed]
      have hseeded : Registry.seeded settings.scales .empty = .error e := hseeded
      rw [hseeded]
      rfl
    · have hseeded : Registry.seeded settings.scales .empty = .ok registry := hseeded
      rw [step_bind_of_ok hseed, hseeded]
      have hwindow : Forest.Window (Run.mk registry f log).forest id .root none [] bs [] := hw
      rcases (process_visited settings hwindow).elim with
        ⟨e, run', hprocess, herror⟩ | ⟨run', bs', hprocess, hw', hnodes⟩
      · rw [step_bind_of_error hprocess]
        simp [bind, Except.bind, herror]
      · have htree : run'.forest.tree id = .ok (.root (Branch.nodes bs')) :=
          Forest.tree_of_holds hw'.holds_mk hw'.nodup_mk
        rw [step_bind_of_ok hprocess]
        simp only [bind, Except.bind, EStateM.bind, hnodes, get_apply, htree, check]
        rfl

/-- **Two runs that differ in the flag for low specificity fail with the same error, or they come to
the same registry and to the same tree but for selectors of utilities that leave it open.** -/
theorem compiled_lowSpecificity (settings : Settings) (source : Text) (low low' : Bool) :
    Matched (fun c c' => c.1 = c'.1 ∧ ∃ ns ms ms', Sheet.parse source = .ok ns ∧
        c.2 = .root ms ∧ c'.2 = .root ms' ∧ Fold.Twins ns ms ms')
      (compiled (settings.withLowSpecificity low) source)
      (compiled (settings.withLowSpecificity low') source) := by
  rw [compiled_eq_fold, compiled_eq_fold]
  refine Matched.bind_same fun ns hparse => Matched.bind_same fun registry _ => ?_
  exact (Fold.nodes_twins ns registry).bind fun x x' ⟨hregistry, htwins⟩ =>
    .ok ⟨hregistry, ns, x.2, x'.2, hparse, rfl, rfl, htwins⟩

end Run

end FluidCss
