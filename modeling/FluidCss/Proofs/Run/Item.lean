import FluidCss.Proofs.Result
import FluidCss.Run.Step

/-!
# Work on single items

What happens to a run when it works on a declaration or a directive: either the item cannot be read
and nothing has changed but the records, or what it stands for is known before anything is put in
its place.
-/

namespace FluidCss

namespace Directive

variable {settings : Settings} {params : Text}

theorem readScale_eq_ok {scale : Scale} {entries : List Scale.Entry} :
    readScale settings params = .ok (scale, entries) ↔
      ∃ fields, Param.Value.readDirective "scale" params = .ok fields ∧
        Param.scaleOf fields settings = .ok scale ∧ scale.compile = .ok entries := by
  simp only [readScale, bind_eq_ok, pure_eq_ok, Prod.mk.injEq]
  constructor
  · rintro ⟨fields, hfields, _, hscale, _, hentries, rfl, rfl⟩
    exact ⟨fields, hfields, hscale, hentries⟩
  · rintro ⟨fields, hfields, hscale, hentries⟩
    exact ⟨fields, hfields, scale, hscale, entries, hentries, rfl, rfl⟩

theorem readUtility_eq_ok {registry : Registry} {utility : Utility} {rules : List GeneratedRule} :
    readUtility settings registry params = .ok (utility, rules) ↔
      ∃ fields, Param.Value.readDirective "utility" params = .ok fields ∧
        Param.utilityOf fields = .ok utility ∧ utility.expand registry settings = .ok rules := by
  simp only [readUtility, bind_eq_ok, pure_eq_ok, Prod.mk.injEq]
  constructor
  · rintro ⟨fields, hfields, _, hutility, _, hrules, rfl, rfl⟩
    exact ⟨fields, hfields, hutility, hrules⟩
  · rintro ⟨fields, hfields, hutility, hrules⟩
    exact ⟨fields, hfields, utility, hutility, rules, hrules, rfl, rfl⟩

end Directive

namespace Run

variable {settings : Settings} {id : NodeId} {run : Run}

/-- Puts trees in the place of a node. -/
def replaceBy (id : NodeId) (trees : List Node) : Step Unit := do
  let new ← plant trees
  edit (Edit.replaceWith id new)

theorem replaceBy_of_ok {trees : List Node} {g : Forest}
    (h : Edit.replaceWith id (run.forest.plantAll none trees).1 (run.forest.plantAll none trees).2 =
      .ok () g) : replaceBy id trees run = .ok () { run with forest := g } := by
  simp only [replaceBy, bind, EStateM.bind, plant, edit, h]

/-! ## Scales of the settings -/

/-- A scale that cannot be compiled ends the work on the scales of the settings. -/
theorem seed_of_error {key : Text} {scale : Scale} {e : Error} (h : scale.compile = .error e)
    (scales : List (Text × Scale)) (run : Run) :
    seed ((key, scale) :: scales) run = .error e run := by
  have hcheck : check scale.compile run = .error e run := by
    rw [h]
    rfl
  exact step_bind_of_error hcheck

/-- The others are compiled after one that can be compiled is recorded and registered. -/
theorem seed_of_ok {key : Text} {scale : Scale} {entries : List Scale.Entry}
    (h : scale.compile = .ok entries) (scales : List (Text × Scale)) (run : Run) :
    seed ((key, scale) :: scales) run = seed scales
      ⟨run.registry.register key entries, run.forest, .scaleCompiled scale entries :: run.log⟩ := by
  have hcheck : check scale.compile run = .ok entries run := by
    rw [h]
    rfl
  exact step_bind_of_ok hcheck

/-! ## Scales -/

theorem processScale_of_error {params : Text} {e : Error}
    (h : Directive.readScale settings params = .error e) :
    processScale settings id params run = .error e run := by
  simp only [processScale, bind, EStateM.bind, h, check]
  rfl

/-- The scale is registered and recorded before its declarations take the place of the directive. -/
theorem processScale_of_ok {params : Text} {scale : Scale} {entries : List Scale.Entry}
    (h : Directive.readScale settings params = .ok (scale, entries)) :
    processScale settings id params run = replaceBy id (Directive.scaleNodes scale.name entries)
      ⟨run.registry.register scale.name entries, run.forest,
        .scaleRegistered scale entries :: .scaleCompiled scale entries :: run.log⟩ := by
  simp only [processScale, bind, EStateM.bind, h, check, pure, EStateM.pure, note, modify_apply,
    replaceBy]

/-! ## Utilities -/

theorem processUtility_of_error {params : Text} {e : Error}
    (h : Directive.readUtility settings run.registry params = .error e) :
    processUtility settings id params run = .error e run := by
  simp only [processUtility, bind, EStateM.bind, get_apply, h, check]
  rfl

/-- The utility is recorded before its rules take the place of the directive. -/
theorem processUtility_of_ok {params : Text} {utility : Utility} {rules : List GeneratedRule}
    (h : Directive.readUtility settings run.registry params = .ok (utility, rules)) :
    processUtility settings id params run = replaceBy id (Directive.utilityNodes rules)
      ⟨run.registry, run.forest, .utilityExpanded utility rules :: run.log⟩ := by
  simp only [processUtility, bind, EStateM.bind, get_apply, h, check, pure, EStateM.pure, note,
    modify_apply, replaceBy]

/-! ## Declarations -/

theorem forM_note {α : Type} (record : α → Record) (as : List α) (run : Run) :
    (as.forM fun a => note (record a)) run =
      .ok () { run with log := (as.map record).reverse ++ run.log } := by
  induction as generalizing run with
  | nil => rfl
  | cons a as ih =>
    have htail := ih { run with log := record a :: run.log }
    rw [List.map_cons, List.reverse_cons, List.append_assoc]
    exact htail

/-- The records of the calls in a value. -/
def callRecords (settings : Settings) (value : Text) : List Record :=
  (Inline.replacements settings.minWidth settings.maxWidth value).map fun r =>
    .callResolved r.call r.result

theorem processDeclaration_of_error {property value : Text} {e : Error}
    (h : Inline.resolve settings.minWidth settings.maxWidth value = .error e) :
    processDeclaration settings id property value run =
      .error e { run with log := (callRecords settings value).reverse ++ run.log } := by
  have hlog := forM_note (fun r => .callResolved r.call r.result)
    (Inline.replacements settings.minWidth settings.maxWidth value) run
  simp only [processDeclaration, bind, EStateM.bind, hlog, h, check]
  rfl

theorem processDeclaration_of_ok {property value new : Text}
    (h : Inline.resolve settings.minWidth settings.maxWidth value = .ok new) :
    processDeclaration settings id property value run = .ok () { run with
      log := (callRecords settings value).reverse ++ run.log
      forest := run.forest.setContent id (.declaration property new) } := by
  have hlog := forM_note (fun r => .callResolved r.call r.result)
    (Inline.replacements settings.minWidth settings.maxWidth value) run
  simp only [processDeclaration, bind, EStateM.bind, hlog, h, check]
  rfl

end Run

end FluidCss
