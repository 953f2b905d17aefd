import FluidCss.Proofs.Run.Item

/-!
# What steps keep

A property of runs that every step keeps holds after a run however it ends, for a step that fails
keeps what it has changed. To see that processing keeps a property it is enough to look at what
single directives and declarations register and record.

* `Step.Keeps.bind`: steps one after the other.
* `Run.KeptByItems.process`: processing the tree under a container, whatever the forest.
-/

namespace FluidCss

/-- A property of runs holds after a step if it held before, also if the step fails. -/
def Step.Keeps {α : Type} (P : Run → Prop) (p : Step α) : Prop := ∀ run, P run → P (p.after run)

namespace Step.Keeps

variable {α β : Type} {P : Run → Prop}

theorem pure (a : α) : Step.Keeps P (Pure.pure a : Step α) := fun _ h => h

theorem throw (e : Error) : Step.Keeps P (MonadExcept.throw e : Step α) := fun _ h => h

theorem check (x : Except Error α) : Step.Keeps P (Run.check x) := by
  cases x with
  | error e => exact throw e
  | ok a => exact pure a

theorem bind {p : Step α} {q : α → Step β} (hp : p.Keeps P) (hq : ∀ a, (q a).Keeps P) :
    Step.Keeps P (p >>= q) := by
  intro run h
  have h₁ := hp run h
  simp only [Step.after, Bind.bind, EStateM.bind] at h₁ ⊢
  cases hfirst : p run with
  | error e run' => simpa [hfirst] using h₁
  | ok a run' =>
    simp only [hfirst] at h₁ ⊢
    exact hq a run' h₁

theorem get_bind {q : Run → Step β} (hq : ∀ run, P run → P ((q run).after run)) :
    Step.Keeps P (get >>= q) := fun run h => hq run h

theorem modify {change : Run → Run} (h : ∀ run, P run → P (change run)) :
    Step.Keeps P (modify change : Step Unit) := h

theorem forM {p : α → Step Unit} (h : ∀ a, (p a).Keeps P) (as : List α) :
    Step.Keeps P (as.forM p) := by
  induction as with
  | nil => exact pure ()
  | cons a as ih => exact bind (h a) fun _ => ih

end Step.Keeps

namespace Run

variable {P : Run → Prop}

/-- The forest does not matter to a property. -/
def IgnoresForest (P : Run → Prop) : Prop := ∀ run f, P run → P { run with forest := f }

theorem keeps_edit {α : Type} (hP : IgnoresForest P) (e : Edit α) : (edit e).Keeps P := by
  intro run h
  simp only [Step.after, edit]
  cases e run.forest <;> exact hP run _ h

theorem keeps_plant (hP : IgnoresForest P) (trees : List Node) : (plant trees).Keeps P :=
  fun run h => hP run _ h

theorem keeps_replaceBy (hP : IgnoresForest P) (id : NodeId) (trees : List Node) :
    (replaceBy id trees).Keeps P :=
  .bind (keeps_plant hP trees) fun new => keeps_edit hP (Edit.replaceWith id new)

/-- The records that work on single items writes, and the scales that it registers, do not disturb a
property. -/
structure KeptByItems (settings : Settings) (P : Run → Prop) : Prop where
  ignoresForest : IgnoresForest P
  scale : ∀ {run : Run} {params : Text} {scale : Scale} {entries : List Scale.Entry},
    Directive.readScale settings params = .ok (scale, entries) → P run →
    P ⟨run.registry.register scale.name entries, run.forest,
      .scaleRegistered scale entries :: .scaleCompiled scale entries :: run.log⟩
  utility : ∀ {run : Run} {params : Text} {utility : Utility} {rules : List GeneratedRule},
    Directive.readUtility settings run.registry params = .ok (utility, rules) → P run →
    P { run with log := .utilityExpanded utility rules :: run.log }
  ignored : ∀ (params : Text) (run : Run), P run →
    P { run with log := .directiveIgnored params :: run.log }
  resolved : ∀ (call result : Text) (run : Run), P run →
    P { run with log := .callResolved call result :: run.log }

namespace KeptByItems

variable {settings : Settings}

theorem processScale (h : KeptByItems settings P) (id : NodeId) (params : Text) :
    (processScale settings id params).Keeps P := by
  intro run hrun
  cases hread : Directive.readScale settings params with
  | error e =>
    rw [Step.after, processScale_of_error hread]
    exact hrun
  | ok read =>
    rw [Step.after, processScale_of_ok hread]
    exact keeps_replaceBy h.ignoresForest id _ _ (h.scale hread hrun)

theorem processUtility (h : KeptByItems settings P) (id : NodeId) (params : Text) :
    (processUtility settings id params).Keeps P := by
  intro run hrun
  cases hread : Directive.readUtility settings run.registry params with
  | error e =>
    rw [Step.after, processUtility_of_error hread]
    exact hrun
  | ok read =>
    rw [Step.after, processUtility_of_ok hread]
    exact keeps_replaceBy h.ignoresForest id _ _ (h.utility hread hrun)

theorem processDirective (h : KeptByItems settings P) (id : NodeId) (params : Text) :
    (processDirective settings id params).Keeps P := by
  unfold Run.processDirective
  split
  · exact h.processScale id params
  · exact h.processUtility id params
  · exact .modify (h.ignored params)

theorem processDeclaration (h : KeptByItems settings P) (id : NodeId) (property value : Text) :
    (processDeclaration settings id property value).Keeps P :=
  .bind (.forM (fun _ => .modify (h.resolved _ _)) _) fun _ =>
    .bind (.check _) fun _ => .modify fun run hrun => h.ignoresForest run _ hrun

/-- The visitor itself keeps what single items keep. -/
theorem visit (h : KeptByItems settings P) {below : NodeId → Step Unit}
    (hbelow : ∀ id, (below id).Keeps P) (id : NodeId) : (visit settings below id).Keeps P := by
  refine Step.Keeps.get_bind fun run hrun => ?_
  split
  · split
    · exact h.processDirective _ _ run hrun
    · exact hbelow id run hrun
  · exact hbelow id run hrun
  · exact h.processDeclaration _ _ _ run hrun
  · exact hrun

theorem processChildren (h : KeptByItems settings P) :
    ∀ depth id, (processChildren settings depth id).Keeps P
  | 0, _ => .throw _
  | depth + 1, id => .get_bind fun run hrun =>
    Step.Keeps.forM (h.visit (h.processChildren depth)) (run.forest.children id) run hrun

/-- **Processing keeps what single items keep.** -/
theorem process (h : KeptByItems settings P) (id : NodeId) : (process settings id).Keeps P :=
  .get_bind fun run hrun => h.processChildren (run.forest.size + 1) id run hrun

end KeptByItems

end Run

end FluidCss
