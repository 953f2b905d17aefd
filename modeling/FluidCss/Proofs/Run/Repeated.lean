import FluidCss.Proofs.Run.Settled

/-!
# Calls that are repeated

**Theorem (`Run.process_settles`).** A call that succeeds leaves a settled tree, and the same call
once more succeeds and changes nothing but the records.

That the tree is settled is a matter of the fold (`Fold.nodes_settles`), given that no scale with a
bracket in its names has been registered. Every scale that the fold comes to is registered, and
recorded as such (`Run.forM_visit_registers`). On a settled tree every visit is idle
(`Run.forM_visit_idle`).
-/

namespace FluidCss

open Branch Forest

/-! ## Registered scales -/

namespace Fold

variable {settings : Settings} {scale : Scale} {entries : List Scale.Entry}

theorem not_defines_nil : ¬ Defines settings scale entries [] := by
  intro h
  cases h

theorem defines_cons {n : Node} {ns : List Node} (h : Defines settings scale entries (n :: ns)) :
    Defines settings scale entries [n] ∨ Defines settings scale entries ns := by
  cases h with
  | here hkind hread => exact .inl (.here hkind hread)
  | rule h => exact .inl (.rule h)
  | atRule hname h => exact .inl (.atRule hname h)
  | later h => exact .inr h

/-- What a container that is entered defines, its children define. -/
theorem defines_entered {root : NodeId} {content : Content} {bs : List Branch}
    (hentered : content.IsEntered)
    (h : Defines settings scale entries [Branch.node ⟨root, content, bs⟩]) :
    Defines settings scale entries (Branch.nodes bs) := by
  cases content with
  | rule selector =>
    cases h with
    | rule h => exact h
    | later h => exact absurd h not_defines_nil
  | atRule name params block =>
    cases h with
    | here _ _ => exact absurd rfl hentered
    | atRule _ h => exact h
    | later h => exact absurd h not_defines_nil
  | declaration _ _ => exact hentered.elim
  | comment _ => exact hentered.elim
  | root => exact hentered.elim

end Fold

namespace Run

variable {settings : Settings}

/-- The scales that the directives among nodes define have been registered in between. -/
def Registers (settings : Settings) (run run' : Run) (ns : List Node) : Prop :=
  ∃ records, run'.log = records ++ run.log ∧ ∀ scale entries,
    Fold.Defines settings scale entries ns → .scaleRegistered scale entries ∈ records

theorem Registers.cons {run run₁ run₂ : Run} {n : Node} {ns : List Node}
    (h₁ : Registers settings run run₁ [n]) (h₂ : Registers settings run₁ run₂ ns) :
    Registers settings run run₂ (n :: ns) := by
  obtain ⟨records₁, hlog₁, hdefines₁⟩ := h₁
  obtain ⟨records₂, hlog₂, hdefines₂⟩ := h₂
  refine ⟨records₂ ++ records₁, by rw [hlog₂, hlog₁, List.append_assoc], ?_⟩
  intro scale entries hdefines
  rcases Fold.defines_cons hdefines with h | h
  · exact List.mem_append_right _ (hdefines₁ scale entries h)
  · exact List.mem_append_left _ (hdefines₂ scale entries h)

theorem Registers.of_not {run run' : Run} {ns : List Node} (records : List Record)
    (hlog : run'.log = records ++ run.log)
    (h : ∀ scale entries, ¬ Fold.Defines settings scale entries ns) :
    Registers settings run run' ns :=
  ⟨records, hlog, fun scale entries hdefines => absurd hdefines (h scale entries)⟩

/-- Putting nodes in the place of another one is not recorded. -/
theorem log_of_replaceBy {id : NodeId} {trees : List Node} {run run' : Run}
    (h : replaceBy id trees run = .ok () run') : run'.log = run.log := by
  simp only [replaceBy, bind, EStateM.bind, plant, edit] at h
  split at h
  · cases h
    rfl
  · cases h

theorem not_defines_directive {params : Text} {block : Bool} {children : List Node}
    (hkind : Directive.ofParams params ≠ .scale) (scale : Scale) (entries : List Scale.Entry) :
    ¬ Fold.Defines settings scale entries [.atRule Directive.atName params block children] := by
  intro h
  cases h with
  | here hscale _ => exact hkind hscale
  | atRule hname _ => exact hname rfl
  | later h => exact Fold.not_defines_nil h

theorem processDirective_registers {id : NodeId} {params : Text} {block : Bool}
    {children : List Node} {run run' : Run}
    (h : processDirective settings id params run = .ok () run') :
    Registers settings run run' [.atRule Directive.atName params block children] := by
  cases hkind : Directive.ofParams params with
  | scale =>
    replace h : processScale settings id params run = .ok () run' := by
      simpa [processDirective, hkind] using h
    cases hread : Directive.readScale settings params with
    | error e =>
      rw [processScale_of_error hread] at h
      cases h
    | ok read =>
      rw [processScale_of_ok hread] at h
      refine ⟨[.scaleRegistered read.1 read.2, .scaleCompiled read.1 read.2],
        log_of_replaceBy h, fun scale entries hdefines => ?_⟩
      -- The directive defines the scale that it has been read as, and no other.
      cases hdefines with
      | here _ hread' =>
        obtain rfl := Except.ok.inj (hread.symm.trans hread')
        exact List.mem_cons_self
      | atRule hname _ => exact absurd rfl hname
      | later h => exact absurd h Fold.not_defines_nil
  | utility =>
    replace h : processUtility settings id params run = .ok () run' := by
      simpa [processDirective, hkind] using h
    cases hread : Directive.readUtility settings run.registry params with
    | error e =>
      rw [processUtility_of_error hread] at h
      cases h
    | ok read =>
      rw [processUtility_of_ok hread] at h
      exact .of_not [.utilityExpanded read.1 read.2] (log_of_replaceBy h)
        (not_defines_directive (by simp [hkind]))
  | unknown =>
    replace h : note (.directiveIgnored params) run = .ok () run' := by
      simpa [processDirective, hkind] using h
    cases h
    exact .of_not [.directiveIgnored params] rfl (not_defines_directive (by simp [hkind]))

theorem processDeclaration_registers {id : NodeId} {property value : Text} {run run' : Run}
    (h : processDeclaration settings id property value run = .ok () run') :
    Registers settings run run' [.declaration property value] := by
  cases hnew : Inline.resolve settings.minWidth settings.maxWidth value with
  | error e =>
    rw [processDeclaration_of_error hnew] at h
    cases h
  | ok new =>
    rw [processDeclaration_of_ok hnew] at h
    cases h
    refine .of_not (callRecords settings value).reverse rfl fun scale entries hdefines => ?_
    cases hdefines with
    | later h => exact Fold.not_defines_nil h

theorem visit_registers {below : NodeId → Step Unit} {parent : Option NodeId} {b : Branch}
    {run run' : Run} (hholds : run.forest.Holds parent b)
    (h : visit settings below b.root run = .ok () run')
    (hbelow : below b.root run = .ok () run' → Registers settings run run' (nodes b.children)) :
    Registers settings run run' [b.node] := by
  have hget := hholds.get?
  obtain ⟨root, inside, children⟩ := b
  simp only at hget
  simp only [visit, bind, EStateM.bind, get_apply, hget] at h
  -- A container that is entered defines what stands in it.
  have hentered : inside.IsEntered → below root run = .ok () run' →
      Registers settings run run' [Branch.node ⟨root, inside, children⟩] := by
    intro hentered h
    obtain ⟨records, hlog, hdefines⟩ := hbelow h
    exact ⟨records, hlog, fun scale entries h =>
      hdefines scale entries (Fold.defines_entered hentered h)⟩
  cases inside with
  | declaration property value => exact processDeclaration_registers h
  | comment text =>
    cases h
    refine .of_not [] rfl fun scale entries hdefines => ?_
    cases hdefines with
    | later h => exact Fold.not_defines_nil h
  | rule selector => exact hentered trivial h
  | atRule name params block =>
    by_cases hname : name = Directive.atName
    · subst hname
      exact processDirective_registers (by simpa using h)
    · simp only [hname, if_false] at h
      exact hentered hname h
  | root =>
    cases h
    refine .of_not [] rfl fun scale entries hdefines => ?_
    cases hdefines with
    | later h => exact Fold.not_defines_nil h

/-- **The scales that directives define are registered** when work on branches succeeds. The
inductions are those of `forM_visit`, which also gives the window on the branches to come. -/
theorem forM_visit_registers (settings : Settings) :
    ∀ (depth : Nat) {bs : List Branch} {run run' : Run} {id : NodeId} {content : Content}
      {above : Option NodeId} {before after : List NodeId}, heightAll bs ≤ depth →
      Window run.forest id content above before bs after →
      (bs.map Branch.root).forM (visit settings (processChildren settings depth)) run =
        .ok () run' → Registers settings run run' (nodes bs)
  | _, [], _, _, _, _, _, _, _, _, _, h => by
    cases h
    exact .of_not [] rfl fun _ _ => Fold.not_defines_nil
  | 0, ⟨_, _, _⟩ :: _, _, _, _, _, _, _, _, hdepth, _, _ => by simp [heightAll, height] at hdepth
  | depth + 1, b :: bs, run, run', _, _, _, _, _, hdepth, hw, h => by
    obtain ⟨hb, hbs⟩ := heightAll_cons_le hdepth
    have hvisited := visit_branch settings hb hw.head
    obtain ⟨_, run₁, hfirst, hothers⟩ := step_bind_eq_ok.1 h
    rw [hfirst] at hvisited
    obtain ⟨bs₁, hw₁, hr₁, -, -⟩ := hvisited
    refine Registers.cons ?_
      (forM_visit_registers settings (depth + 1) hbs (hw.next hw₁ hr₁) hothers)
    refine visit_registers hw.holds.1 hfirst fun hbelow => ?_
    obtain ⟨root, inside, children⟩ := b
    change (run.forest.children root).forM
      (visit settings (processChildren settings depth)) run = _ at hbelow
    rw [hw.head.inner.children_eq] at hbelow
    exact forM_visit_registers settings depth (Nat.le_of_succ_le_succ hb) hw.head.inner hbelow

theorem process_registers {run run' : Run} {above : Option NodeId} {id : NodeId}
    {content : Content} {bs : List Branch} (hw : Window run.forest id content above [] bs [])
    (h : process settings id run = .ok () run') : Registers settings run run' (nodes bs) := by
  change (run.forest.children id).forM
    (visit settings (processChildren settings run.forest.size)) run = _ at h
  rw [hw.children_eq] at h
  refine forM_visit_registers settings run.forest.size ?_ hw h
  exact Nat.le_of_succ_le (height_le_size hw.holds_mk hw.nodup_mk)

/-! ## Visits to settled branches -/

/-- Nothing happens but that records are made. -/
def Idle (run : Run) (result : EStateM.Result Error Run Unit) : Prop :=
  ∃ records, result = .ok () { run with log := records ++ run.log }

theorem Idle.bind {run : Run} {first others : Step Unit} (h₁ : Idle run (first run))
    (h₂ : ∀ run' : Run, run'.forest = run.forest → Idle run' (others run')) :
    Idle run ((first >>= fun _ => others) run) := by
  obtain ⟨records₁, h₁⟩ := h₁
  obtain ⟨records₂, h₂⟩ := h₂ { run with log := records₁ ++ run.log } rfl
  refine ⟨records₂ ++ records₁, ?_⟩
  simp only [Bind.bind, EStateM.bind, h₁]
  rw [h₂, List.append_assoc]

theorem processDeclaration_idle {id : NodeId} {property value : Text} {parent : Option NodeId}
    {below : List NodeId} {run : Run}
    (hget : run.forest.get? id = some ⟨.declaration property value, parent, below⟩)
    (hvalue : ¬ Inline.HasCall value) :
    Idle run (processDeclaration settings id property value run) := by
  obtain ⟨hresolve, hreplacements⟩ :=
    Inline.resolve_of_not_hasCall hvalue settings.minWidth settings.maxWidth
  rw [processDeclaration_of_ok hresolve]
  refine ⟨[], ?_⟩
  rw [callRecords, hreplacements, setContent_self hget]
  rfl

theorem visit_idle {below : NodeId → Step Unit} {parent : Option NodeId} {b : Branch} {run : Run}
    (hholds : run.forest.Holds parent b) (hsettled : b.node.Settled)
    (hbelow : Node.SettledAll (nodes b.children) → Idle run (below b.root run)) :
    Idle run (visit settings below b.root run) := by
  have hget := hholds.get?
  obtain ⟨root, inside, children⟩ := b
  simp only at hget
  simp only [visit, bind, EStateM.bind, get_apply, hget]
  cases inside with
  -- A declaration without calls is written back as it is, and a directive that is not known is
  -- left.
  | declaration property value => exact processDeclaration_idle hget hsettled
  | comment text => exact ⟨[], rfl⟩
  | rule selector => exact hbelow hsettled
  | atRule name params block =>
    rcases eq_or_ne name Directive.atName with rfl | hname
    · simp only [if_true, processDirective, Node.settled_directive_iff.1 hsettled]
      exact ⟨[.directiveIgnored params], rfl⟩
    · simp only [hname, if_false]
      exact hbelow ((Node.settled_atRule_iff hname).1 hsettled)
  | root => exact ⟨[], rfl⟩

/-- **Visits to settled branches are idle.** -/
theorem forM_visit_idle (settings : Settings) :
    ∀ (depth : Nat) {bs : List Branch} {run : Run} {parent : Option NodeId},
      heightAll bs ≤ depth → run.forest.HoldsAll parent bs → Node.SettledAll (nodes bs) →
      Idle run ((bs.map Branch.root).forM (visit settings (processChildren settings depth)) run)
  | _, [], _, _, _, _, _ => ⟨[], rfl⟩
  | 0, ⟨_, _, _⟩ :: _, _, _, hdepth, _, _ => by simp [heightAll, height] at hdepth
  | depth + 1, b :: bs, run, parent, hdepth, hholds, hsettled => by
    obtain ⟨hb, hbs⟩ := heightAll_cons_le hdepth
    refine Idle.bind (visit_idle hholds.1 hsettled.1 fun hchildren => ?_) fun run' hforest =>
      forM_visit_idle settings (depth + 1) hbs (hforest ▸ hholds.2) hsettled.2
    obtain ⟨root, inside, children⟩ := b
    show Idle run ((run.forest.children root).forM
      (visit settings (processChildren settings depth)) run)
    rw [Forest.children_eq hholds.1.get?]
    exact forM_visit_idle settings depth (Nat.le_of_succ_le_succ hb) hholds.1.children hchildren

/-! ## Calls -/

/-- Style sheets stand in no other container. -/
def RootsOnTop (f : Forest) : Prop :=
  ∀ id cell, f.get? id = some cell → cell.content = .root → cell.parent = none

mutual

/-- Below a node there are no style sheets then. -/
theorem rootless_of_holds {f : Forest} (hroots : RootsOnTop f) {parent : NodeId} :
    ∀ {b : Branch}, f.Holds (some parent) b → b.node.Rootless
  | ⟨_, .declaration _ _, _⟩, _ => trivial
  | ⟨_, .comment _, _⟩, _ => trivial
  | ⟨_, .rule _, _⟩, h => rootlessAll_of_holdsAll hroots h.2
  | ⟨_, .atRule _ _ _, _⟩, h => rootlessAll_of_holdsAll hroots h.2
  | ⟨id, .root, _⟩, h => by cases hroots id _ h.1 rfl

theorem rootlessAll_of_holdsAll {f : Forest} (hroots : RootsOnTop f) {parent : NodeId} :
    ∀ {bs : List Branch}, f.HoldsAll (some parent) bs → Node.RootlessAll (nodes bs)
  | [], _ => trivial
  | _ :: _, h => ⟨rootless_of_holds hroots h.1, rootlessAll_of_holdsAll hroots h.2⟩

end

/-- **A call that succeeds leaves nothing to do.** After any calls of a run, and whatever has become
of the forest, let a call on a container succeed, where no scale that is registered before or during
it has an opening bracket in its name or in the labels of its entries. Then what is in the container
is settled, with no style sheet inside another one if there was none before, and the same call once
more succeeds and changes neither the forest nor the registry. -/
theorem process_settles {settings : Settings} {calls : List (Forest × NodeId)} {f : Forest}
    {id : NodeId} {run' : Run} (hf : f.WellFormed) (hid : id < f.size)
    (hbefore : ∀ name entries, (name, entries) ∈ (callAll settings calls).registry.scales →
      Unbracketed name entries)
    (hduring : ∀ records, run'.log = records ++ (callAll settings calls).log →
      ∀ scale entries, .scaleRegistered scale entries ∈ records → Unbracketed scale.name entries)
    (h : process settings id { callAll settings calls with forest := f } = .ok () run') :
    ∃ b : Branch, b.root = id ∧ run'.forest.tree id = .ok b.node ∧
      Node.SettledAll (nodes b.children) ∧
      (RootsOnTop f → Node.RootlessAll (nodes b.children)) ∧
      ∃ run'', process settings id run' = .ok () run'' ∧ run''.forest = run'.forest ∧
        run''.registry = run'.registry := by
  obtain ⟨⟨root, content, bs⟩, rfl, hholds, hnodup, -⟩ := hf.exists_holds hid
  have hw := Window.of_holds hholds hnodup
  have hvisited : Visited settings { callAll settings calls with forest := f } root content _ [] bs
      [] (process settings root { callAll settings calls with forest := f }) :=
    process_visited settings hw
  rw [h] at hvisited
  obtain ⟨bs', hw', -, hnodes, -⟩ := hvisited
  obtain ⟨records, hlog, hregistered⟩ := process_registers hw h
  have hquiet : (callAll settings calls).registry.Quiet :=
    ⟨(callAll_computed settings calls).registry, hbefore⟩
  -- The scales that are defined are among those that the call has recorded.
  have hnew : Fold.Unbracketing settings (nodes bs) := fun scale entries hdefines =>
    hduring records hlog scale entries (hregistered scale entries hdefines)
  obtain ⟨-, hsettled, hrootless⟩ := Fold.nodes_settles hquiet hnew hnodes
  refine ⟨⟨root, content, bs'⟩, rfl, tree_of_holds hw'.holds_mk hw'.nodup_mk, hsettled, ?_, ?_⟩
  · exact fun hroots => hrootless (rootlessAll_of_holdsAll hroots hholds.2)
  -- The second call meets a settled row, and each step of it is idle.
  · obtain ⟨records', hidle⟩ : Idle run' (process settings root run') := by
      show Idle run' ((run'.forest.children root).forM
        (visit settings (processChildren settings run'.forest.size)) run')
      rw [hw'.children_eq]
      refine forM_visit_idle settings run'.forest.size ?_ hw'.holds hsettled
      exact Nat.le_of_succ_le (height_le_size hw'.holds_mk hw'.nodup_mk)
    exact ⟨_, hidle, rfl, rfl⟩

/-- A style sheet with a scale, a utility for it, an inline call and a directive that is not
known. -/
def mixedSheet : Forest :=
  let scale : Text := "scale(\x7bprefix: 's', pairs: \x7ba: [16, 20]\x7d\x7d)"
  let utility : Text := "utility(\x7battribute: 'gap', property: 'gap', scale: 's'\x7d)"
  (Forest.empty.plant none (.root [.atRule "ruler" scale false [],
    .rule "a" [.declaration "b" "ruler.fluid(1, 2)", .atRule "ruler" utility false []],
    .atRule "ruler" "other" true [.declaration "c" "ruler.fluid(1, 2)"]])).2

/-- What a call on it records, the latest first. -/
def mixedLog : List Record :=
  let result : Text := "clamp(0.0625rem, 0.0694vw + 0.0486rem, 0.125rem)"
  [.directiveIgnored "other",
    .utilityExpanded gapUtility [⟨"[gap=\"a\"]", [("gap", "var(--s-a)")]⟩],
    .callResolved "ruler.fluid(1, 2)" result] ++ gapRecords.reverse

/-- What becomes of it: the directives that are known and the call are gone, and the directive that
is not known still has its call. -/
def mixedTree : Node :=
  .root [.declaration "--s-a" "clamp(1rem, 0.2778vw + 0.9444rem, 1.25rem)",
    .rule "a" [.declaration "b" "clamp(0.0625rem, 0.0694vw + 0.0486rem, 0.125rem)",
      .rule "[gap=\"a\"]" [.declaration "gap" "var(--s-a)"]],
    .atRule "ruler" "other" true [.declaration "c" "ruler.fluid(1, 2)"]]

theorem process_settles_mixedSheet : ∃ run',
    process .default 0 { callAll .default [] with forest := mixedSheet } = .ok () run' ∧
    run'.forest.tree 0 = .ok mixedTree ∧
    ∃ b : Branch, b.root = 0 ∧ run'.forest.tree 0 = .ok b.node ∧
      Node.SettledAll (nodes b.children) ∧
      (RootsOnTop mixedSheet → Node.RootlessAll (nodes b.children)) ∧
      ∃ run'', process .default 0 run' = .ok () run'' ∧ run''.forest = run'.forest ∧
        run''.registry = run'.registry := by
  have hf : mixedSheet.WellFormed :=
    wellFormed_of_forall_lt (by decide +kernel) (by decide +kernel) (by decide +kernel)
  have hok : (Step.outcome (process .default 0)
      { callAll .default [] with forest := mixedSheet }).isOk := by
    decide +kernel
  have hlog : ((process .default 0).after
      { callAll .default [] with forest := mixedSheet }).log = mixedLog := by
    decide +kernel
  have htree : ((process .default 0).after
      { callAll .default [] with forest := mixedSheet }).forest.tree 0 = .ok mixedTree := by
    decide +kernel
  cases h : process .default 0 { callAll .default [] with forest := mixedSheet } with
  | ok _ run' =>
    rw [Step.after, h] at hlog htree
    refine ⟨run', rfl, htree, process_settles hf (by decide +kernel) ?_ ?_ h⟩
    · intro name entries hmem
      cases hmem
    · intro records hrecords scale entries hmem
      have hmem : .scaleRegistered scale entries ∈ mixedLog := by
        rw [← hlog, hrecords]
        exact List.mem_append_left _ hmem
      simp only [mixedLog, gapRecords, List.mem_append, List.mem_cons, List.not_mem_nil, or_false,
        List.mem_reverse, reduceCtorEq, false_or, Record.scaleRegistered.injEq] at hmem
      rw [hmem.1, hmem.2]
      exact ⟨by decide, by decide⟩
  | error e run' =>
    rw [Step.outcome, h] at hok
    cases hok

end Run

end FluidCss
