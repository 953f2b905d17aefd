import FluidCss.Proofs.Run.Item
import FluidCss.Proofs.Run.Standing
import FluidCss.Proofs.Sheet.WellFormed
import FluidCss.Proofs.Sheet.Window
import FluidCss.Run.Fold

/-!
# What a visit does

A run visits the children of a container one after the other. It either gets to the end, and then
the branches have become what the fold makes of them; or it stops at an item, that is at a
declaration or a directive, on which the fold fails. Then what comes before the item has become what
the fold makes of it, and the item and all that comes after it are the branches that they were.
Either way what was recorded of directives stands in the branches.

* `Fold.Stops`: work on branches stops at an item.
* `Run.forM_visit`: visiting branches ends in one of the two ways.
* `Run.process_visited`: so does processing the tree under a container.
-/

namespace FluidCss

open Branch Forest

/-! ## Items -/

/-- Content that is worked on as a whole: a declaration or a directive. -/
def Content.IsItem : Content → Prop
  | .declaration .. => True
  | .atRule name _ _ => name = Directive.atName
  | .comment _ | .rule _ | .root => False

/-- A container whose children are worked on. -/
def Content.IsEntered : Content → Prop
  | .rule _ => True
  | .atRule name _ _ => name ≠ Directive.atName
  | .declaration .. | .comment _ | .root => False

namespace Fold

section

variable {settings : Settings} {registry : Registry} {params : Text}

/-- The fold takes a directive as a whole. -/
theorem node_directive (block : Bool) (children : List Node) :
    node settings registry (.atRule Directive.atName params block children) =
      directive settings registry params (.atRule Directive.atName params block children) := by
  rw [node, if_pos rfl]

theorem node_atRule {name : Text} (hname : name ≠ Directive.atName) (block : Bool)
    (children : List Node) : node settings registry (.atRule name params block children) = (do
      let (registry, children) ← nodes settings registry children
      return (registry, [.atRule name params block children])) := by
  rw [node, if_neg hname]

/-- A scale is registered, and its nodes take the place of its directive. -/
theorem directive_scale (hkind : Directive.ofParams params = .scale) (self : Node) :
    directive settings registry params self = (Directive.readScale settings params).map fun read =>
      (registry.register read.1.name read.2, Directive.scaleNodes read.1.name read.2) := by
  rw [directive, hkind]
  cases Directive.readScale settings params <;> rfl

theorem directive_utility (hkind : Directive.ofParams params = .utility) (self : Node) :
    directive settings registry params self =
      (Directive.readUtility settings registry params).map fun read =>
        (registry, Directive.utilityNodes read.2) := by
  rw [directive, hkind]
  cases Directive.readUtility settings registry params <;> rfl

theorem directive_unknown (hkind : Directive.ofParams params = .unknown) (self : Node) :
    directive settings registry params self = .ok (registry, [self]) := by
  rw [directive, hkind]

end

/-- Work on branches stops at an item: the registry, the branches, the item with its error, and the
registry and the branches as they are left. -/
inductive Stops (settings : Settings) :
    Registry → List Branch → Branch → Error → Registry → List Branch → Prop
  /-- The item comes first. It and what comes after it are left alone. -/
  | item {registry : Registry} {b : Branch} {bs : List Branch} {e : Error} :
      b.content.IsItem → node settings registry b.node = .error e →
      Stops settings registry (b :: bs) b e registry (b :: bs)
  /-- The item is inside the first container. What comes after that is left alone. -/
  | inside {registry registry' : Registry} {root : NodeId} {content : Content}
      {children children' bs : List Branch} {d : Branch} {e : Error} :
      content.IsEntered → Stops settings registry children d e registry' children' →
      Stops settings registry (⟨root, content, children⟩ :: bs) d e registry'
        (⟨root, content, children'⟩ :: bs)
  /-- The item comes after the first branch, which has become what the fold makes of it. -/
  | past {registry registry₁ registry₂ : Registry} {b d : Branch} {bs new bs' : List Branch}
      {e : Error} :
      node settings registry b.node = .ok (registry₁, Branch.nodes new) →
      Stops settings registry₁ bs d e registry₂ bs' →
      Stops settings registry (b :: bs) d e registry₂ (new ++ bs')

/-- Branches after those that are worked on are left alone. -/
theorem Stops.append {settings : Settings} {registry registry' : Registry} {bs bs' : List Branch}
    {d : Branch} {e : Error} (h : Stops settings registry bs d e registry' bs')
    (cs : List Branch) : Stops settings registry (bs ++ cs) d e registry' (bs' ++ cs) := by
  induction h with
  | item hitem herror => exact .item hitem herror
  | inside hentered hstops => exact .inside hentered hstops
  | past hnode _ ih =>
    rw [List.append_assoc]
    exact .past hnode ih

theorem nodes_cons_ok {settings : Settings} {registry registry₁ registry₂ : Registry} {n : Node}
    {ns first others : List Node} (h₁ : node settings registry n = .ok (registry₁, first))
    (h₂ : nodes settings registry₁ ns = .ok (registry₂, others)) :
    nodes settings registry (n :: ns) = .ok (registry₂, first ++ others) := by
  simp only [nodes, h₁, bind, Except.bind, h₂]
  rfl

theorem nodes_singleton (settings : Settings) (registry : Registry) (n : Node) :
    nodes settings registry [n] = node settings registry n := by
  cases h : node settings registry n <;>
    simp [nodes, h, bind, Except.bind, pure, Except.pure]

theorem node_entered_ok {settings : Settings} {registry registry' : Registry} {root : NodeId}
    {content : Content} {children children' : List Branch} (h : content.IsEntered)
    (hnodes : nodes settings registry (Branch.nodes children) =
      .ok (registry', Branch.nodes children')) :
    node settings registry (Branch.node ⟨root, content, children⟩) =
      .ok (registry', Branch.nodes [⟨root, content, children'⟩]) := by
  cases content with
  | rule selector => simp [Branch.node, node, hnodes, bind, Except.bind, pure, Except.pure]
  | atRule name params block =>
    have hname : name ≠ Directive.atName := h
    simp [Branch.node, node, hname, hnodes, bind, Except.bind, pure, Except.pure]
  | declaration _ _ => exact h.elim
  | comment _ => exact h.elim
  | root => exact h.elim

end Fold

namespace Run

/-! ## Ways to end -/

/-- How work on the branches in a window may end, in the state `result`. -/
def Visited (settings : Settings) (run : Run) (id : NodeId) (content : Content)
    (above : Option NodeId) (before : List NodeId) (bs : List Branch) (after : List NodeId) :
    EStateM.Result Error Run Unit → Prop
  | .ok _ run' => ∃ bs', Window run'.forest id content above before bs' after ∧
      Rewrites run.forest run'.forest id bs bs' ∧
      Fold.nodes settings run.registry (nodes bs) = .ok (run'.registry, nodes bs') ∧
      Tells run run' (nodes bs')
  | .error e run' => ∃ d bs', Window run'.forest id content above before bs' after ∧
      Rewrites run.forest run'.forest id bs bs' ∧
      Fold.Stops settings run.registry bs d e run'.registry bs' ∧ Tells run run' (nodes bs')

variable {settings : Settings} {run : Run} {id : NodeId} {content : Content}
  {above : Option NodeId} {before after : List NodeId}

theorem visited_unchanged {b : Branch} {run' : Run}
    (hw : Window run.forest id content above before [b] after)
    (hforest : run'.forest = run.forest) (hregistry : run'.registry = run.registry)
    (htells : Tells run run' [b.node])
    (h : Fold.node settings run.registry b.node = .ok (run.registry, [b.node])) :
    Visited settings run id content above before [b] after (.ok () run') := by
  refine ⟨[b], hforest ▸ hw, hforest ▸ .refl run.forest id [b], ?_, htells⟩
  rw [hregistry]
  exact (Fold.nodes_singleton ..).trans h

theorem visited_error {b : Branch} {run' : Run} {e : Error}
    (hw : Window run.forest id content above before [b] after)
    (hforest : run'.forest = run.forest) (hregistry : run'.registry = run.registry)
    (htells : Tells run run' [b.node]) (hitem : b.content.IsItem)
    (h : Fold.node settings run.registry b.node = .error e) :
    Visited settings run id content above before [b] after (.error e run') := by
  refine ⟨b, [b], hforest ▸ hw, hforest ▸ .refl run.forest id [b], ?_, htells⟩
  rw [hregistry]
  exact .item hitem h

/-! ## Items -/

theorem processDeclaration_visited {root : NodeId} {property value : Text}
    {children : List Branch}
    (hw : Window run.forest id content above before
      [⟨root, .declaration property value, children⟩] after) :
    Visited settings run id content above before [⟨root, .declaration property value, children⟩]
      after (processDeclaration settings root property value run) := by
  -- The records of calls tell of no nodes, so there is nothing to find in the tree.
  have hrecords : ∀ r ∈ (callRecords settings value).reverse, r.placed? = none := by
    intro r hr
    obtain ⟨_, _, rfl⟩ := List.mem_map.1 (List.mem_reverse.1 hr)
    rfl
  cases hnew : Inline.resolve settings.minWidth settings.maxWidth value with
  | error e =>
    rw [processDeclaration_of_error hnew]
    exact visited_error hw rfl rfl (.of_none rfl hrecords _) trivial
      (by simp [Branch.node, Fold.node, hnew, bind, Except.bind])
  | ok new =>
    rw [processDeclaration_of_ok hnew]
    have hnode : Fold.node settings run.registry
        (Branch.node ⟨root, .declaration property value, children⟩) =
        .ok (run.registry, nodes [⟨root, .declaration property new, children⟩]) := by
      simp [Branch.node, Fold.node, hnew, bind, Except.bind, pure, Except.pure]
    obtain ⟨hwindow, hrewrites⟩ := hw.setContent
    exact ⟨_, hwindow, hrewrites, (Fold.nodes_singleton ..).trans hnode,
      .of_none rfl hrecords _⟩

/-- A directive that is replaced by the nodes that the fold gives, and that its records tell of. -/
theorem visited_replaceBy {b : Branch} {trees : List Node} {registry : Registry}
    {records : List Record} (hw : Window run.forest id content above before [b] after)
    (hrecords : ∀ r ∈ records, ∀ row, r.placed? = some row → row = trees)
    (hnode : Fold.node settings run.registry b.node = .ok (registry, trees)) :
    Visited settings run id content above before [b] after
      (replaceBy b.root trees ⟨registry, run.forest, records ++ run.log⟩) := by
  obtain ⟨g, bs, hg, hwindow, hrewrites, hnodes⟩ := hw.replaceWith_planted trees
  have hresult : replaceBy b.root trees ⟨registry, run.forest, records ++ run.log⟩ =
      .ok () ⟨registry, g, records ++ run.log⟩ := replaceBy_of_ok hg
  rw [hresult]
  refine ⟨bs, hwindow, hrewrites, by simpa [hnodes, Fold.nodes_singleton] using hnode,
    records, rfl, fun r hr row hrow => ?_⟩
  rw [hnodes, hrecords r hr row hrow]
  simpa using Node.Stands.here [] []

theorem node_branch_directive {registry : Registry} (root : NodeId) (params : Text) (block : Bool)
    (children : List Branch) :
    Fold.node settings registry
        (Branch.node ⟨root, .atRule Directive.atName params block, children⟩) =
      Fold.directive settings registry params
        (Branch.node ⟨root, .atRule Directive.atName params block, children⟩) :=
  Fold.node_directive block (nodes children)

theorem processScale_visited {root : NodeId} {params : Text} {block : Bool}
    {children : List Branch} (hkind : Directive.ofParams params = .scale)
    (hw : Window run.forest id content above before
      [⟨root, .atRule Directive.atName params block, children⟩] after) :
    Visited settings run id content above before
      [⟨root, .atRule Directive.atName params block, children⟩] after
      (processScale settings root params run) := by
  cases hread : Directive.readScale settings params with
  | error e =>
    -- An error in reading comes before the forest is touched.
    rw [processScale_of_error hread]
    refine visited_error hw rfl rfl (.refl run _) rfl ?_
    rw [node_branch_directive, Fold.directive_scale hkind, hread]
    rfl
  | ok read =>
    obtain ⟨scale, entries⟩ := read
    rw [processScale_of_ok hread]
    have hrecords : ∀ r ∈ [Record.scaleRegistered scale entries, .scaleCompiled scale entries],
        ∀ row, r.placed? = some row → row = Directive.scaleNodes scale.name entries := by
      intro r hr row hrow
      simp only [List.mem_cons, List.not_mem_nil, or_false] at hr
      rcases hr with rfl | rfl
      · exact (Option.some.inj hrow).symm
      · cases hrow
    refine visited_replaceBy hw hrecords ?_
    rw [node_branch_directive, Fold.directive_scale hkind, hread]
    rfl

theorem processUtility_visited {root : NodeId} {params : Text} {block : Bool}
    {children : List Branch} (hkind : Directive.ofParams params = .utility)
    (hw : Window run.forest id content above before
      [⟨root, .atRule Directive.atName params block, children⟩] after) :
    Visited settings run id content above before
      [⟨root, .atRule Directive.atName params block, children⟩] after
      (processUtility settings root params run) := by
  cases hread : Directive.readUtility settings run.registry params with
  | error e =>
    rw [processUtility_of_error hread]
    refine visited_error hw rfl rfl (.refl run _) rfl ?_
    rw [node_branch_directive, Fold.directive_utility hkind, hread]
    rfl
  | ok read =>
    obtain ⟨utility, rules⟩ := read
    rw [processUtility_of_ok hread]
    have hrecords : ∀ r ∈ [Record.utilityExpanded utility rules],
        ∀ row, r.placed? = some row → row = Directive.utilityNodes rules := by
      intro r hr row hrow
      obtain rfl := List.mem_singleton.1 hr
      exact (Option.some.inj hrow).symm
    refine visited_replaceBy hw hrecords ?_
    rw [node_branch_directive, Fold.directive_utility hkind, hread]
    rfl

theorem processDirective_visited {root : NodeId} {params : Text} {block : Bool}
    {children : List Branch}
    (hw : Window run.forest id content above before
      [⟨root, .atRule Directive.atName params block, children⟩] after) :
    Visited settings run id content above before
      [⟨root, .atRule Directive.atName params block, children⟩] after
      (processDirective settings root params run) := by
  unfold processDirective
  cases hkind : Directive.ofParams params with
  | scale => exact processScale_visited hkind hw
  | utility => exact processUtility_visited hkind hw
  | unknown =>
    have hrecords : ∀ r ∈ [Record.directiveIgnored params], r.placed? = none := by
      simp [Record.placed?]
    refine visited_unchanged hw rfl rfl (.of_none rfl hrecords _) ?_
    rw [node_branch_directive, Fold.directive_unknown hkind]

/-! ## Containers -/

/-- What stands inside a container stands in the tree. -/
theorem stands_entered {root : NodeId} {inside : Content} {children : List Branch} {row : List Node}
    (hentered : inside.IsEntered) (h : Node.Stands row (nodes children)) :
    Node.Stands row (nodes [⟨root, inside, children⟩]) := by
  cases inside with
  | rule selector =>
    show Node.Stands row ([] ++ .rule selector (nodes children) :: [])
    exact .rule h
  | atRule name params block =>
    show Node.Stands row ([] ++ .atRule name params block (nodes children) :: [])
    exact .atRule h
  | declaration _ _ => exact hentered.elim
  | comment _ => exact hentered.elim
  | root => exact hentered.elim

/-- Work on the children of a container that is entered is work on the container. -/
theorem visited_entered {root : NodeId} {inside : Content} {children : List Branch}
    {result : EStateM.Result Error Run Unit} (hentered : inside.IsEntered)
    (hw : Window run.forest id content above before [⟨root, inside, children⟩] after)
    (h : Visited settings run root inside (some id) [] children [] result) :
    Visited settings run id content above before [⟨root, inside, children⟩] after result := by
  cases result with
  | ok _ run' =>
    obtain ⟨children', hinner, hrewrites, hnodes, htells⟩ := h
    obtain ⟨hwindow, hrewrites⟩ := hw.outer hinner hrewrites
    exact ⟨_, hwindow, hrewrites,
      (Fold.nodes_singleton ..).trans (Fold.node_entered_ok hentered hnodes),
      htells.imp fun row hrow => stands_entered hentered hrow⟩
  | error e run' =>
    obtain ⟨d, children', hinner, hrewrites, hstops, htells⟩ := h
    obtain ⟨hwindow, hrewrites⟩ := hw.outer hinner hrewrites
    exact ⟨d, _, hwindow, hrewrites, .inside hentered hstops,
      htells.imp fun row hrow => stands_entered hentered hrow⟩

/-- Work on one branch; `below` works on the children of a container. -/
theorem visit_visited {below : NodeId → Step Unit} {b : Branch}
    (hw : Window run.forest id content above before [b] after)
    (hbelow : b.content.IsEntered →
      Visited settings run b.root b.content (some id) [] b.children [] (below b.root run)) :
    Visited settings run id content above before [b] after (visit settings below b.root run) := by
  have hget := hw.holds.1.get?
  -- The content of the cell decides what is done, as the shape of the node decides it in the fold.
  obtain ⟨root, inside, children⟩ := b
  simp only at hget
  simp only [visit, bind, EStateM.bind, get_apply, hget]
  cases inside with
  | declaration property value => exact processDeclaration_visited hw
  | comment text => exact visited_unchanged hw rfl rfl (.refl run _) rfl
  | rule selector => exact visited_entered trivial hw (hbelow trivial)
  | atRule name params block =>
    by_cases hname : name = Directive.atName
    · subst hname
      simpa using processDirective_visited hw
    · simp only [hname, if_false]
      exact visited_entered hname hw (hbelow hname)
  | root => exact visited_unchanged hw rfl rfl (.refl run _) rfl

theorem Visited.cons {b : Branch} {bs : List Branch} {first others : Step Unit}
    (hw : Window run.forest id content above before (b :: bs) after)
    (h₁ : Visited settings run id content above before [b] (bs.map Branch.root ++ after)
      (first run))
    (h₂ : ∀ (run' : Run) (before' : List NodeId),
      Window run'.forest id content above before' bs after →
      Visited settings run' id content above before' bs after (others run')) :
    Visited settings run id content above before (b :: bs) after
      ((first >>= fun _ => others) run) := by
  simp only [bind, EStateM.bind]
  cases hfirst : first run with
  | error e run' =>
    rw [hfirst] at h₁
    obtain ⟨d, bs₁, hw₁, hr₁, hstops, htells⟩ := h₁
    refine ⟨d, bs₁ ++ bs, ?_, hr₁.append (.refl _ id bs), hstops.append bs, ?_⟩
    -- The branches to come keep their cells, so the rest of the window is as it was.
    · exact hw₁.join (fun i hi => hw.notMem_of_rewrites hr₁ hi) (.refl _ id bs) (hw.next hw₁ hr₁)
    · rw [nodes_append]
      exact htells.imp fun row hrow => hrow.append_right (nodes bs)
  | ok _ run' =>
    rw [hfirst] at h₁
    obtain ⟨bs₁, hw₁, hr₁, hnodes, htells⟩ := h₁
    have hnode : Fold.node settings run.registry b.node = .ok (run'.registry, nodes bs₁) := by
      simpa [Fold.nodes_singleton] using hnodes
    have h := h₂ run' _ (hw.next hw₁ hr₁)
    -- The first branch is done, and the others start from the run that it has left.
    show Visited settings run id content above before (b :: bs) after (others run')
    generalize others run' = result at h ⊢
    cases result with
    | error e run'' =>
      obtain ⟨d, bs₂, hw₂, hr₂, hstops, htells₂⟩ := h
      refine ⟨d, bs₁ ++ bs₂, ?_, hr₁.append hr₂, .past hnode hstops, ?_⟩
      · exact hw₁.join (fun i hi => hw.notMem_of_rewrites hr₁ hi) hr₂ hw₂
      · rw [nodes_append]
        exact htells.trans htells₂
    | ok _ run'' =>
      obtain ⟨bs₂, hw₂, hr₂, hnodes₂, htells₂⟩ := h
      refine ⟨bs₁ ++ bs₂, ?_, hr₁.append hr₂, ?_, ?_⟩
      · exact hw₁.join (fun i hi => hw.notMem_of_rewrites hr₁ hi) hr₂ hw₂
      · rw [nodes_cons, nodes_append]
        exact Fold.nodes_cons_ok hnode hnodes₂
      · rw [nodes_append]
        exact htells.trans htells₂

/-! ## Trees -/

theorem heightAll_cons_le {b : Branch} {bs : List Branch} {depth : Nat}
    (h : heightAll (b :: bs) ≤ depth) : b.height ≤ depth ∧ heightAll bs ≤ depth :=
  Nat.max_le.1 h

theorem visit_inner {depth : Nat} {b : Branch}
    (hw : Window run.forest id content above before [b] after)
    (hinner : Window run.forest b.root b.content (some id) [] b.children [] →
      Visited settings run b.root b.content (some id) [] b.children []
        ((b.children.map Branch.root).forM (visit settings (processChildren settings depth)) run)) :
    Visited settings run id content above before [b] after
      (visit settings (processChildren settings (depth + 1)) b.root run) := by
  obtain ⟨root, inside, children⟩ := b
  refine visit_visited hw fun _ => ?_
  show Visited _ _ _ _ _ _ _ _
    ((run.forest.children root).forM (visit settings (processChildren settings depth)) run)
  rw [hw.inner.children_eq]
  exact hinner hw.inner

/-- **Work on branches in a row ends in one of the two ways.** The outer induction is on the depth
that is allowed, the inner one on the branches. -/
theorem forM_visit (settings : Settings) :
    ∀ (depth : Nat) {bs : List Branch} {run : Run} {id : NodeId} {content : Content}
      {above : Option NodeId} {before after : List NodeId}, heightAll bs ≤ depth →
      Window run.forest id content above before bs after →
      Visited settings run id content above before bs after
        ((bs.map Branch.root).forM (visit settings (processChildren settings depth)) run)
  | _, [], run, _, _, _, _, _, _, hw => ⟨[], hw, .refl _ _ [], rfl, .refl run _⟩
  | 0, ⟨_, _, _⟩ :: _, _, _, _, _, _, _, hdepth, _ => by simp [heightAll, height] at hdepth
  | depth + 1, ⟨root, inside, cs⟩ :: bs, run, _, _, _, _, _, hdepth, hw => by
    obtain ⟨hb, hbs⟩ := heightAll_cons_le hdepth
    refine Visited.cons hw ?_ fun run' before' hw' => forM_visit settings (depth + 1) hbs hw'
    exact visit_inner hw.head fun hinner =>
      forM_visit settings depth (Nat.le_of_succ_le_succ hb) hinner

/-- Work on one branch ends in one of the two ways. -/
theorem visit_branch (settings : Settings) {depth : Nat} {b : Branch} (hb : b.height ≤ depth + 1)
    (hw : Window run.forest id content above before [b] after) :
    Visited settings run id content above before [b] after
      (visit settings (processChildren settings (depth + 1)) b.root run) := by
  refine visit_inner hw fun hinner => forM_visit settings depth ?_ hinner
  obtain ⟨root, inside, children⟩ := b
  exact Nat.le_of_succ_le_succ hb

/-- **Work on the tree under a container ends in one of the two ways.** -/
theorem process_visited (settings : Settings) {run : Run} {above : Option NodeId}
    {id : NodeId} {content : Content} {bs : List Branch}
    (hw : Window run.forest id content above [] bs []) :
    Visited settings run id content above [] bs [] (process settings id run) := by
  show Visited _ _ _ _ _ _ _ _ ((run.forest.children id).forM
    (visit settings (processChildren settings run.forest.size)) run)
  rw [hw.children_eq]
  refine forM_visit settings run.forest.size ?_ hw
  exact Nat.le_of_succ_le (height_le_size hw.holds_mk hw.nodup_mk)

end Run

end FluidCss
