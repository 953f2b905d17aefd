import FluidCss.Proofs.Run.Visit

/-!
# What style sheets come to

A run takes style sheets one after the other, and one that fails does not end it. What a sheet comes
to depends on the settings and on the registry before it and on nothing else that the run has come
to: not on the trees of the sheets before it and not on the records. This holds for sheets that fail
as well, since the item on which the work stops and what is left there are determined.

* `Fold.Stops.unique`: work on trees stops in one way only.
* `Run.answers_congr`: sheets come to the same in runs with the same registry.
-/

namespace FluidCss

open Branch Forest

/-! ## Work that stops -/

/-- A node shows what is in the cell of its root. -/
theorem Branch.content_eq {b c : Branch} (h : b.node = c.node) : b.content = c.content := by
  obtain ⟨_, content, _⟩ := b
  obtain ⟨_, content', _⟩ := c
  cases content <;> cases content' <;> simp_all [Branch.node]

/-- A node of a container shows the nodes in it. -/
theorem Branch.nodes_children_eq {root root' : NodeId} {content content' : Content}
    {children children' : List Branch} (hentered : content.IsEntered)
    (h : Branch.node ⟨root, content, children⟩ = Branch.node ⟨root', content', children'⟩) :
    nodes children = nodes children' := by
  cases content <;> cases content' <;> simp_all [Branch.node, Content.IsEntered]

theorem Branch.node_congr {content : Content} {children children' : List Branch}
    (h : nodes children = nodes children') (root root' : NodeId) :
    Branch.node ⟨root, content, children⟩ = Branch.node ⟨root', content, children'⟩ := by
  cases content <;> simp [Branch.node, h]

theorem Content.IsItem.not_isEntered {content : Content} (h : content.IsItem) :
    ¬ content.IsEntered := by
  cases content <;> simp_all [Content.IsItem, Content.IsEntered]

namespace Fold

variable {settings : Settings} {registry : Registry}

theorem nodes_cons_error {n : Node} {ns : List Node} {e : Error}
    (h : node settings registry n = .error e) : nodes settings registry (n :: ns) = .error e := by
  simp [nodes, h, bind, Except.bind]

theorem node_entered_error {root : NodeId} {content : Content} {children : List Branch} {e : Error}
    (hentered : content.IsEntered)
    (h : nodes settings registry (Branch.nodes children) = .error e) :
    node settings registry (Branch.node ⟨root, content, children⟩) = .error e := by
  cases content with
  | rule selector => simp [Branch.node, node, h, bind, Except.bind]
  | atRule name params block =>
    have hname : name ≠ Directive.atName := hentered
    simp [Branch.node, node, hname, h, bind, Except.bind]
  | declaration _ _ => exact hentered.elim
  | comment _ => exact hentered.elim
  | root => exact hentered.elim

namespace Stops

variable {registry' registry'' : Registry} {bs bs' cs cs' : List Branch} {d d' : Branch}
  {e e' : Error}

theorem nodes_eq_error (h : Stops settings registry bs d e registry' bs') :
    nodes settings registry (Branch.nodes bs) = .error e := by
  induction h with
  | item _ herror => exact nodes_cons_error herror
  | inside hentered _ ih => exact nodes_cons_error (node_entered_error hentered ih)
  | past hnode _ ih => simp [nodes, hnode, ih, bind, Except.bind]

/-- **Work on trees stops in one way only**, whatever the nodes of the trees are in the forest. -/
theorem unique (h : Stops settings registry bs d e registry' bs')
    (h' : Stops settings registry cs d' e' registry'' cs')
    (hnodes : Branch.nodes bs = Branch.nodes cs) :
    e = e' ∧ registry' = registry'' ∧ Branch.nodes bs' = Branch.nodes cs' := by
  -- The two ways are compared stop by stop: with the same nodes they are of the same kind.
  induction h generalizing cs cs' with
  | @item _ b _ _ hitem herror =>
    cases h' with
    | @item _ _ _ _ _ herror' =>
      obtain ⟨hnode, -⟩ := List.cons.inj hnodes
      rw [hnode, herror'] at herror
      exact ⟨(Except.error.inj herror).symm, rfl, hnodes⟩
    | inside hentered _ =>
      obtain ⟨hnode, -⟩ := List.cons.inj hnodes
      rw [Branch.content_eq hnode] at hitem
      exact absurd hentered hitem.not_isEntered
    | past hok _ =>
      obtain ⟨hnode, -⟩ := List.cons.inj hnodes
      rw [hnode, hok] at herror
      cases herror
  | @inside _ _ root _ _ _ _ _ _ hentered hinside ih =>
    cases h' with
    | item hitem _ =>
      obtain ⟨hnode, -⟩ := List.cons.inj hnodes
      rw [← Branch.content_eq hnode] at hitem
      exact absurd hentered hitem.not_isEntered
    | @inside _ _ root' _ _ _ _ _ _ _ hinside' =>
      obtain ⟨hnode, hrest⟩ := List.cons.inj hnodes
      obtain rfl := Branch.content_eq hnode
      obtain ⟨rfl, rfl, hchildren⟩ := ih hinside' (Branch.nodes_children_eq hentered hnode)
      exact ⟨rfl, rfl, congrArg₂ List.cons (Branch.node_congr hchildren root root') hrest⟩
    | past hok _ =>
      obtain ⟨hnode, -⟩ := List.cons.inj hnodes
      rw [← hnode, node_entered_error hentered hinside.nodes_eq_error] at hok
      cases hok
  | past hok _ ih =>
    cases h' with
    | item _ herror =>
      obtain ⟨hnode, -⟩ := List.cons.inj hnodes
      rw [← hnode, hok] at herror
      cases herror
    | inside hentered hinside =>
      obtain ⟨hnode, -⟩ := List.cons.inj hnodes
      rw [hnode, node_entered_error hentered hinside.nodes_eq_error] at hok
      cases hok
    | past hok' hstops' =>
      obtain ⟨hnode, hrest⟩ := List.cons.inj hnodes
      rw [hnode, hok'] at hok
      obtain ⟨rfl, hnew⟩ := Prod.mk.inj (Except.ok.inj hok)
      obtain ⟨rfl, rfl, hbs⟩ := ih hstops' hrest
      exact ⟨rfl, rfl, by rw [nodes_append, nodes_append, hbs, hnew]⟩

end Stops

end Fold

namespace Run

variable {settings : Settings}

/-- Work on branches fails if the fold on their nodes does, and else it ends with branches that have
the nodes of the fold. -/
theorem Visited.elim {run : Run} {id : NodeId} {content : Content} {above : Option NodeId}
    {before after : List NodeId} {bs : List Branch} {result : EStateM.Result Error Run Unit}
    (h : Visited settings run id content above before bs after result) :
    (∃ e run', result = .error e run' ∧
      Fold.nodes settings run.registry (Branch.nodes bs) = .error e) ∨
    ∃ run' bs', result = .ok () run' ∧ Window run'.forest id content above before bs' after ∧
      Fold.nodes settings run.registry (Branch.nodes bs) =
      .ok (run'.registry, Branch.nodes bs') := by
  cases result with
  | error e run' =>
    obtain ⟨d, bs', -, -, hstops, -⟩ := h
    exact .inl ⟨e, run', rfl, hstops.nodes_eq_error⟩
  | ok _ run' =>
    obtain ⟨bs', hw, -, hfold, -⟩ := h
    exact .inr ⟨run', bs', rfl, hw, hfold⟩

/-! ## Style sheets -/

/-- What a style sheet comes to. -/
structure Answer where
  /-- The text of the sheet as it is left, unless the sheet cannot be read. -/
  css : Option (Except Error Text)
  /-- The error that has ended the work on the sheet. -/
  error : Option Error
  /-- The scales that are known after the sheet. -/
  registry : Registry

/-- Reads and processes a style sheet and shows what it has come to. -/
def answer (settings : Settings) (source : Text) (run : Run) : Answer × Run :=
  match load source run with
  | .error e run => (⟨none, some e, run.registry⟩, run)
  | .ok id run =>
    match process settings id run with
    | .ok _ run => (⟨some (run.css id), none, run.registry⟩, run)
    | .error e run => (⟨some (run.css id), some e, run.registry⟩, run)

def answers (settings : Settings) : List Text → Run → List Answer
  | [], _ => []
  | source :: sources, run =>
    let (a, run) := answer settings source run
    a :: answers settings sources run

/-- What a style sheet with the given nodes comes to. -/
inductive ComesTo (settings : Settings) (registry : Registry) (trees : List Node) : Answer → Prop
  | ok {registry' : Registry} {trees' : List Node} :
    Fold.nodes settings registry trees = .ok (registry', trees') →
    ComesTo settings registry trees ⟨some (.ok (Node.css 0 (.root trees'))), none, registry'⟩
  | error {registry' : Registry} {bs bs' : List Branch} {d : Branch} {e : Error} :
    Branch.nodes bs = trees → Fold.Stops settings registry bs d e registry' bs' →
    ComesTo settings registry trees
      ⟨some (.ok (Node.css 0 (.root (Branch.nodes bs')))), some e, registry'⟩

/-- The nodes of a style sheet and the registry before it determine what it comes to. -/
theorem ComesTo.unique {registry : Registry} {trees : List Node} {a a' : Answer}
    (h : ComesTo settings registry trees a) (h' : ComesTo settings registry trees a') : a = a' := by
  cases h with
  | ok hok =>
    cases h' with
    | ok hok' =>
      obtain ⟨rfl, rfl⟩ := Prod.mk.inj (Except.ok.inj (hok.symm.trans hok'))
      rfl
    -- Work that stops is a failure of the fold, so it cannot also succeed.
    | error hnodes hstops =>
      rw [← hnodes, hstops.nodes_eq_error] at hok
      cases hok
  | error hnodes hstops =>
    cases h' with
    | ok hok =>
      rw [← hnodes, hstops.nodes_eq_error] at hok
      cases hok
    | error hnodes' hstops' =>
      obtain ⟨rfl, rfl, hbs⟩ := hstops.unique hstops' (hnodes.trans hnodes'.symm)
      rw [hbs]

/-- A style sheet that can be read stands in the forest as a tree of its own. -/
theorem exists_load {source : Text} {trees : List Node} (h : Sheet.parse source = .ok trees)
    (run : Run) : ∃ id f bs, load source run = .ok id { run with forest := f } ∧
      Branch.nodes bs = trees ∧ Window f id .root none [] bs [] := by
  obtain ⟨⟨id, content, bs⟩, hid, hnode, hfresh⟩ := plant_fresh run.forest none (.root trees)
  have hload : load source run =
      .ok id { run with forest := (run.forest.plant none (.root trees)).2 } := by
    simp only [load, bind, EStateM.bind, h, check, pure, EStateM.pure, get_apply, modify_apply, hid]
  cases content with
  | root =>
    refine ⟨id, _, bs, hload, Node.root.inj hnode,
      Window.of_holds (holdsAll_cons.1 hfresh.holds).1 ?_⟩
    simpa using hfresh.nodup
  | _ => cases hnode

/-- Processing a style sheet that can be read ends in one of the two ways. -/
theorem exists_visited (settings : Settings) {source : Text} {trees : List Node}
    (h : Sheet.parse source = .ok trees) (run : Run) :
    ∃ id f bs, load source run = .ok id { run with forest := f } ∧ Branch.nodes bs = trees ∧
      Visited settings { run with forest := f } id .root none [] bs []
        (process settings id { run with forest := f }) := by
  obtain ⟨id, f, bs, hload, hnodes, hw⟩ := exists_load h run
  exact ⟨id, f, bs, hload, hnodes, process_visited settings hw⟩

theorem load_of_error {source : Text} {e : Error} (h : Sheet.parse source = .error e) (run : Run) :
    load source run = .error e run := by
  simp only [load, bind, EStateM.bind, h, check]
  rfl

theorem load_process_of_ok {source : Text} {trees trees' : List Node} {registry : Registry}
    (h : Sheet.parse source = .ok trees) (run : Run)
    (hfold : Fold.nodes settings run.registry trees = .ok (registry, trees')) :
    ∃ run', (load source >>= process settings) run = .ok () run' ∧ run'.registry = registry := by
  obtain ⟨id, f, bs, hload, rfl, hvisited⟩ := exists_visited settings h run
  rw [step_bind_of_ok hload]
  rcases hvisited.elim with ⟨e, run', -, herror⟩ | ⟨run', bs', hprocess, -, hok⟩
  · cases hfold.symm.trans herror
  · exact ⟨run', hprocess, (Prod.mk.inj (Except.ok.inj (hok.symm.trans hfold))).1⟩

theorem load_process_of_error {source : Text} {trees : List Node} {e : Error}
    (h : Sheet.parse source = .ok trees) (run : Run)
    (hfold : Fold.nodes settings run.registry trees = .error e) :
    ∃ run', (load source >>= process settings) run = .error e run' := by
  obtain ⟨id, f, bs, hload, rfl, hvisited⟩ := exists_visited settings h run
  rw [step_bind_of_ok hload]
  rcases hvisited.elim with ⟨e', run', hprocess, herror⟩ | ⟨run', bs', -, -, hok⟩
  · obtain rfl := Except.error.inj (herror.symm.trans hfold)
    exact ⟨run', hprocess⟩
  · cases hfold.symm.trans hok

theorem answer_comesTo (settings : Settings) {source : Text} {trees : List Node}
    (h : Sheet.parse source = .ok trees) (run : Run) :
    ComesTo settings run.registry trees (answer settings source run).1 ∧
      (answer settings source run).2.registry = (answer settings source run).1.registry := by
  obtain ⟨id, f, bs, hload, hnodes, hvisited⟩ := exists_visited settings h run
  have hcss : ∀ {run' : Run} {bs' : List Branch}, Window run'.forest id .root none [] bs' [] →
      run'.css id = .ok (Node.css 0 (.root (Branch.nodes bs'))) := by
    intro run' bs' hw'
    rw [css, tree_of_holds hw'.holds_mk hw'.nodup_mk]
    rfl
  rw [answer, hload]
  dsimp only
  generalize process settings id { run with forest := f } = result at hvisited
  cases result with
  | ok _ run' =>
    obtain ⟨bs', hw', -, hfold, -⟩ := hvisited
    rw [hnodes] at hfold
    simp only [hcss hw']
    exact ⟨.ok hfold, trivial⟩
  | error e run' =>
    obtain ⟨d, bs', hw', -, hstops, -⟩ := hvisited
    simp only [hcss hw']
    exact ⟨.error hnodes hstops, trivial⟩

/-- A style sheet comes to the same in runs with the same registry, and leaves the same registry. -/
theorem answer_congr (settings : Settings) {run run' : Run} (h : run.registry = run'.registry)
    (source : Text) :
    (answer settings source run).1 = (answer settings source run').1 ∧
      (answer settings source run).2.registry = (answer settings source run').2.registry := by
  cases hparse : Sheet.parse source with
  | error e =>
    simp only [answer, load_of_error hparse, h]
    exact ⟨trivial, trivial⟩
  | ok trees =>
    obtain ⟨hcomes, hregistry⟩ := answer_comesTo settings hparse run
    obtain ⟨hcomes', hregistry'⟩ := answer_comesTo settings hparse run'
    rw [← h] at hcomes'
    have hanswer := hcomes.unique hcomes'
    exact ⟨hanswer, by rw [hregistry, hregistry', hanswer]⟩

/-- **Style sheets come to the same in runs with the same registry.** -/
theorem answers_congr {sources : List Text} {run run' : Run} (h : run.registry = run'.registry) :
    answers settings sources run = answers settings sources run' := by
  -- Induction on the sheets.
  induction sources generalizing run run' with
  | nil => rfl
  | cons source sources ih =>
    obtain ⟨hanswer, hregistry⟩ := answer_congr settings h source
    show (answer settings source run).1 :: answers settings sources (answer settings source run).2 =
      (answer settings source run').1 :: answers settings sources (answer settings source run').2
    rw [hanswer, ih hregistry]

/-! ## Scales of the settings -/

/-- The scales of the settings are of no concern when a tree is processed. -/
theorem processChildren_scales (scales : List (Text × Scale)) (depth : Nat) :
    processChildren { settings with scales := scales } depth = processChildren settings depth := by
  induction depth with
  | zero => rfl
  | succ depth ih =>
    funext id
    simp only [processChildren, ih]
    rfl

theorem process_scales (scales : List (Text × Scale)) :
    process { settings with scales := scales } = process settings := by
  funext id
  simp only [process, processChildren_scales]

theorem answers_scales (scales : List (Text × Scale)) (sources : List Text) (run : Run) :
    answers { settings with scales := scales } sources run = answers settings sources run := by
  have hanswer : answer { settings with scales := scales } = answer settings := by
    funext source run
    simp only [answer, process_scales]
  induction sources generalizing run with
  | nil => rfl
  | cons source sources ih => simp only [answers, hanswer, ih]

end Run

end FluidCss
