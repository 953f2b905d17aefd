import FluidCss.Proofs.Run.Agreement
import FluidCss.Proofs.Run.Refinement
import FluidCss.Proofs.Run.Session

/-!
# Neighbours that change places

A scale directive and a node next to it that neither defines this scale nor asks for it are
independent: the run makes the same of each of them in either order, and fails in both orders or in
none. The registries may list the scales in another order afterwards, but they give the same
entries, and so all that comes later comes to the same.

* `Exchanged`: two rows of nodes differ in the order of two segments, at any depth.
* `Fold.pair_turned`: a scale directive and its neighbour.
* `Fold.nodes_turned`: rows of nodes in which they stand somewhere.
* `Run.neighbours_commute`: runs on two such trees.
-/

namespace FluidCss

/-! ## Trees that differ in the order of two segments -/

/-- Somewhere in a row of nodes, at any depth, the segment `as` stands before the segment `bs` in
the first row and after it in the second one. All else is the same. -/
inductive Exchanged (as bs : List Node) : List Node → List Node → Prop
  | here (front back : List Node) :
    Exchanged as bs (front ++ (as ++ bs) ++ back) (front ++ (bs ++ as) ++ back)
  | rule (front : List Node) (selector : Text) {children children' : List Node}
    (back : List Node) : Exchanged as bs children children' →
    Exchanged as bs (front ++ [.rule selector children] ++ back)
      (front ++ [.rule selector children'] ++ back)
  | atRule (front : List Node) (name params : Text) (block : Bool)
    {children children' : List Node} (back : List Node) : Exchanged as bs children children' →
    Exchanged as bs (front ++ [.atRule name params block children] ++ back)
      (front ++ [.atRule name params block children'] ++ back)
  | root (front : List Node) {children children' : List Node} (back : List Node) :
    Exchanged as bs children children' →
    Exchanged as bs (front ++ [.root children] ++ back) (front ++ [.root children'] ++ back)

theorem Exchanged.around {as bs ms ns : List Node} (h : Exchanged as bs ms ns)
    (before after : List Node) :
    Exchanged as bs (before ++ ms ++ after) (before ++ ns ++ after) := by
  have hrow : ∀ front row back : List Node,
      before ++ (front ++ row ++ back) ++ after = (before ++ front) ++ row ++ (back ++ after) := by
    simp
  cases h with
  | here front back =>
    rw [hrow, hrow]
    exact .here (before ++ front) (back ++ after)
  | rule front selector back h =>
    rw [hrow, hrow]
    exact .rule (before ++ front) selector (back ++ after) h
  | atRule front name params block back h =>
    rw [hrow, hrow]
    exact .atRule (before ++ front) name params block (back ++ after) h
  | root front back h =>
    rw [hrow, hrow]
    exact .root (before ++ front) (back ++ after) h

theorem Exchanged.ne_nil {a b : Node} {ms ns : List Node} (h : Exchanged [a] [b] ms ns) :
    ms ≠ [] ∧ ns ≠ [] := by
  cases h <;> simp

namespace Fold

variable {settings : Settings}

/-- What two nodes next to each other become, as far as the fold comes to them. -/
inductive Segments (settings : Settings) (a b : Node) : List Node → List Node → Prop
  /-- The fold comes to them with the registry `r`. In either order each of them becomes what it
  becomes by itself, and the registries after them give the same entries. -/
  | made {r r₁ r₂ ra rb : Registry} {as bs : List Node} :
    node settings r a = .ok (ra, as) → node settings r b = .ok (rb, bs) →
    nodes settings r [a, b] = .ok (r₁, as ++ bs) → nodes settings r [b, a] = .ok (r₂, bs ++ as) →
    (∀ name, r₁.get? name = r₂.get? name) → Segments settings a b as bs
  /-- They are inside something that the fold passes over. -/
  | kept : Segments settings a b [a] [b]
  /-- They are inside a directive that is replaced. -/
  | dropped : Segments settings a b [] []

/-- Work on two rows of nodes that differ in the order of `a` and `b` fails for both, or comes to
rows that differ in the order of what becomes of `a` and `b`, and to the same scales. -/
def Turned (settings : Settings) (a b : Node) (x y : Except Error (Registry × List Node)) : Prop :=
  (∃ e e', x = .error e ∧ y = .error e') ∨
    ∃ r r' ms ns as bs, x = .ok (r, ms) ∧ y = .ok (r', ns) ∧ (∀ name, r.get? name = r'.get? name) ∧
      Segments settings a b as bs ∧ Exchanged as bs ms ns

/-! ## Rows of nodes -/

theorem nodes_append (registry : Registry) (ms ns : List Node) :
    nodes settings registry (ms ++ ns) = (do
      let (registry, first) ← nodes settings registry ms
      let (registry, others) ← nodes settings registry ns
      return (registry, first ++ others)) := by
  induction ms generalizing registry with
  | nil =>
    cases h : nodes settings registry ns <;>
      simp [nodes, h, bind, Except.bind, pure, Except.pure]
  | cons m ms ih =>
    simp only [List.cons_append, nodes, ih]
    cases hfirst : node settings registry m with
    | error e => rfl
    | ok first =>
      cases hms : nodes settings first.1 ms with
      | error e => simp [hms, bind, Except.bind]
      | ok others =>
        cases hns : nodes settings others.1 ns <;>
          simp [hms, hns, bind, Except.bind, pure, Except.pure]

/-- What comes before the rows is the same for both, and what comes after them is alike, since the
registries give the same entries. -/
theorem Turned.around {a b : Node} {ms ns : List Node}
    (h : ∀ r, Turned settings a b (nodes settings r ms) (nodes settings r ns))
    (front back : List Node) (r : Registry) :
    Turned settings a b (nodes settings r (front ++ ms ++ back))
      (nodes settings r (front ++ ns ++ back)) := by
  simp only [List.append_assoc, nodes_append]
  cases nodes settings r front with
  | error e => exact .inl ⟨e, e, rfl, rfl⟩
  | ok first =>
    obtain ⟨r₁, front'⟩ := first
    rcases h r₁ with ⟨e, e', hms, hns⟩ |
      ⟨r₂, r₂', ms', ns', as, bs, hms, hns, hagree, hsegments, hrows⟩
    · exact .inl ⟨e, e', by simp [hms, bind, Except.bind], by simp [hns, bind, Except.bind]⟩
    -- The registries may differ in the order of their entries, which no node can see.
    · have hback : Alike (fun _ => True) (nodes settings r₂ back) (nodes settings r₂' back) :=
        nodes_alike (fun name _ => hagree name) fun _ _ _ _ => trivial
      rcases hback.elim with ⟨e, hx, hy⟩ | ⟨r₃, r₃', back', hx, hy, hagree'⟩
      · exact .inl
          ⟨e, e, by simp [hms, hx, bind, Except.bind], by simp [hns, hy, bind, Except.bind]⟩
      · refine .inr ⟨r₃, r₃', front' ++ ms' ++ back', front' ++ ns' ++ back', as, bs, ?_, ?_,
          fun name => hagree' name trivial, hsegments, hrows.around front' back'⟩
        · simp [hms, hx, bind, Except.bind, pure, Except.pure]
        · simp [hns, hy, bind, Except.bind, pure, Except.pure]

/-! ## A scale directive and its neighbour -/

/-- A directive that defines no scale but the given one, if it defines any. -/
structure IsScale (settings : Settings) (name params : Text) : Prop where
  kind : Directive.ofParams params = .scale
  name : ∀ other, Directive.definedScale? settings params = some other → other = name

/-- No scale of the name is defined in the nodes, and no utility asks for it. -/
def Avoids (settings : Settings) (name : Text) (ns : List Node) : Prop :=
  ∀ params, Meets params ns → Directive.definedScale? settings params ≠ some name ∧
    Directive.usedScale? params ≠ some name

/-- **A scale directive and a neighbour that avoids its scale may change places.** The neighbour
works with registries that agree but for that scale, and leaves it as it is. -/
theorem pair_turned {name params : Text} {block : Bool} {children : List Node} {b : Node}
    (hscale : IsScale settings name params) (havoids : Avoids settings name [b]) (r : Registry) :
    Turned settings (.atRule Directive.atName params block children) b
      (nodes settings r [.atRule Directive.atName params block children, b])
      (nodes settings r [b, .atRule Directive.atName params block children]) := by
  cases hread : Directive.readScale settings params with
  | error e =>
    have herror : ∀ r, node settings r (.atRule Directive.atName params block children) =
        .error e := by
      intro r
      rw [node_directive, directive_scale hscale.kind, hread]
      rfl
    refine .inl ?_
    cases hb : node settings r b with
    | error e' => exact ⟨e, e', nodes_cons_error (herror r), nodes_cons_error hb⟩
    | ok result =>
      refine ⟨e, e, nodes_cons_error (herror r), ?_⟩
      simp [nodes, hb, herror, bind, Except.bind]
  | ok read =>
    obtain ⟨scale, entries⟩ := read
    obtain rfl : scale.name = name :=
      hscale.name _ (Directive.definedScale?_of_readScale hscale.kind hread)
    have ha : ∀ r, node settings r (.atRule Directive.atName params block children) =
        .ok (r.register scale.name entries, Directive.scaleNodes scale.name entries) := by
      intro r
      rw [node_directive, directive_scale hscale.kind, hread]
      rfl
    have halike : Alike (· ≠ scale.name) (node settings r b)
        (node settings (r.register scale.name entries) b) :=
      node_alike (Registry.agreeOn_register r scale.name entries)
        fun params other hmeets hused hsame => (havoids params hmeets).2 (hsame ▸ hused)
    rcases halike.elim with ⟨e, hb, hb'⟩ | ⟨rb, r₁, bs, hb, hb', hagree⟩
    · refine .inl ⟨e, e, ?_, nodes_cons_error hb⟩
      simp [nodes, ha, hb', bind, Except.bind]
    -- The neighbour leaves the scale alone, so its order does not matter for what is registered.
    · have hkept : r₁.get? scale.name = some entries := by
        rw [get?_node (fun params hmeets => (havoids params hmeets).1) hb',
          Registry.get?_register_self]
      have hsame : ∀ other, r₁.get? other = (rb.register scale.name entries).get? other := by
        intro other
        by_cases hother : other = scale.name
        · rw [hother, hkept, Registry.get?_register_self]
        · rw [Registry.get?_register_of_ne hother, hagree other hother]
      have hfirst : nodes settings r [.atRule Directive.atName params block children, b] =
          .ok (r₁, Directive.scaleNodes scale.name entries ++ bs) :=
        nodes_cons_ok (ha r) ((nodes_singleton ..).trans hb')
      have hsecond : nodes settings r [b, .atRule Directive.atName params block children] =
          .ok (rb.register scale.name entries, bs ++ Directive.scaleNodes scale.name entries) :=
        nodes_cons_ok hb ((nodes_singleton ..).trans (ha rb))
      refine .inr ⟨_, _, _, _, _, bs, hfirst, hsecond, hsame,
        .made (ha r) hb hfirst hsecond hsame, ?_⟩
      have hrows := @Exchanged.here (Directive.scaleNodes scale.name entries) bs [] []
      simpa using hrows

/-! ## Trees -/

/-- Work on a row with one node that is made the same of its children, or passed over. -/
theorem Turned.singleton {a b : Node} {wrap : List Node → Node} {ms ns : List Node}
    {r : Registry} (hwrap : ∀ {as bs ms ns}, Exchanged as bs ms ns →
      Exchanged as bs [wrap ms] [wrap ns])
    (h : Turned settings a b (nodes settings r ms) (nodes settings r ns)) :
    Turned settings a b
      (do let (r, inside) ← nodes settings r ms; return (r, [wrap inside]))
      (do let (r, inside) ← nodes settings r ns; return (r, [wrap inside])) := by
  rcases h with ⟨e, e', hms, hns⟩ | ⟨r₂, r₂', ms', ns', as, bs, hms, hns, hagree, hsegments, hrows⟩
  · exact .inl ⟨e, e', by rw [hms]; rfl, by rw [hns]; rfl⟩
  · exact .inr ⟨r₂, r₂', [wrap ms'], [wrap ns'], as, bs, by rw [hms]; rfl, by rw [hns]; rfl, hagree,
      hsegments, hwrap hrows⟩

/-- Rows that are passed over stay as they are. -/
theorem turned_kept {a b : Node} {r : Registry} {m n : Node} (h : Exchanged [a] [b] [m] [n]) :
    Turned settings a b (.ok (r, [m])) (.ok (r, [n])) :=
  .inr ⟨r, r, [m], [n], [a], [b], rfl, rfl, fun _ => rfl, .kept, h⟩

/-- What is in a directive does not matter; it goes with the directive, or stays with it. -/
theorem directive_turned {a b self self' : Node} {r : Registry} {params : Text}
    (h : Exchanged [a] [b] [self] [self']) :
    Turned settings a b (directive settings r params self) (directive settings r params self') := by
  have hsame : ∀ x, Turned settings a b x x := by
    intro x
    cases x with
    | error e => exact .inl ⟨e, e, rfl, rfl⟩
    | ok result =>
      have hrow := @Exchanged.here [] [] [] result.2
      exact .inr ⟨result.1, result.1, result.2, result.2, [], [], rfl, rfl, fun _ => rfl, .dropped,
        hrow⟩
  unfold directive
  cases Directive.ofParams params with
  | scale => exact hsame _
  | utility => exact hsame _
  | unknown => exact turned_kept h

/-- **Rows of nodes in which two nodes have changed places come to the same but for the order of
what becomes of them.** -/
theorem nodes_turned {a b : Node} {ms ns : List Node}
    (hpair : ∀ r, Turned settings a b (nodes settings r [a, b]) (nodes settings r [b, a]))
    (h : Exchanged [a] [b] ms ns) :
    ∀ r, Turned settings a b (nodes settings r ms) (nodes settings r ns) := by
  -- Induction on the way down to the two nodes.
  induction h with
  | here front back => exact Turned.around hpair front back
  | rule front selector back _ ih =>
    refine Turned.around (fun r => ?_) front back
    rw [nodes_singleton, nodes_singleton]
    exact (ih r).singleton fun hrows => .rule [] selector [] hrows
  | @atRule front name params block children children' back hchildren ih =>
    refine Turned.around (fun r => ?_) front back
    rw [nodes_singleton, nodes_singleton]
    by_cases hname : name = Directive.atName
    · simp only [node, hname, if_true]
      exact directive_turned (.atRule [] _ params block [] hchildren)
    · simp only [node, hname, if_false]
      exact (ih r).singleton fun hrows => .atRule [] name params block [] hrows
  | root front back hchildren _ =>
    refine Turned.around (fun r => ?_) front back
    rw [nodes_singleton, nodes_singleton]
    exact turned_kept (.root [] [] hchildren)

end Fold

/-! ## Runs -/

namespace Node

def children : Node → List Node
  | rule _ ns | atRule _ _ _ ns | root ns => ns
  | declaration .. | comment _ => []

/-- The container with other nodes in it. -/
def withChildren (ns : List Node) : Node → Node
  | rule selector _ => .rule selector ns
  | atRule name params block _ => .atRule name params block ns
  | root _ => .root ns
  | leaf => leaf

theorem children_withChildren {t : Node} (h : t.children ≠ []) (ns : List Node) :
    (t.withChildren ns).children = ns := by
  cases t <;> simp_all [children, withChildren]

theorem withChildren_withChildren (t : Node) (ms ns : List Node) :
    (t.withChildren ms).withChildren ns = t.withChildren ns := by
  cases t <;> rfl

end Node

theorem Branch.children_node {id : NodeId} {content : Content} {bs : List Branch}
    (h : (Branch.node ⟨id, content, bs⟩).children ≠ []) :
    (Branch.node ⟨id, content, bs⟩).children = Branch.nodes bs ∧ ∀ bs',
      (Branch.node ⟨id, content, bs⟩).withChildren (Branch.nodes bs') =
        Branch.node ⟨id, content, bs'⟩ := by
  cases content with
  | declaration _ _ => exact absurd rfl h
  | comment _ => exact absurd rfl h
  | rule _ => exact ⟨rfl, fun _ => rfl⟩
  | atRule _ _ _ => exact ⟨rfl, fun _ => rfl⟩
  | root => exact ⟨rfl, fun _ => rfl⟩

namespace Run

/-- Work on a container succeeds or fails as the fold on its nodes does, and with its result. -/
theorem process_of_tree (settings : Settings) {run : Run} {id : NodeId} {t : Node}
    (hf : run.forest.WellFormed) (htree : run.forest.tree id = .ok t)
    (hchildren : t.children ≠ []) :
    (∃ e run', process settings id run = .error e run' ∧
      Fold.nodes settings run.registry t.children = .error e) ∨
    ∃ run' ns, process settings id run = .ok () run' ∧
      Fold.nodes settings run.registry t.children = .ok (run'.registry, ns) ∧
      run'.forest.tree id = .ok (t.withChildren ns) := by
  -- A node outside of the forest has no tree.
  have hid : id < run.forest.size := by
    by_contra hid
    have hnone : run.forest.get? id = none := Array.getElem?_eq_none (Nat.le_of_not_lt hid)
    have herror : run.forest.tree id = .error .cyclic := by
      unfold Forest.tree
      cases run.forest.size with
      | zero => rfl
      | succ depth => simp [Forest.toNode?, hnone]
    rw [herror] at htree
    cases htree
  obtain ⟨⟨_, content, bs⟩, rfl, hholds, hnodup, -⟩ := hf.exists_holds hid
  obtain rfl := Except.ok.inj (htree.symm.trans (Forest.tree_of_holds hholds hnodup))
  obtain ⟨hnodes, hwith⟩ := Branch.children_node hchildren
  rw [hnodes]
  rcases (process_visited settings (Forest.Window.of_holds hholds hnodup)).elim with
    herror | ⟨run', bs', hprocess, hw, hfold⟩
  · exact .inl herror
  · refine .inr ⟨run', Branch.nodes bs', hprocess, hfold, ?_⟩
    rw [hwith]
    exact Forest.tree_of_holds hw.holds_mk hw.nodup_mk

theorem process_of_fold_error {settings : Settings} {run : Run} {id : NodeId} {t : Node} {e : Error}
    (hf : run.forest.WellFormed) (htree : run.forest.tree id = .ok t) (hchildren : t.children ≠ [])
    (h : Fold.nodes settings run.registry t.children = .error e) :
    ∃ run', process settings id run = .error e run' := by
  rcases process_of_tree settings hf htree hchildren with
    ⟨e', run', hprocess, hfold⟩ | ⟨run', ns, -, hfold, -⟩
  · obtain rfl := Except.error.inj (h.symm.trans hfold)
    exact ⟨run', hprocess⟩
  · rw [h] at hfold
    cases hfold

theorem process_of_fold_ok {settings : Settings} {run : Run} {id : NodeId} {t : Node}
    {registry : Registry} {ns : List Node} (hf : run.forest.WellFormed)
    (htree : run.forest.tree id = .ok t) (hchildren : t.children ≠ [])
    (h : Fold.nodes settings run.registry t.children = .ok (registry, ns)) :
    ∃ run', process settings id run = .ok () run' ∧ run'.registry = registry ∧
      run'.forest.tree id = .ok (t.withChildren ns) := by
  rcases process_of_tree settings hf htree hchildren with
    ⟨e, run', -, hfold⟩ | ⟨run', ns', hprocess, hfold, hresult⟩
  · rw [h] at hfold
    cases hfold
  · obtain ⟨rfl, rfl⟩ := Prod.mk.inj (Except.ok.inj (h.symm.trans hfold))
    exact ⟨run', hprocess, rfl, hresult⟩

/-- **Independent neighbours commute.** Two containers have the same in them, but that a directive
for the scale `name` stands before a neighbour in one of them and after it in the other, at the same
place; the neighbour neither defines this scale nor asks for it. Then work on both succeeds or on
none, and if it succeeds, the results differ in the order of what becomes of the two, and the
registries give the same entries. -/
theorem neighbours_commute {settings : Settings} {name params : Text} {block : Bool}
    {inside row : List Node} {b t : Node} {run run' : Run} {id id' : NodeId}
    (hscale : Fold.IsScale settings name params) (havoids : Fold.Avoids settings name [b])
    (hf : run.forest.WellFormed)
    (hf' : run'.forest.WellFormed) (hregistry : run.registry = run'.registry)
    (htree : run.forest.tree id = .ok t) (htree' : run'.forest.tree id' = .ok (t.withChildren row))
    (hrow : Exchanged [.atRule Directive.atName params block inside] [b] t.children row) :
    ((∃ run₁, process settings id run = .ok () run₁) ↔
      ∃ run₁', process settings id' run' = .ok () run₁') ∧
    ∀ run₁ run₁', process settings id run = .ok () run₁ →
      process settings id' run' = .ok () run₁' →
      ∃ as bs ms ns, run₁.forest.tree id = .ok (t.withChildren ms) ∧
        run₁'.forest.tree id' = .ok (t.withChildren ns) ∧
        Fold.Segments settings (.atRule Directive.atName params block inside) b as bs ∧
        Exchanged as bs ms ns ∧ ∀ other, run₁.registry.get? other = run₁'.registry.get? other := by
  obtain ⟨hchildren, hne⟩ := hrow.ne_nil
  have hchildren' := Node.children_withChildren hchildren row
  have hne' : (t.withChildren row).children ≠ [] := by rwa [hchildren']
  rcases Fold.nodes_turned (Fold.pair_turned hscale havoids) hrow run.registry with
    ⟨e, e', hx, hy⟩ | ⟨registry, registry', ms, ns, as, bs, hx, hy, hagree, hsegments, hrows⟩
  · rw [hregistry, ← hchildren'] at hy
    obtain ⟨_, hprocess⟩ := process_of_fold_error hf htree hchildren hx
    obtain ⟨_, hprocess'⟩ := process_of_fold_error hf' htree' hne' hy
    simp [hprocess, hprocess']
  · rw [hregistry, ← hchildren'] at hy
    obtain ⟨run₁, hprocess, rfl, hresult⟩ := process_of_fold_ok hf htree hchildren hx
    obtain ⟨run₁', hprocess', rfl, hresult'⟩ := process_of_fold_ok hf' htree' hne' hy
    rw [Node.withChildren_withChildren] at hresult'
    refine ⟨⟨fun _ => ⟨run₁', hprocess'⟩, fun _ => ⟨run₁, hprocess⟩⟩, fun r r' h h' => ?_⟩
    -- A call has one result, so the runs of the statement are those that the fold gives.
    obtain ⟨-, rfl⟩ := EStateM.Result.ok.inj (hprocess.symm.trans h)
    obtain ⟨-, rfl⟩ := EStateM.Result.ok.inj (hprocess'.symm.trans h')
    exact ⟨as, bs, ms, ns, hresult, hresult', hsegments, hrows, hagree⟩

/-- The parameters of a directive for the scale `s`. -/
def scaleParams : Text := "scale(\x7bprefix: 's', pairs: \x7ba: [1, 2]\x7d\x7d)"

/-- A directive for the scale `s`. -/
def smallScale : Node := .atRule Directive.atName scaleParams false []

/-- A rule that sets gaps from a scale. -/
def gapRule (scale : Text) : Node :=
  .rule "b" [.atRule Directive.atName
    ("utility(\x7bselector: '&', property: 'gap', scale: '" ++ scale ++ "'\x7d)") false []]

/-- The nodes of a style sheet in which two statements stand before a rule that uses the scale `s`.
-/
def pairNodes (first second : Node) : List Node := [first, second, gapRule "s"]

/-- A run on such a style sheet that knows the scale `t`. -/
def pairRun (first second : Node) : Run :=
  ⟨Registry.empty.register "t" [⟨"x", "1px"⟩],
    (Forest.empty.plant none (.root (pairNodes first second))).2, []⟩

theorem neighbours_commute_gapRule :
    ∃ run₁ run₁', process .default 0 (pairRun smallScale (gapRule "t")) = .ok () run₁ ∧
      process .default 0 (pairRun (gapRule "t") smallScale) = .ok () run₁' ∧
      ∃ as bs ms ns, run₁.forest.tree 0 = .ok (.root ms) ∧ run₁'.forest.tree 0 = .ok (.root ns) ∧
        Fold.Segments .default smallScale (gapRule "t") as bs ∧ Exchanged as bs ms ns ∧
        ∀ other, run₁.registry.get? other = run₁'.registry.get? other := by
  have hscale : Fold.IsScale .default "s" scaleParams := by
    refine ⟨by decide +kernel, fun other hother => ?_⟩
    have hname : Directive.definedScale? .default scaleParams = some "s" := by decide +kernel
    exact Option.some.inj (hother.symm.trans hname)
  have havoids : Fold.Avoids .default "s" [gapRule "t"] := by
    intro params hmeets
    cases hmeets with
    | rule hinside =>
      cases hinside with
      | here => exact ⟨by decide +kernel, by decide +kernel⟩
      | atRule hname _ => exact absurd rfl hname
      | later hnone => cases hnone
    | later hnone => cases hnone
  have hf : (pairRun smallScale (gapRule "t")).forest.WellFormed :=
    Forest.wellFormed_of_forall_lt (by decide +kernel) (by decide +kernel) (by decide +kernel)
  have hf' : (pairRun (gapRule "t") smallScale).forest.WellFormed :=
    Forest.wellFormed_of_forall_lt (by decide +kernel) (by decide +kernel) (by decide +kernel)
  have htree : (pairRun smallScale (gapRule "t")).forest.tree 0 =
      .ok (.root (pairNodes smallScale (gapRule "t"))) := rfl
  have htree' : (pairRun (gapRule "t") smallScale).forest.tree 0 =
      .ok ((Node.root (pairNodes smallScale (gapRule "t"))).withChildren
        (pairNodes (gapRule "t") smallScale)) := rfl
  obtain ⟨hiff, hresults⟩ := neighbours_commute hscale havoids hf hf' rfl htree htree'
    (.here [] [gapRule "s"])
  -- One of the two calls is evaluated, and that the other succeeds too is what the theorem says.
  have hok : (Step.outcome (process .default 0) (pairRun smallScale (gapRule "t"))).isOk := by
    decide +kernel
  cases hprocess : process .default 0 (pairRun smallScale (gapRule "t")) with
  | error e run₁ =>
    rw [Step.outcome, hprocess] at hok
    cases hok
  | ok _ run₁ =>
    obtain ⟨run₁', hprocess'⟩ := hiff.1 ⟨run₁, hprocess⟩
    exact ⟨run₁, run₁', rfl, hprocess', hresults run₁ run₁' hprocess hprocess'⟩

end Run

end FluidCss
