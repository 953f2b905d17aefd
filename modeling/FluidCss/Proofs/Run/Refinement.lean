import FluidCss.Proofs.Run.Visit

/-!
# Runs and the fold on trees

A run edits nodes in place, through the links between them. What it makes of the style sheets is
nevertheless a function of the trees: the fold, with the registry handed on from sheet to sheet.

* `Run.processAll_eq_fold`: if all the calls of a run succeed, the trees and the registry are those
  that the fold gives.

The nodes of a well-formed forest are shared out among its roots. That is the invariant of a run
through several sheets (`Grove`): work on one of the branches leaves the others alone.
-/

namespace FluidCss

open Branch Forest Relation

namespace Forest

/-- A container that belongs to no other. -/
def IsRoot (f : Forest) (id : NodeId) : Prop :=
  ∃ cell, f.get? id = some cell ∧ cell.content.isContainer ∧ cell.parent = none

/-- The forest holds a branch for each of some roots, and no node is in two of them. -/
structure Grove (f : Forest) (roots : NodeId → Prop) (branches : NodeId → Branch) : Prop where
  root_eq : ∀ id, roots id → (branches id).root = id
  isContainer : ∀ id, roots id → (branches id).content.isContainer
  holds : ∀ id, roots id → f.Holds none (branches id)
  nodup : ∀ id, roots id → (branches id).ids.Nodup
  disjoint : ∀ id id', roots id → roots id' → ∀ i ∈ (branches id).ids, i ∈ (branches id').ids →
    id = id'

/-- Nodes within one node that have no parent are the same. -/
theorem eq_of_within {f : Forest} {i a b : NodeId} (ha : f.parent? a = none)
    (hb : f.parent? b = none) (hia : ReflTransGen f.IsParent i a)
    (hib : ReflTransGen f.IsParent i b) : a = b := by
  have top : ∀ {x y}, f.parent? x = none → ReflTransGen f.IsParent x y → x = y := by
    intro x y hx hxy
    rcases ReflTransGen.cases_head hxy with rfl | ⟨z, hxz, -⟩
    · rfl
    · exact absurd (hx.symm.trans hxz) (by simp)
  rcases ReflTransGen.total_of_right_unique (isParent_rightUnique f) hia hib with h | h
  · exact top ha h
  · exact (top hb h).symm

/-- **The nodes of a well-formed forest are shared out among its roots.** -/
theorem WellFormed.exists_grove {f : Forest} (hf : f.WellFormed) :
    ∃ branches, Grove f f.IsRoot branches := by
  have hbranch : ∀ id, ∃ b : Branch, f.IsRoot id →
      b.root = id ∧ f.parent? id = none ∧ b.content.isContainer ∧ Sound f none b := by
    intro id
    by_cases hid : f.IsRoot id
    · obtain ⟨cell, hcell, hcontainer, hparent⟩ := hid
      have hnone : f.parent? id = none := (parent?_eq hcell).trans hparent
      obtain ⟨b, rfl, hsound⟩ := hf.exists_holds (lt_size_of_get? hcell)
      rw [hnone] at hsound
      have hcontent : b.content = cell.content := by
        have := hsound.1.get?.symm.trans hcell
        rw [← Option.some.inj this]
      exact ⟨b, fun _ => ⟨rfl, hnone, hcontent ▸ hcontainer, hsound⟩⟩
    · exact ⟨⟨id, .root, []⟩, fun h => absurd h hid⟩
  choose branches hbranches using hbranch
  refine ⟨branches, fun id h => (hbranches id h).1, fun id h => (hbranches id h).2.2.1,
    fun id h => (hbranches id h).2.2.2.1, fun id h => (hbranches id h).2.2.2.2.1, ?_⟩
  intro id id' h h' i hi hi'
  obtain ⟨hroot, hnone, -, -, -, hwithin⟩ := hbranches id h
  obtain ⟨hroot', hnone', -, -, -, hwithin'⟩ := hbranches id' h'
  -- A node that is in two branches has both roots at the top of the way up from it.
  exact eq_of_within hnone hnone' (hroot ▸ hwithin i hi) (hroot' ▸ hwithin' i hi')

namespace Grove

variable {f : Forest} {roots : NodeId → Prop} {branches : NodeId → Branch}

theorem tree_eq (h : Grove f roots branches) {id : NodeId} (hid : roots id) :
    f.tree id = .ok (branches id).node := by
  have := tree_of_holds (h.holds id hid) (h.nodup id hid)
  rwa [h.root_eq id hid] at this

/-- **Work under one root leaves the other branches alone.** -/
theorem rewrite {g : Forest} {id : NodeId} {content : Content} {bs bs' : List Branch}
    (h : Grove f roots branches) (hid : roots id) (hbranch : branches id = ⟨id, content, bs⟩)
    (hw : Window g id content none [] bs' []) (hr : Rewrites f g id bs bs') :
    Grove g roots (fun i => if i = id then ⟨id, content, bs'⟩ else branches i) := by
  -- What the new branch is made of was in the old one or is new in the forest.
  have hold : ∀ i ∈ Branch.ids ⟨id, content, bs'⟩,
      i ∈ (branches id).ids ∨ f.size ≤ i := by
    intro i hi
    rw [hbranch]
    rcases List.mem_cons.1 hi with rfl | hi
    · exact .inl List.mem_cons_self
    · exact (hr.origin i hi).imp_left (List.mem_cons_of_mem _)
  have hapart : ∀ id', roots id' → id' ≠ id → ∀ i ∈ (branches id').ids,
      i ∉ Branch.ids ⟨id, content, bs'⟩ := by
    intro id' hid' hne i hi hi'
    rcases hold i hi' with ho | ho
    · exact hne (h.disjoint id' id hid' hid i hi ho)
    · exact Nat.not_lt_of_le ho ((h.holds id' hid').lt_size i hi)
  -- Each clause is about the root that was worked on or about another one.
  refine ⟨fun i hi => ?_, fun i hi => ?_, fun i hi => ?_, fun i hi => ?_,
    fun i j hi hj k hk hk' => ?_⟩
  · by_cases he : i = id
    · simp [he]
    · simpa [he] using h.root_eq i hi
  · by_cases he : i = id
    · have := h.isContainer id hid
      rw [hbranch] at this
      simpa [he] using this
    · simpa [he] using h.isContainer i hi
  · by_cases he : i = id
    · simpa [he] using hw.holds_mk
    · simp only [he, if_false]
      refine (h.holds i hi).congr fun k hk => ?_
      have hk' : k ∉ (branches id).ids := fun hmem => he (h.disjoint i id hi hid k hk hmem)
      rw [hbranch, Branch.ids, List.mem_cons, not_or] at hk'
      exact hr.get?_eq k ((h.holds i hi).lt_size k hk) hk'.1 hk'.2
  · by_cases he : i = id
    · simpa [he] using hw.nodup_mk
    · simpa [he] using h.nodup i hi
  · by_cases hi' : i = id
    · by_cases hj' : j = id
      · exact hi'.trans hj'.symm
      · simp only [hi', hj', if_true, if_false] at hk hk'
        exact absurd hk (hapart j hj hj' k hk')
    · by_cases hj' : j = id
      · simp only [hi', hj', if_true, if_false] at hk hk'
        exact absurd hk' (hapart i hi hi' k hk)
      · simp only [hi', hj', if_false] at hk hk'
        exact h.disjoint i j hi hj k hk hk'

end Grove

end Forest

theorem Fold.sheet_eq_ok {settings : Settings} {registry registry' : Registry} {root : NodeId}
    {content : Content} {bs bs' : List Branch} (hcontainer : content.isContainer)
    (h : Fold.nodes settings registry (Branch.nodes bs) = .ok (registry', Branch.nodes bs')) :
    Fold.sheet settings registry (Branch.node ⟨root, content, bs⟩) =
      .ok (registry', Branch.node ⟨root, content, bs'⟩) := by
  cases content with
  | declaration _ _ => cases hcontainer
  | comment _ => cases hcontainer
  | rule _ => simp [Branch.node, Fold.sheet, h, bind, Except.bind, pure, Except.pure]
  | atRule _ _ _ => simp [Branch.node, Fold.sheet, h, bind, Except.bind, pure, Except.pure]
  | root => simp [Branch.node, Fold.sheet, h, bind, Except.bind, pure, Except.pure]

namespace Run

/-- **One call of a run** makes of the tree under a root what the fold makes of it. -/
theorem process_grove {settings : Settings} {run run' : Run} {roots : NodeId → Prop}
    {branches : NodeId → Branch} (hgrove : Grove run.forest roots branches) {id : NodeId}
    (hid : roots id) (h : process settings id run = .ok () run') :
    ∃ b, Fold.sheet settings run.registry (branches id).node = .ok (run'.registry, b.node) ∧
      Grove run'.forest roots (fun i => if i = id then b else branches i) := by
  obtain ⟨content, bs, hbranch⟩ : ∃ content bs, branches id = ⟨id, content, bs⟩ := by
    have hroot := hgrove.root_eq id hid
    cases hb : branches id with
    | mk root content bs =>
      rw [hb] at hroot
      exact ⟨content, bs, by rw [← hroot]⟩
  have hholds := hgrove.holds id hid
  have hnodup := hgrove.nodup id hid
  have hcontainer := hgrove.isContainer id hid
  rw [hbranch] at hholds hnodup hcontainer
  have hvisited := process_visited settings (Window.of_holds hholds hnodup)
  rw [h] at hvisited
  obtain ⟨bs', hw, hr, hnodes, -⟩ := hvisited
  refine ⟨⟨id, content, bs'⟩, ?_, hgrove.rewrite hid hbranch hw hr⟩
  rw [hbranch]
  exact Fold.sheet_eq_ok hcontainer hnodes

theorem processAll_grove {settings : Settings} {roots : NodeId → Prop} :
    ∀ {ids : List NodeId} {run run' : Run} {branches : NodeId → Branch},
      Grove run.forest roots branches → (∀ id ∈ ids, roots id) →
      ids.forM (process settings) run = .ok () run' →
      ∃ branches', Grove run'.forest roots branches' ∧
        Fold.sheets settings run.registry (fun i => (branches i).node) ids =
          .ok (run'.registry, fun i => (branches' i).node)
  -- Induction on the roots that are still to come.
  | [], run, run', branches, hgrove, _, h => by
    obtain rfl : run = run' := by cases h; rfl
    exact ⟨branches, hgrove, rfl⟩
  | id :: ids, run, run', branches, hgrove, hroots, h => by
    change (process settings id >>= fun _ => ids.forM (process settings)) run = _ at h
    simp only [bind, EStateM.bind] at h
    cases hfirst : process settings id run with
    | error e run₁ => simp [hfirst] at h
    | ok _ run₁ =>
      simp only [hfirst] at h
      obtain ⟨b, hsheet, hgrove₁⟩ := process_grove hgrove (hroots id List.mem_cons_self) hfirst
      obtain ⟨branches', hgrove', hsheets⟩ := processAll_grove hgrove₁
        (fun i hi => hroots i (List.mem_cons_of_mem _ hi)) h
      refine ⟨branches', hgrove', ?_⟩
      simp only [Fold.sheets, hsheet, bind, Except.bind]
      rw [← hsheets]
      -- The trees differ at the first root alone, and there both have the new tree.
      congr 1
      funext i
      split <;> rfl

/-- **A run is the fold.** When a run has worked on some roots of a well-formed forest in turn, also
on one of them again, and has not failed, the trees under all roots and the registry are what the
fold makes of those that there were. -/
theorem processAll_eq_fold {settings : Settings} {run run' : Run} {ids : List NodeId}
    (hf : run.forest.WellFormed) (hroots : ∀ id ∈ ids, run.forest.IsRoot id)
    (h : ids.forM (process settings) run = .ok () run') :
    ∃ trees trees' : NodeId → Node,
      (∀ id, run.forest.IsRoot id → run.forest.tree id = .ok (trees id)) ∧
      Fold.sheets settings run.registry trees ids = .ok (run'.registry, trees') ∧
      ∀ id, run.forest.IsRoot id → run'.forest.tree id = .ok (trees' id) := by
  obtain ⟨branches, hgrove⟩ := hf.exists_grove
  obtain ⟨branches', hgrove', hsheets⟩ := processAll_grove hgrove hroots h
  exact ⟨_, _, fun id hid => hgrove.tree_eq hid, hsheets, fun id hid => hgrove'.tree_eq hid⟩

/-- A style sheet that defines a scale, and one that uses it inside a rule. -/
def twoSheets : Forest :=
  let scale : Text := "scale(\x7bprefix: 's', pairs: \x7ba: [1, 2]\x7d\x7d)"
  let utility : Text := "utility(\x7bselector: '&-gap', property: 'gap', scale: 's'\x7d)"
  let f := (Forest.empty.plant none (.root [.atRule "ruler" scale false []])).2
  (f.plant none (.root [.rule "a" [.declaration "b" "1px", .atRule "ruler" utility false []]])).2

/-- What becomes of the first one. -/
def scaleTree : Node :=
  .root [.declaration "--s-a" "clamp(0.0625rem, 0.0694vw + 0.0486rem, 0.125rem)"]

def utilityTree : Node :=
  .root [.rule "a" [.declaration "b" "1px",
    .rule "&-gap-a" [.declaration "gap" "clamp(0.0625rem, 0.0694vw + 0.0486rem, 0.125rem)"]]]

theorem processAll_eq_fold_twoSheets : ∃ run',
    [0, 2].forM (process .default) ⟨.empty, twoSheets, []⟩ = .ok () run' ∧
    run'.forest.tree 0 = .ok scaleTree ∧ run'.forest.tree 2 = .ok utilityTree ∧
    ∃ trees trees' : NodeId → Node,
      (∀ id, twoSheets.IsRoot id → twoSheets.tree id = .ok (trees id)) ∧
      Fold.sheets .default .empty trees [0, 2] = .ok (run'.registry, trees') ∧
      ∀ id, twoSheets.IsRoot id → run'.forest.tree id = .ok (trees' id) := by
  have hf : twoSheets.WellFormed :=
    wellFormed_of_forall_lt (by decide +kernel) (by decide +kernel) (by decide +kernel)
  have hroots : ∀ id ∈ [0, 2], twoSheets.IsRoot id := by
    intro id hid
    have hcell : ∀ id ∈ [0, 2], twoSheets.get? id = some ⟨.root, none, [id + 1]⟩ :=
      by decide +kernel
    exact ⟨_, hcell id hid, rfl, rfl⟩
  have hok : (Step.outcome ([0, 2].forM (process .default)) ⟨.empty, twoSheets, []⟩).isOk := by
    decide +kernel
  have htrees : (([0, 2].forM (process .default)).after ⟨.empty, twoSheets, []⟩).forest.tree 0 =
        .ok scaleTree ∧
      (([0, 2].forM (process .default)).after ⟨.empty, twoSheets, []⟩).forest.tree 2 =
        .ok utilityTree := by
    decide +kernel
  cases h : [0, 2].forM (process .default) ⟨.empty, twoSheets, []⟩ with
  | ok _ run' =>
    rw [Step.after, h] at htrees
    exact ⟨run', rfl, htrees.1, htrees.2, processAll_eq_fold hf hroots h⟩
  | error e run' =>
    rw [Step.outcome, h] at hok
    cases hok

end Run

end FluidCss
