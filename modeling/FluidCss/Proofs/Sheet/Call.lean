import FluidCss.Proofs.Sheet.Move

/-!
# Sequences of edits

A forest grows out of nothing by calls: nodes are made, put into containers, put in the place of
others, and taken out.

**Theorem (`calls_keep_forest`).** As long as no call hands a container a node that it lists
already, the same node twice, itself or a node above it, the forest is well-formed after every call,
and what each call does is known (`Answers`). A call fails only if it is to replace a node that is
not a child of the container or that has no parent, and then it changes nothing.

A call is answered on any well-formed forest, so the theorem is an induction over the calls. What is
made is first a node by itself, and handing it its children is putting them at its end.
-/

namespace FluidCss

namespace Forest

variable {f : Forest}

/-! ## New nodes -/

@[simp] theorem parent?_add (f : Forest) (content : Content) (id : NodeId) :
    (f.add content).2.parent? id = f.parent? id := by
  simp only [parent?, get?_add_snd]
  by_cases hid : id = f.size
  · have hnone : f.get? id = none := Array.getElem?_eq_none (Nat.le_of_eq hid.symm)
    simp [hid, hid ▸ hnone]
  · simp [hid]

@[simp] theorem children_add (f : Forest) (content : Content) (id : NodeId) :
    (f.add content).2.children id = f.children id := by
  simp only [children, get?_add_snd]
  by_cases hid : id = f.size
  · have hnone : f.get? id = none := Array.getElem?_eq_none (Nat.le_of_eq hid.symm)
    simp [hid, hid ▸ hnone]
  · simp [hid]

theorem children_size (f : Forest) : f.children f.size = [] := by
  have hnone : f.get? f.size = none := Array.getElem?_eq_none (Nat.le_refl _)
  simp [children, hnone]

theorem parent?_size (f : Forest) : f.parent? f.size = none := by
  have hnone : f.get? f.size = none := Array.getElem?_eq_none (Nat.le_refl _)
  simp [parent?, hnone]

theorem not_under_of_parent?_eq_none {id : NodeId} (hid : f.parent? id = none) (i : NodeId) :
    ¬ f.Under id i := by
  intro hunder
  obtain ⟨p, hp, -⟩ := Relation.TransGen.head'_iff.1 hunder
  rw [IsParent, hid] at hp
  cases hp

theorem WellFormed.add (hf : f.WellFormed) (content : Content) : (f.add content).2.WellFormed := by
  have hparents : (f.add content).2.IsParent = f.IsParent := by
    funext child parent
    rw [IsParent, IsParent, parent?_add]
  refine ⟨?_, ?_, ?_⟩
  · intro parent child
    rw [children_add, parent?_add]
    exact hf.mem_children_iff parent child
  · intro id
    rw [children_add]
    exact hf.nodup_children id
  · intro id
    rw [Under, hparents]
    exact hf.acyclic id

theorem wellFormed_empty : Forest.empty.WellFormed :=
  wellFormed_of_forall_lt (fun _ h => absurd h (Nat.not_lt_zero _))
    (fun _ h => absurd h (Nat.not_lt_zero _)) fun _ h => absurd h (Nat.not_lt_zero _)

end Forest

namespace Edit

open Forest

/-! ## Calls -/

/-- A call of an edit. -/
inductive Call where
  | make (content : Content) (new : List NodeId)
  | append (parent : NodeId) (new : List NodeId)
  | replace (parent old : NodeId) (new : List NodeId)
  | replaceWith (node : NodeId) (new : List NodeId)
  | remove (node : NodeId)

namespace Call

def run : Call → Edit Unit
  | make content new => do let _ ← Edit.make content new
  | append parent new => Edit.append parent new
  | replace parent old new => Edit.replace parent old new
  | replaceWith node new => Edit.replaceWith node new
  | remove node => Edit.remove node

/-- The forest that a call leaves, whether it succeeds or not. -/
def after (call : Call) (f : Forest) : Forest :=
  match call.run f with
  | .ok _ g | .error _ g => g

/-- A call refers to nodes that there are, and does not hand a container a node that it lists, the
same node twice, itself or a node above it. A node that is made lies nowhere yet. -/
def IsAllowed (f : Forest) : Call → Prop
  | make _ new => new.Nodup ∧ ∀ n ∈ new, n < f.size
  | append parent new => parent < f.size ∧ f.Handed parent new
  | replace parent old new => parent < f.size ∧ old < f.size ∧ f.Handed parent new
  | replaceWith node new =>
    node < f.size ∧ ∀ parent, f.parent? node = some parent → f.Handed parent new
  | remove node => node < f.size

end Call

/-- What a call comes to. -/
inductive Answers (f : Forest) : Call → EStateM.Result Error Forest Unit → Prop
  /-- The new node has the next number, and for its children what it was made with. -/
  | made {content : Content} {new : List NodeId} {g : Forest}
      (h : Moved (f.add content).2 g f.size new [] new) : Answers f (.make content new) (.ok () g)
  | appended {parent : NodeId} {new : List NodeId} {g : Forest}
      (h : Moved f g parent new [] (f.children parent ++ new)) :
      Answers f (.append parent new) (.ok () g)
  | replaced {parent old : NodeId} {new before after : List NodeId} {g : Forest}
      (hlisted : f.children parent = before ++ old :: after)
      (h : Moved f g parent new [old] (before ++ new ++ after)) :
      Answers f (.replace parent old new) (.ok () g)
  /-- Only a child can be replaced. -/
  | unlisted {parent old : NodeId} {new : List NodeId} (h : old ∉ f.children parent) :
      Answers f (.replace parent old new) (.error (.childMissing (f.describe old)) f)
  /-- A node that has a parent is replaced there. -/
  | replacedInParent {parent node : NodeId} {new : List NodeId} {g : Forest}
      (hparent : f.parent? node = some parent)
      (h : Answers f (.replace parent node new) (.ok () g)) :
      Answers f (.replaceWith node new) (.ok () g)
  | orphan {node : NodeId} {new : List NodeId} {cell : Cell} (hcell : f.get? node = some cell)
      (h : cell.parent = none) :
      Answers f (.replaceWith node new) (.error (.parentMissing cell.content.kindName) f)
  /-- To remove a node is to put nothing in its place. -/
  | removed {node : NodeId} {result : EStateM.Result Error Forest Unit}
      (h : Answers f (.replaceWith node []) result) : Answers f (.remove node) result

variable {f : Forest} {call : Call}

/-! ## One call -/

theorem handed_add {new : List NodeId} (hnodup : new.Nodup) (hnew : ∀ n ∈ new, n < f.size)
    (content : Content) : (f.add content).2.Handed f.size new where
  nodup := hnodup
  lt_size n hn := by
    rw [size_add_snd]
    exact Nat.lt_succ_of_lt (hnew n hn)
  notMem n _ := by simp [children_size]
  ne n hn := Nat.ne_of_lt (hnew n hn)
  not_under n _ := not_under_of_parent?_eq_none (by simp [parent?_size]) n

theorem make_answers (hf : f.WellFormed) {content : Content} {new : List NodeId}
    (hnodup : new.Nodup) (hnew : ∀ n ∈ new, n < f.size) :
    Answers f (.make content new) ((Call.make content new).run f) := by
  have hadd := hf.add content
  have hsize : f.size < (f.add content).2.size := by
    rw [size_add_snd]
    exact Nat.lt_succ_self _
  obtain ⟨g, hg, hmoved⟩ := append_moved hsize hadd.nodup_children hnodup
    (hadd.adoptable (handed_add hnodup hnew content))
  -- The new container has no children, so the ones that are put at its end are all it lists.
  rw [children_add, children_size, List.nil_append] at hmoved
  have hrun : (Call.make content new).run f = .ok () g := by
    show ((Edit.make content new >>= fun _ => pure ()) : Edit Unit) f = .ok () g
    have hmake : Edit.make content new f = .ok f.size g := by
      show (append f.size new >>= fun _ => pure f.size) (f.add content).2 = .ok f.size g
      rw [step_bind_of_ok hg]
      rfl
    rw [step_bind_of_ok hmake]
    rfl
  rw [hrun]
  exact .made hmoved

theorem replace_answers (hf : f.WellFormed) {parent old : NodeId} {new : List NodeId}
    (hold : old < f.size) (hnew : f.Handed parent new) :
    Answers f (.replace parent old new) (replace parent old new f) := by
  by_cases hlisted : old ∈ f.children parent
  · obtain ⟨before, after, hchildren⟩ := List.append_of_mem hlisted
    obtain ⟨g, hg, hmoved⟩ := replace_moved hf.nodup_children hnew.nodup (hf.adoptable hnew) hold
      hchildren
    rw [hg]
    exact .replaced hchildren hmoved
  · have hindex : index parent old f = .error (.childMissing (f.describe old)) f := by
      simp only [index, bind, EStateM.bind, get_apply, List.idxOf?_eq_none_iff.2 hlisted]
      rfl
    rw [replace, step_bind_of_error hindex]
    exact .unlisted hlisted

theorem replaceWith_answers (hf : f.WellFormed) {node : NodeId} {new : List NodeId}
    (hnode : node < f.size) (hnew : ∀ parent, f.parent? node = some parent → f.Handed parent new) :
    Answers f (.replaceWith node new) (replaceWith node new f) := by
  obtain ⟨⟨content, parent, children⟩, hcell⟩ := exists_get?_of_lt hnode
  have hparent : f.parent? node = parent := parent?_eq hcell
  cases parent with
  | none =>
    have hrun : replaceWith node new f = .error (.parentMissing content.kindName) f := by
      simp only [replaceWith, bind, EStateM.bind, get_apply, hcell]
      rfl
    rw [hrun]
    exact .orphan hcell rfl
  | some parent =>
    have hrun : replaceWith node new f = replace parent node new f := by
      simp only [replaceWith, bind, EStateM.bind, get_apply, hcell]
    have hanswers := replace_answers hf hnode (hnew parent hparent)
    rw [hrun]
    cases hresult : replace parent node new f with
    | ok u g =>
      rw [hresult] at hanswers
      exact .replacedInParent hparent hanswers
    | error e g =>
      rw [hresult] at hanswers
      cases hanswers with
      -- In a well-formed forest a node is listed by its parent, so this answer cannot come.
      | unlisted hunlisted => exact absurd ((hf.mem_children_iff parent node).2 hparent) hunlisted

/-- **Every call that is allowed is answered.** -/
theorem call_answers (hf : f.WellFormed) (hcall : call.IsAllowed f) :
    Answers f call (call.run f) := by
  cases call with
  | make content new => exact make_answers hf hcall.1 hcall.2
  | append parent new =>
    obtain ⟨hparent, hnew⟩ := hcall
    obtain ⟨g, hg, hmoved⟩ := append_moved hparent hf.nodup_children hnew.nodup
      (hf.adoptable hnew)
    show Answers f _ (append parent new f)
    rw [hg]
    exact .appended hmoved
  | replace parent old new => exact replace_answers hf hcall.2.1 hcall.2.2
  | replaceWith node new => exact replaceWith_answers hf hcall.1 hcall.2
  | remove node =>
    refine .removed (replaceWith_answers hf hcall ?_)
    intro parent _
    exact ⟨List.nodup_nil, nofun, nofun, nofun, nofun⟩

/-- A call that fails changes nothing, and it fails since there is nothing to replace. -/
theorem Answers.of_error {e : Error} {g : Forest} (h : Answers f call (.error e g)) :
    g = f ∧ e ≠ .childUnlisted := by
  generalize hresult : EStateM.Result.error e g = result at h
  induction h with
  | made | appended | replaced | replacedInParent => cases hresult
  | unlisted | orphan =>
    cases hresult
    exact ⟨rfl, by simp⟩
  | removed _ ih => exact ih hresult

theorem handed_nil (f : Forest) (parent : NodeId) : f.Handed parent [] :=
  ⟨List.nodup_nil, nofun, nofun, nofun, nofun⟩

theorem Answers.wellFormed_of_replace (hf : f.WellFormed) {parent old : NodeId}
    {new : List NodeId} {g : Forest} (hnew : f.Handed parent new)
    (h : Answers f (.replace parent old new) (.ok () g)) : g.WellFormed := by
  cases h with
  | @replaced _ _ _ before after _ hlisted hmoved =>
    have hnodup : (before ++ old :: after).Nodup := hlisted ▸ hf.nodup_children parent
    have hnotMem : ∀ n ∈ new, n ∉ before ++ old :: after := hlisted ▸ hnew.notMem
    refine hf.moved hnew hmoved ?_ ?_ ?_
    · grind [hnew.nodup]
    · intro c
      rw [hlisted]
      grind
    · intro c hc
      rw [hlisted, List.mem_singleton.1 hc]
      simp

theorem Answers.wellFormed (hf : f.WellFormed) (hcall : call.IsAllowed f) {g : Forest}
    (h : Answers f call (.ok () g)) : g.WellFormed := by
  cases h with
  | @made content new _ hmoved =>
    refine (hf.add content).moved (handed_add hcall.1 hcall.2 content) hmoved hcall.1 ?_ nofun
    intro c
    simp [children_size]
  -- Nodes that are handed over are not among the children yet.
  | @appended parent new _ hmoved =>
    obtain ⟨-, hnew⟩ := hcall
    refine hf.moved hnew hmoved ?_ ?_ nofun
    · refine List.nodup_append.2 ⟨hf.nodup_children parent, hnew.nodup, ?_⟩
      intro a ha b hb heq
      exact hnew.notMem b hb (heq ▸ ha)
    · intro c
      simp [or_comm]
  | replaced hlisted hmoved =>
    exact Answers.wellFormed_of_replace hf hcall.2.2 (.replaced hlisted hmoved)
  | replacedInParent hparent hreplace =>
    exact Answers.wellFormed_of_replace hf (hcall.2 _ hparent) hreplace
  | removed hreplaceWith =>
    cases hreplaceWith with
    | replacedInParent hparent hreplace =>
      exact Answers.wellFormed_of_replace hf (handed_nil f _) hreplace

/-- **A call that is allowed leaves a well-formed forest.** -/
theorem wellFormed_after (hf : f.WellFormed) (hcall : call.IsAllowed f) :
    (call.after f).WellFormed := by
  have hanswers := call_answers hf hcall
  unfold Call.after
  cases hresult : call.run f with
  | error e g =>
    rw [hresult] at hanswers
    obtain ⟨rfl, -⟩ := hanswers.of_error
    exact hf
  | ok u g =>
    rw [hresult] at hanswers
    exact hanswers.wellFormed hf hcall

/-! ## All calls -/

/-- The forest that calls leave when they are made one after the other. -/
def afterAll (f : Forest) (calls : List Call) : Forest :=
  calls.foldl (fun f call => call.after f) f

/-- Every call is allowed when its turn comes. -/
def AreAllowed (f : Forest) : List Call → Prop
  | [] => True
  | call :: calls => call.IsAllowed f ∧ AreAllowed (call.after f) calls

theorem wellFormed_afterAll {calls : List Call} (hf : f.WellFormed) (h : AreAllowed f calls) :
    (afterAll f calls).WellFormed := by
  induction calls generalizing f with
  | nil => exact hf
  | cons call calls ih => exact ih (wellFormed_after hf h.1) h.2

/-- **Edits keep a forest well-formed.** After calls that are allowed each node is listed once and
by its parent, and none is above itself. Whatever call is allowed next is answered, and if it fails
it changes nothing, and it is not for a node that its parent does not list. -/
theorem calls_keep_forest {calls : List Call} (h : AreAllowed .empty calls) :
    (afterAll .empty calls).WellFormed ∧
      ∀ call : Call, call.IsAllowed (afterAll .empty calls) →
        Answers (afterAll .empty calls) call (call.run (afterAll .empty calls)) ∧
        ∀ e g, call.run (afterAll .empty calls) = .error e g →
          g = afterAll .empty calls ∧ e ≠ .childUnlisted := by
  have hf := wellFormed_afterAll wellFormed_empty h
  refine ⟨hf, ?_⟩
  intro call hcall
  have hanswers := call_answers hf hcall
  refine ⟨hanswers, ?_⟩
  intro e g herror
  exact (herror ▸ hanswers).of_error

/-- Two declarations in a rule, a comment beside it in a style sheet, and a rule on its own that
takes the comment from there. -/
def boxCalls : List Call :=
  [.make (.declaration "a" "1") [], .make (.declaration "b" "2") [], .make (.rule "x") [0, 1],
    .make (.comment "c") [], .make .root [2, 3], .make (.rule "y") [], .append 5 [3]]

theorem areAllowed_boxCalls : AreAllowed .empty boxCalls := by
  refine ⟨⟨by decide, by decide⟩, ⟨by decide, by decide⟩, ⟨by decide, by decide +kernel⟩,
    ⟨by decide, by decide⟩, ⟨by decide, by decide +kernel⟩, ⟨by decide, by decide⟩,
    ⟨by decide +kernel, ?_⟩, trivial⟩
  exact ⟨by decide, by decide +kernel, by decide +kernel, by decide,
    fun n _ => not_under_of_parent?_eq_none (by decide +kernel) n⟩

/-- The first rule is replaced by a declaration out of it and by the second rule. -/
theorem calls_keep_forest_boxCalls : AreAllowed .empty boxCalls ∧
    (Call.replaceWith 2 [1, 5]).IsAllowed (afterAll .empty boxCalls) ∧
    ∃ g, (Call.replaceWith 2 [1, 5]).run (afterAll .empty boxCalls) = .ok () g ∧
      Moved (afterAll .empty boxCalls) g 4 [1, 5] [2] [1, 5] := by
  have hparent : (afterAll .empty boxCalls).parent? 2 = some 4 := by decide +kernel
  have hchildren : (afterAll .empty boxCalls).children 4 = [2] := by decide +kernel
  have hallowed : (Call.replaceWith 2 [1, 5]).IsAllowed (afterAll .empty boxCalls) := by
    refine ⟨by decide +kernel, ?_⟩
    intro parent h
    obtain rfl := Option.some.inj (hparent.symm.trans h)
    exact ⟨by decide, by decide +kernel, by decide +kernel, by decide,
      fun n _ => not_under_of_parent?_eq_none (by decide +kernel) n⟩
  have hanswers := ((calls_keep_forest areAllowed_boxCalls).2 _ hallowed).1
  refine ⟨areAllowed_boxCalls, hallowed, ?_⟩
  -- The rule has a parent, so the answer is that of a replacement among its children.
  generalize (Call.replaceWith 2 [1, 5]).run (afterAll .empty boxCalls) = result at hanswers ⊢
  cases hanswers with
  | orphan hcell hnone => simp [parent?, hcell, hnone] at hparent
  | replacedInParent h hreplace =>
    obtain rfl := Option.some.inj (hparent.symm.trans h)
    cases hreplace with
    | @replaced _ _ _ before after _ hlisted hmoved =>
      have hends : before = [] ∧ after = [] := by
        simpa [hchildren, List.singleton_eq_append_iff] using hlisted
      rw [hends.1, hends.2] at hmoved
      exact ⟨_, rfl, hmoved⟩

end Edit

end FluidCss
