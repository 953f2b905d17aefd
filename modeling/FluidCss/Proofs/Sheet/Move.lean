import FluidCss.Proofs.Sheet.Edit
import FluidCss.Proofs.Sheet.WellFormed

/-!
# Nodes that move

Nodes that are handed to a container leave the containers they were in. What an edit does to a
forest is told by the parent and by the children of each node (`Forest.Moved`), without the steps in
between, in which a node has a parent already that does not list it yet.

* `Edit.append_moved`, `Edit.replace_moved`: what the edits do if they are handed nodes that the
  container neither lists nor lies in.
* `Forest.WellFormed.moved`: the forest that they give is well-formed again.

A new cycle would have to pass through the container. Its way up is the old one, though, as long as
no node that moves is on it.
-/

namespace FluidCss

namespace Forest

open Relation

variable {f g h : Forest} {parent : NodeId} {new gone listed : List NodeId}

/-! ## Single cells -/

/-- What a node is. -/
def content? (f : Forest) (id : NodeId) : Option Content := (f.get? id).map Cell.content

theorem parent?_setParent {id : NodeId} (hid : id < f.size) (p : Option NodeId) (i : NodeId) :
    (f.setParent id p).parent? i = if i = id then p else f.parent? i := by
  rw [parent?, get?_setParent]
  by_cases hi : i = id
  · subst hi
    obtain ⟨cell, hcell⟩ := exists_get?_of_lt hid
    simp [hcell]
  · simp [hi, Ne.symm hi, parent?]

@[simp] theorem children_setParent (f : Forest) (id i : NodeId) (p : Option NodeId) :
    (f.setParent id p).children i = f.children i := by
  simp only [children, get?_setParent]
  by_cases hi : id = i
  · cases f.get? i <;> simp [hi]
  · simp [hi]

@[simp] theorem content?_setParent (f : Forest) (id i : NodeId) (p : Option NodeId) :
    (f.setParent id p).content? i = f.content? i := by
  simp only [content?, get?_setParent]
  cases f.get? i <;> split <;> rfl

theorem children_setChildren {id : NodeId} (hid : id < f.size) (cs : List NodeId) (i : NodeId) :
    (f.setChildren id cs).children i = if i = id then cs else f.children i := by
  simp only [children, get?_setChildren]
  by_cases hi : i = id
  · subst hi
    obtain ⟨cell, hcell⟩ := exists_get?_of_lt hid
    simp [hcell]
  · simp [hi, Ne.symm hi]

@[simp] theorem parent?_setChildren (f : Forest) (id i : NodeId) (cs : List NodeId) :
    (f.setChildren id cs).parent? i = f.parent? i := by
  simp only [parent?, get?_setChildren]
  cases f.get? i <;> split <;> rfl

@[simp] theorem content?_setChildren (f : Forest) (id i : NodeId) (cs : List NodeId) :
    (f.setChildren id cs).content? i = f.content? i := by
  simp only [content?, get?_setChildren]
  cases f.get? i <;> split <;> rfl

theorem lt_size_of_mem_children {id i : NodeId} (hi : i ∈ f.children id) : id < f.size := by
  unfold children at hi
  cases hcell : f.get? id with
  | none => simp [hcell] at hi
  | some cell => exact lt_size_of_get? hcell

/-! ## Moves -/

/-- Between two forests the nodes `new` have come to a container, whose children are now `listed`,
and the nodes `gone` have lost their parent. Any other container has lost those of its children that
have moved, and that is all. -/
structure Moved (f g : Forest) (parent : NodeId) (new gone listed : List NodeId) : Prop where
  size_eq : g.size = f.size
  content?_eq : ∀ id, g.content? id = f.content? id
  parent?_eq : ∀ id, g.parent? id =
    if id ∈ new then some parent else if id ∈ gone then none else f.parent? id
  children_parent : g.children parent = listed
  children_eq : ∀ id, id ≠ parent → g.children id = (f.children id).filter (· ∉ new)

namespace Moved

theorem refl (f : Forest) (parent : NodeId) : Moved f f parent [] [] (f.children parent) where
  size_eq := rfl
  content?_eq _ := rfl
  parent?_eq _ := by simp
  children_parent := rfl
  children_eq _ _ := by simp

theorem trans {new' listed' : List NodeId} (hfg : Moved f g parent new [] listed)
    (hgh : Moved g h parent new' [] listed') : Moved f h parent (new ++ new') [] listed' where
  size_eq := hgh.size_eq.trans hfg.size_eq
  content?_eq id := (hgh.content?_eq id).trans (hfg.content?_eq id)
  parent?_eq id := by
    rw [hgh.parent?_eq, hfg.parent?_eq]
    by_cases hid : id ∈ new <;> by_cases hid' : id ∈ new' <;> simp [hid, hid']
  children_parent := hgh.children_parent
  children_eq id hid := by
    rw [hgh.children_eq id hid, hfg.children_eq id hid, List.filter_filter]
    refine List.filter_congr fun c _ => ?_
    simp [Bool.and_comm]

/-- The container may list its children anew. -/
theorem setChildren (hfg : Moved f g parent new [] listed) (hparent : parent < f.size)
    (cs : List NodeId) : Moved f (g.setChildren parent cs) parent new [] cs where
  size_eq := (size_setChildren ..).trans hfg.size_eq
  content?_eq id := (content?_setChildren ..).trans (hfg.content?_eq id)
  parent?_eq id := (parent?_setChildren ..).trans (hfg.parent?_eq id)
  children_parent := by rw [children_setChildren (hfg.size_eq ▸ hparent), if_pos rfl]
  children_eq id hid := by
    rw [children_setChildren (hfg.size_eq ▸ hparent), if_neg hid, hfg.children_eq id hid]

/-- A node that has not moved may lose its parent. -/
theorem detach {old : NodeId} (hfg : Moved f g parent new [] listed) (hold : old < f.size)
    (hnew : old ∉ new) : Moved f (g.setParent old none) parent new [old] listed where
  size_eq := (size_setParent ..).trans hfg.size_eq
  content?_eq id := (content?_setParent ..).trans (hfg.content?_eq id)
  parent?_eq id := by
    rw [parent?_setParent (hfg.size_eq ▸ hold), hfg.parent?_eq]
    by_cases hid : id = old
    · subst hid
      simp [hnew]
    · simp [hid]
  children_parent := (children_setParent ..).trans hfg.children_parent
  children_eq id hid := (children_setParent ..).trans (hfg.children_eq id hid)

theorem nodup_children (hfg : Moved f g parent new gone listed) (hlisted : listed.Nodup)
    (hf : ∀ id, (f.children id).Nodup) (id : NodeId) : (g.children id).Nodup := by
  by_cases hid : id = parent
  · rw [hid, hfg.children_parent]
    exact hlisted
  · rw [hfg.children_eq id hid]
    exact (hf id).filter _

end Moved

/-! ## Nodes that can be handed to a container -/

/-- A node that a container can adopt: it is listed by its parent alone, and that is another one. -/
structure Adoptable (f : Forest) (parent child : NodeId) : Prop where
  lt_size : child < f.size
  mem_children_iff : ∀ id, child ∈ f.children id ↔ f.parent? child = some id
  notMem : child ∉ f.children parent

/-- Other nodes can be adopted as before. -/
theorem Adoptable.moved {child : NodeId} (hchild : f.Adoptable parent child)
    (hfg : Moved f g parent new [] listed) (hnew : child ∉ new) (hlisted : child ∉ listed) :
    g.Adoptable parent child := by
  have hparent : g.parent? child = f.parent? child := by
    rw [hfg.parent?_eq]
    simp [hnew]
  refine ⟨hfg.size_eq ▸ hchild.lt_size, ?_, ?_⟩
  · intro id
    rw [hparent]
    by_cases hid : id = parent
    · subst hid
      rw [hfg.children_parent, ← hchild.mem_children_iff]
      exact iff_of_false hlisted hchild.notMem
    · rw [hfg.children_eq id hid, ← hchild.mem_children_iff]
      simp [hnew]
  · rw [hfg.children_parent]
    exact hlisted

/-- What may be handed to a container: nodes that there are, each once, that it does not list
already, and neither itself nor a node above it. -/
structure Handed (f : Forest) (parent : NodeId) (new : List NodeId) : Prop where
  nodup : new.Nodup
  lt_size : ∀ n ∈ new, n < f.size
  notMem : ∀ n ∈ new, n ∉ f.children parent
  ne : ∀ n ∈ new, n ≠ parent
  not_under : ∀ n ∈ new, ¬ f.Under parent n

theorem WellFormed.adoptable (hf : f.WellFormed) (hnew : f.Handed parent new) :
    ∀ n ∈ new, f.Adoptable parent n := by
  intro n hn
  exact ⟨hnew.lt_size n hn, fun id => hf.mem_children_iff id n, hnew.notMem n hn⟩

/-! ## Well-formed forests -/

namespace Moved

theorem under_parent (hfg : Moved f g parent new gone listed) (hnew : f.Handed parent new)
    {id : NodeId} (hid : g.Under parent id) : f.Under parent id := by
  -- A node that has not moved has the parent it had, if it has one.
  have hstep : ∀ a b, a ∉ new → g.IsParent a b → f.IsParent a b := by
    intro a b ha hab
    rw [IsParent, hfg.parent?_eq, if_neg ha] at hab
    split at hab
    · cases hab
    · exact hab
  induction hid with
  | single hb => exact .single (hstep _ _ (fun hmem => hnew.ne parent hmem rfl) hb)
  | tail _ hbc ih => exact ih.tail (hstep _ _ (fun hmem => hnew.not_under _ hmem ih) hbc)

/-- A way up is the one there was, or it passes through a node that has moved. -/
theorem under_cases (hfg : Moved f g parent new gone listed) {a b : NodeId} (hab : g.Under a b) :
    f.Under a b ∨ ∃ n ∈ new, ReflTransGen g.IsParent a n ∧ ReflTransGen g.IsParent parent b := by
  induction hab with
  | @single b hb =>
    by_cases ha : a ∈ new
    · have hparent : b = parent := by simpa [IsParent, hfg.parent?_eq, ha] using hb.symm
      exact .inr ⟨a, ha, .refl, hparent ▸ .refl⟩
    · rw [IsParent, hfg.parent?_eq, if_neg ha] at hb
      split at hb
      · cases hb
      · exact .inl (.single hb)
  | @tail b c hab hbc ih =>
    rcases ih with hold | ⟨n, hn, han, hb⟩
    · by_cases hmem : b ∈ new
      · have hparent : c = parent := by simpa [IsParent, hfg.parent?_eq, hmem] using hbc.symm
        exact .inr ⟨b, hmem, hab.to_reflTransGen, hparent ▸ .refl⟩
      · rw [IsParent, hfg.parent?_eq, if_neg hmem] at hbc
        split at hbc
        · cases hbc
        · exact .inl (hold.tail hbc)
    · exact .inr ⟨n, hn, han, hb.tail hbc⟩

end Moved

/-- **A forest stays well-formed when nodes move** to a container that lists them from then on,
together with its other children. -/
theorem WellFormed.moved (hf : f.WellFormed) (hnew : f.Handed parent new)
    (hfg : Moved f g parent new gone listed) (hlisted : listed.Nodup)
    (hmem : ∀ c, c ∈ listed ↔ c ∈ new ∨ c ∈ f.children parent ∧ c ∉ gone)
    (hgone : ∀ c ∈ gone, c ∈ f.children parent) : g.WellFormed where
  mem_children_iff id c := by
    have hown := hf.mem_children_iff parent c
    have hother := hf.mem_children_iff id c
    have hfree := hnew.notMem c
    rw [hfg.parent?_eq]
    by_cases hid : id = parent
    · subst hid
      rw [hfg.children_parent, hmem]
      by_cases hcnew : c ∈ new
      · simp [hcnew]
      · by_cases hcgone : c ∈ gone <;> simp [hcnew, hcgone, hown]
    · rw [hfg.children_eq id hid, List.mem_filter, hother]
      by_cases hcnew : c ∈ new
      · simp [hcnew, Ne.symm hid]
      · by_cases hcgone : c ∈ gone
        · simp [hcnew, hcgone, hown.1 (hgone c hcgone), Ne.symm hid]
        · simp [hcnew, hcgone]
  nodup_children := hfg.nodup_children hlisted hf.nodup_children
  acyclic id hid := by
    rcases hfg.under_cases hid with hold | ⟨n, hn, hidn, hparent⟩
    · exact hf.acyclic id hold
    -- A way from the container through a moved node would have the container under that node.
    · rcases reflTransGen_iff_eq_or_transGen.1 (hparent.trans hidn) with heq | hunder
      · exact hnew.ne n hn heq
      · exact hnew.not_under n hn (hfg.under_parent hnew hunder)

end Forest

/-! ## Edits -/

namespace Edit

open Forest

variable {f : Forest} {parent child old : NodeId} {new before after : List NodeId}

/-- A container adopts a node: it is the parent of the node now, though it does not list it yet. -/
theorem adopt_moved (hf : ∀ id, (f.children id).Nodup) (hchild : f.Adoptable parent child) :
    ∃ g, adopt parent child f = .ok () g ∧ Moved f g parent [child] [] (f.children parent) := by
  -- A container that is not the parent of the node does not list it.
  have hunlisted : ∀ {id}, f.parent? child ≠ some id →
      (f.children id).filter (· ∉ [child]) = f.children id := by
    intro id hid
    refine List.filter_eq_self.2 fun c hc => ?_
    have hne : c ≠ child := fun heq => hid ((hchild.mem_children_iff id).1 (heq ▸ hc))
    simpa using hne
  cases hparent : f.parent? child with
  | none =>
    refine ⟨_, adopt_eq_ok hparent, ⟨by simp, by simp, ?_, children_setParent .., ?_⟩⟩
    · intro id
      rw [parent?_setParent hchild.lt_size]
      simp
    · intro id _
      rw [children_setParent, hunlisted (by simp [hparent])]
  -- The node leaves the list of its parent first, and that is not the container itself.
  | some home =>
    have hlisted : child ∈ f.children home := (hchild.mem_children_iff home).2 hparent
    have hne : home ≠ parent := by
      intro heq
      exact hchild.notMem (heq ▸ hlisted)
    have hhome : home < f.size := lt_size_of_mem_children hlisted
    have hadopt : adopt parent child f =
        .ok () ((f.setChildren home ((f.children home).erase child)).setParent child
          (some parent)) := by
      simp only [adopt, bind, EStateM.bind, get_apply, hparent, hne, hlisted, ne_eq,
        not_false_eq_true, if_true]
      rfl
    refine ⟨_, hadopt, ⟨by simp, by simp, ?_, ?_, ?_⟩⟩
    · intro id
      rw [parent?_setParent (by simpa using hchild.lt_size)]
      simp
    · rw [children_setParent, children_setChildren hhome, if_neg hne.symm]
    · intro id _
      rw [children_setParent, children_setChildren hhome]
      by_cases hid : id = home
      · subst hid
        rw [if_pos rfl, (hf id).erase_eq_filter]
        refine List.filter_congr fun c _ => ?_
        simp [bne, beq_eq_decide]
      · rw [if_neg hid, hunlisted (by simpa [hparent] using Ne.symm hid)]

theorem adoptAll_moved (hf : ∀ id, (f.children id).Nodup) (hnew : new.Nodup)
    (hadoptable : ∀ n ∈ new, f.Adoptable parent n) :
    ∃ g, adoptAll parent new f = .ok () g ∧ Moved f g parent new [] (f.children parent) := by
  induction new generalizing f with
  | nil => exact ⟨f, rfl, .refl f parent⟩
  | cons n new ih =>
    obtain ⟨hn, hnew⟩ := List.nodup_cons.1 hnew
    obtain ⟨g, hg, hfg⟩ := adopt_moved hf (hadoptable n List.mem_cons_self)
    have hrest : ∀ m ∈ new, g.Adoptable parent m := by
      intro m hm
      have hm' := hadoptable m (List.mem_cons_of_mem n hm)
      have hne : m ≠ n := fun heq => hn (heq ▸ hm)
      exact hm'.moved hfg (by simpa using hne) hm'.notMem
    obtain ⟨h, hh, hgh⟩ := ih (hfg.nodup_children (hf parent) hf) hnew hrest
    rw [hfg.children_parent] at hgh
    exact ⟨h, (step_bind_of_ok hg).trans hh, hfg.trans hgh⟩

/-- **Nodes are put at the end of a container.** -/
theorem append_moved (hparent : parent < f.size) (hf : ∀ id, (f.children id).Nodup)
    (hnew : new.Nodup) (hadoptable : ∀ n ∈ new, f.Adoptable parent n) :
    ∃ g, append parent new f = .ok () g ∧
      Moved f g parent new [] (f.children parent ++ new) := by
  induction new generalizing f with
  | nil =>
    refine ⟨f, rfl, ?_⟩
    rw [List.append_nil]
    exact .refl f parent
  | cons n new ih =>
    obtain ⟨hn, hnew⟩ := List.nodup_cons.1 hnew
    have hfirst := hadoptable n List.mem_cons_self
    obtain ⟨g, hg, hfg⟩ := adopt_moved hf hfirst
    have hlisting := hfg.setChildren hparent (g.children parent ++ [n])
    rw [hfg.children_parent] at hlisting
    have hnodup : (f.children parent ++ [n]).Nodup :=
      List.nodup_append.2 ⟨hf parent, List.nodup_singleton n, by
        intro a ha b hb heq
        exact hfirst.notMem (List.mem_singleton.1 hb ▸ heq ▸ ha)⟩
    -- The nodes to come may still be adopted when the first is listed.
    have hrest : ∀ m ∈ new,
        (g.setChildren parent (f.children parent ++ [n])).Adoptable parent m := by
      intro m hm
      have hm' := hadoptable m (List.mem_cons_of_mem n hm)
      have hne : m ≠ n := fun heq => hn (heq ▸ hm)
      exact hm'.moved hlisting (by simpa using hne) (by simpa [hne] using hm'.notMem)
    have hsize : parent < (g.setChildren parent (f.children parent ++ [n])).size :=
      hlisting.size_eq ▸ hparent
    obtain ⟨h, hh, hgh⟩ := ih hsize (hlisting.nodup_children hnodup hf) hnew hrest
    rw [hlisting.children_parent, List.append_assoc] at hgh
    refine ⟨h, (step_bind_of_ok hg).trans ?_, hlisting.trans hgh⟩
    rw [step_bind_of_ok (modify_apply _ g), hfg.children_parent]
    exact hh

/-- **Nodes are put where a child stands**, and that child is detached. -/
theorem replace_moved (hf : ∀ id, (f.children id).Nodup) (hnew : new.Nodup)
    (hadoptable : ∀ n ∈ new, f.Adoptable parent n) (hold : old < f.size)
    (hlisted : f.children parent = before ++ old :: after) :
    ∃ g, replace parent old new f = .ok () g ∧
      Moved f g parent new [old] (before ++ new ++ after) := by
  have hmem : old ∈ f.children parent := by simp [hlisted]
  have hbefore : old ∉ before := by
    intro hb
    have hnodup := hf parent
    rw [hlisted, List.nodup_append] at hnodup
    exact hnodup.2.2 old hb old List.mem_cons_self rfl
  have holdnew : old ∉ new := fun hn => (hadoptable old hn).notMem hmem
  obtain ⟨g, hg, hfg⟩ := adoptAll_moved hf hnew hadoptable
  have hindex : index parent old f = .ok before.length f := by
    simp only [index, bind, EStateM.bind, get_apply, hlisted, idxOf?_append_cons hbefore]
    rfl
  -- Adopting moves nothing within the container, so the index of the old child still holds.
  have hspliced : (g.children parent).take before.length ++ new ++
      (g.children parent).drop (before.length + 1) = before ++ new ++ after := by
    rw [hfg.children_parent, hlisted, List.take_left, List.drop_append]
    simp
  have hmoved := (hfg.setChildren (lt_size_of_mem_children hmem) (before ++ new ++ after)).detach
    hold holdnew
  refine ⟨_, ?_, hmoved⟩
  simp only [replace, bind, EStateM.bind, hindex, hg, modify_apply, hspliced]

end Edit

end FluidCss
