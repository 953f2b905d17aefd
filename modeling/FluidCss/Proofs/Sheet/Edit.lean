import FluidCss.Proofs.Result
import FluidCss.Proofs.Sheet.Branch

/-!
# What edits do to the cells of a forest

* `plantAll_fresh`: planting trees leaves the cells that are there alone and adds branches that are
  these trees.
* `replaceWith_eq_ok`: replacing a child by nodes without parents cannot fail. The new nodes stand
  in the place of the old one and belong to its parent, and the old one belongs to none. -/

namespace FluidCss

namespace Forest

open Branch

/-! ## Single cells -/

@[simp] theorem get?_update (f : Forest) (id i : NodeId) (change : Cell → Cell) :
    (f.update id change).get? i = if id = i then (f.get? i).map change else f.get? i :=
  Array.getElem?_modify

@[simp] theorem size_update (f : Forest) (id : NodeId) (change : Cell → Cell) :
    (f.update id change).size = f.size := Array.size_modify

@[simp] theorem size_setParent (f : Forest) (id : NodeId) (parent : Option NodeId) :
    (f.setParent id parent).size = f.size := size_update ..

@[simp] theorem size_setChildren (f : Forest) (id : NodeId) (children : List NodeId) :
    (f.setChildren id children).size = f.size := size_update ..

@[simp] theorem size_setContent (f : Forest) (id : NodeId) (content : Content) :
    (f.setContent id content).size = f.size := size_update ..

theorem get?_setParent (f : Forest) (id i : NodeId) (parent : Option NodeId) :
    (f.setParent id parent).get? i =
      if id = i then (f.get? i).map fun cell => { cell with parent := parent } else f.get? i :=
  get?_update ..

theorem get?_setChildren (f : Forest) (id i : NodeId) (children : List NodeId) :
    (f.setChildren id children).get? i =
      if id = i then (f.get? i).map fun cell => { cell with children := children } else f.get? i :=
  get?_update ..

theorem get?_setContent (f : Forest) (id i : NodeId) (content : Content) :
    (f.setContent id content).get? i =
      if id = i then (f.get? i).map fun cell => { cell with content := content } else f.get? i :=
  get?_update ..

theorem setContent_self {f : Forest} {id : NodeId} {cell : Cell} (h : f.get? id = some cell) :
    f.setContent id cell.content = f := by
  obtain ⟨cells⟩ := f
  have hcells : cells.modify id (fun c => { c with content := cell.content }) = cells := by
    refine Array.ext_getElem? fun i => ?_
    rw [Array.getElem?_modify]
    by_cases hi : id = i
    · have hcell : cells[i]? = some cell := hi ▸ h
      rw [if_pos hi, hcell]
      rfl
    · rw [if_neg hi]
  rw [setContent, update, hcells]

theorem get?_add_snd (f : Forest) (content : Content) (i : NodeId) :
    (f.add content).2.get? i = if i = f.size then some ⟨content, none, []⟩ else f.get? i :=
  Array.getElem?_push

theorem size_add_snd (f : Forest) (content : Content) : (f.add content).2.size = f.size + 1 :=
  Array.size_push ..

theorem get?_plantCell (f : Forest) (parent : Option NodeId) (content : Content) (i : NodeId) :
    (plant.plantCell f parent content).2.get? i =
      if i = f.size then some ⟨content, parent, []⟩ else f.get? i := by
  show ((f.add content).2.setParent f.size parent).get? i = _
  rw [get?_setParent, get?_add_snd]
  by_cases hi : i = f.size
  · simp [hi]
  · simp [hi, Ne.symm hi]

theorem size_plantCell (f : Forest) (parent : Option NodeId) (content : Content) :
    (plant.plantCell f parent content).2.size = f.size + 1 := by
  show ((f.add content).2.setParent f.size parent).size = _
  rw [size_setParent, size_add_snd]

/-! ## Planting -/

/-- A forest has the cells of another and perhaps more. -/
structure Grows (f g : Forest) : Prop where
  size_le : f.size ≤ g.size
  get?_eq : ∀ i < f.size, g.get? i = f.get? i

theorem Grows.refl (f : Forest) : Grows f f := ⟨Nat.le_refl _, fun _ _ => rfl⟩

theorem Grows.trans {f g h : Forest} (h₁ : Grows f g) (h₂ : Grows g h) : Grows f h where
  size_le := Nat.le_trans h₁.size_le h₂.size_le
  get?_eq i hi :=
    (h₂.get?_eq i (Nat.lt_of_lt_of_le hi h₁.size_le)).trans (h₁.get?_eq i hi)

theorem grows_plantCell (f : Forest) (parent : Option NodeId) (content : Content) :
    Grows f (plant.plantCell f parent content).2 where
  size_le := by rw [size_plantCell]; omega
  get?_eq i hi := by rw [get?_plantCell, if_neg (Nat.ne_of_lt hi)]

/-- Branches that are new in a forest. -/
structure Fresh (f g : Forest) (parent : Option NodeId) (bs : List Branch) : Prop where
  grows : Grows f g
  holds : g.HoldsAll parent bs
  nodup : (idsAll bs).Nodup
  size_le : ∀ i ∈ idsAll bs, f.size ≤ i

theorem fresh_plantCell (f : Forest) (parent : Option NodeId) (content : Content) :
    Fresh f (plant.plantCell f parent content).2 parent [⟨f.size, content, []⟩] where
  grows := grows_plantCell f parent content
  holds := by simp [Holds, HoldsAll, get?_plantCell]
  nodup := by simp [ids]
  size_le := by simp [ids]

theorem Fresh.append {f g h : Forest} {parent : Option NodeId} {as bs : List Branch}
    (h₁ : Fresh f g parent as) (h₂ : Fresh g h parent bs) : Fresh f h parent (as ++ bs) where
  grows := h₁.grows.trans h₂.grows
  holds := holdsAll_append.2
    ⟨h₁.holds.congr fun i hi => h₂.grows.get?_eq i (h₁.holds.lt_size i hi), h₂.holds⟩
  nodup := by
    rw [idsAll_append]
    refine List.nodup_append.2 ⟨h₁.nodup, h₂.nodup, ?_⟩
    rintro i hi j hj rfl
    exact Nat.not_lt_of_le (h₂.size_le i hj) (h₁.holds.lt_size i hi)
  size_le i hi := by
    rw [idsAll_append] at hi
    rcases List.mem_append.1 hi with hi | hi
    · exact h₁.size_le i hi
    · exact Nat.le_trans h₁.grows.size_le (h₂.size_le i hi)

theorem fresh_container {f g : Forest} {parent : Option NodeId} {content : Content}
    {bs : List Branch}
    (h : Fresh (plant.plantCell f parent content).2 g (some f.size) bs) :
    Fresh f (g.setChildren f.size (bs.map Branch.root)) parent [⟨f.size, content, bs⟩] := by
  have hlt : ∀ i ∈ idsAll bs, f.size < i := by
    intro i hi
    have := h.size_le i hi
    rw [size_plantCell] at this
    omega
  have hroot : g.get? f.size = some ⟨content, parent, []⟩ := by
    rw [h.grows.get?_eq f.size (by rw [size_plantCell]; omega), get?_plantCell, if_pos rfl]
  -- Only the cell of the container changes when it takes its children.
  have hother : ∀ i, f.size ≠ i →
      (g.setChildren f.size (bs.map Branch.root)).get? i = g.get? i := by
    intro i hi
    rw [get?_setChildren, if_neg hi]
  refine ⟨⟨?_, fun i hi => ?_⟩, ⟨⟨?_, ?_⟩, trivial⟩, ?_, ?_⟩
  · rw [size_setChildren]
    exact ((grows_plantCell f parent content).trans h.grows).size_le
  · rw [hother i (Nat.ne_of_gt hi)]
    exact ((grows_plantCell f parent content).trans h.grows).get?_eq i hi
  · rw [get?_setChildren, if_pos rfl, hroot]
    rfl
  · exact h.holds.congr fun i hi => hother i (Nat.ne_of_lt (hlt i hi))
  · simp only [idsAll_cons, ids, idsAll_nil, List.append_nil]
    exact List.nodup_cons.2 ⟨fun hmem => Nat.lt_irrefl _ (hlt _ hmem), h.nodup⟩
  · intro i hi
    simp only [idsAll_cons, ids, idsAll_nil, List.append_nil] at hi
    rcases List.mem_cons.1 hi with rfl | hi
    · exact Nat.le_refl _
    · exact Nat.le_of_lt (hlt i hi)

mutual

/-- Planting a tree adds a branch that is the tree. -/
theorem plant_fresh (f : Forest) (parent : Option NodeId) :
    ∀ node : Node, ∃ b : Branch, (f.plant parent node).1 = b.root ∧ b.node = node ∧
      Fresh f (f.plant parent node).2 parent [b]
  | .declaration property value =>
    ⟨⟨f.size, .declaration property value, []⟩, rfl, rfl, fresh_plantCell ..⟩
  | .comment text => ⟨⟨f.size, .comment text, []⟩, rfl, rfl, fresh_plantCell ..⟩
  | .rule selector children => by
    obtain ⟨bs, hids, hnodes, hfresh⟩ := plantAll_fresh
      (plant.plantCell f parent (.rule selector)).2 (some f.size) children
    refine ⟨⟨f.size, .rule selector, bs⟩, rfl, by rw [Branch.node, hnodes], ?_⟩
    have := fresh_container hfresh
    rwa [← hids] at this
  | .atRule name params block children => by
    obtain ⟨bs, hids, hnodes, hfresh⟩ := plantAll_fresh
      (plant.plantCell f parent (.atRule name params block)).2 (some f.size) children
    refine ⟨⟨f.size, .atRule name params block, bs⟩, rfl, by rw [Branch.node, hnodes], ?_⟩
    have := fresh_container hfresh
    rwa [← hids] at this
  | .root children => by
    obtain ⟨bs, hids, hnodes, hfresh⟩ := plantAll_fresh
      (plant.plantCell f parent .root).2 (some f.size) children
    refine ⟨⟨f.size, .root, bs⟩, rfl, by rw [Branch.node, hnodes], ?_⟩
    have := fresh_container hfresh
    rwa [← hids] at this

/-- **Planting trees adds branches that are the trees.** -/
theorem plantAll_fresh (f : Forest) (parent : Option NodeId) :
    ∀ trees : List Node, ∃ bs : List Branch, (f.plantAll parent trees).1 = bs.map Branch.root ∧
      nodes bs = trees ∧ Fresh f (f.plantAll parent trees).2 parent bs
  | [] => ⟨[], rfl, rfl, .refl f, trivial, List.nodup_nil, fun _ hi => absurd hi List.not_mem_nil⟩
  | node :: trees => by
    obtain ⟨b, hid, hnode, hfresh⟩ := plant_fresh f parent node
    obtain ⟨bs, hids, hnodes, hfresh'⟩ := plantAll_fresh (f.plant parent node).2 parent trees
    exact ⟨b :: bs, by simp [plantAll, hid, hids], by simp [hnode, hnodes], hfresh.append hfresh'⟩

end

end Forest

/-! ## Replacing -/

namespace Edit

open Forest

theorem adopt_eq_ok {f : Forest} {parent child : NodeId} (h : f.parent? child = none) :
    adopt parent child f = .ok () (f.setParent child (some parent)) := by
  simp only [adopt, bind, EStateM.bind, get_apply, h]
  rfl

theorem adoptAll_eq_ok (parent : NodeId) :
    ∀ {new : List NodeId} {f : Forest}, new.Nodup → (∀ n ∈ new, f.parent? n = none) →
      ∃ g, adoptAll parent new f = .ok () g ∧ g.size = f.size ∧ ∀ i, g.get? i =
        if i ∈ new then (f.get? i).map fun cell => { cell with parent := some parent }
        else f.get? i
  | [], f, _, _ => ⟨f, rfl, rfl, fun i => by simp⟩
  | n :: new, f, hn, h => by
    obtain ⟨hnotin, hnew⟩ := List.nodup_cons.1 hn
    -- The others are still without parents when the first is adopted.
    have hparent : ∀ m ∈ new, (f.setParent n (some parent)).parent? m = none := by
      intro m hm
      have hne : n ≠ m := fun he => hnotin (he ▸ hm)
      rw [parent?, get?_setParent, if_neg hne]
      exact h m (List.mem_cons_of_mem _ hm)
    obtain ⟨g, hg, hsize, hget⟩ := adoptAll_eq_ok parent hnew hparent
    refine ⟨g, ?_, by rw [hsize, size_setParent], fun i => ?_⟩
    · simp only [adoptAll, bind, EStateM.bind, adopt_eq_ok (h n List.mem_cons_self)]
      exact hg
    · rw [hget, get?_setParent]
      by_cases hi : n = i
      · subst hi
        simp [hnotin]
      · simp [hi, Ne.symm hi]

theorem idxOf?_append_cons {before : List NodeId} {node : NodeId} (h : node ∉ before)
    (after : List NodeId) : (before ++ node :: after).idxOf? node = some before.length := by
  induction before with
  | nil => simp [List.idxOf?_cons]
  | cons b before ih =>
    have hb : b ≠ node := fun he => h (he ▸ List.mem_cons_self)
    simp [List.idxOf?_cons, hb, ih fun hm => h (List.mem_cons_of_mem b hm)]

/-- **Replacing a listed child by nodes without parents does not fail**, and this is the forest that
it gives. -/
theorem replaceWith_eq_ok {f : Forest} {node parent : NodeId} {cell container : Cell}
    {before after new : List NodeId}
    (hcell : f.get? node = some cell) (hparent : cell.parent = some parent)
    (hcontainer : f.get? parent = some container)
    (hchildren : container.children = before ++ node :: after)
    (hne : node ≠ parent) (hbefore : node ∉ before) (hnew : new.Nodup) (hpnew : parent ∉ new)
    (hfree : ∀ n ∈ new, f.parent? n = none) :
    ∃ g, replaceWith node new f = .ok () g ∧ g.size = f.size ∧
      g.get? parent = some { container with children := before ++ new ++ after } ∧
      (∀ n ∈ new, g.get? n = (f.get? n).map fun c => { c with parent := some parent }) ∧
      ∀ i, i ≠ parent → i ≠ node → i ∉ new → g.get? i = f.get? i := by
  obtain ⟨g, hg, hsize, hget⟩ := adoptAll_eq_ok parent hnew hfree
  have hnodenew : node ∉ new := by
    intro hmem
    have := hfree node hmem
    simp [parent?, hcell, hparent] at this
  have hindex : index parent node f = .ok before.length f := by
    simp only [index, bind, EStateM.bind, get_apply, children, hcontainer, hchildren,
      idxOf?_append_cons hbefore]
    rfl
  have hgp : g.get? parent = some container := by rw [hget, if_neg hpnew, hcontainer]
  have hgchildren : g.children parent = before ++ node :: after := by
    simp only [children, hgp, hchildren]
  -- The new nodes stand at the index where the old one was found.
  have hspliced : (g.children parent).take before.length ++ new ++
      (g.children parent).drop (before.length + 1) = before ++ new ++ after := by
    rw [hgchildren, List.take_left, List.drop_append]
    simp
  refine ⟨(g.setChildren parent (before ++ new ++ after)).setParent node none, ?_, ?_, ?_, ?_, ?_⟩
  · obtain ⟨content, _, below⟩ := cell
    obtain rfl : _ = some parent := hparent
    simp only [replaceWith, replace, bind, EStateM.bind, get_apply, hcell, hindex, hg, modify_apply,
      hspliced]
  · rw [size_setParent, size_setChildren, hsize]
  · rw [get?_setParent, if_neg hne, get?_setChildren, if_pos rfl, hgp]
    rfl
  · intro n hn
    have hpn : parent ≠ n := fun he => hpnew (he ▸ hn)
    have hnn : node ≠ n := fun he => hnodenew (he ▸ hn)
    rw [get?_setParent, if_neg hnn, get?_setChildren, if_neg hpn, hget, if_pos hn]
  · intro i hip hin hi
    rw [get?_setParent, if_neg (Ne.symm hin), get?_setChildren, if_neg (Ne.symm hip), hget,
      if_neg hi]

end Edit

end FluidCss
