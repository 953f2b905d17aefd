import FluidCss.Proofs.Sheet.Branch
import Mathlib.Data.Finset.Card
import Mathlib.Logic.Relation

/-!
# Well-formed forests

In a well-formed forest a node is listed by a container exactly when that container is its parent,
no container lists a node twice, and no node is above itself.

* `WellFormed.exists_holds`: under every node of a well-formed forest there is a branch, and the
  numbers in it are different.
* `tree_of_holds`: the forest shows the tree of such a branch.

The way up from a node never meets a node twice, so it is no longer than the forest is large. That
is what makes the descent in `WellFormed.exists_holds` end. -/

namespace FluidCss.Forest

open Branch Relation

variable {f : Forest}

def IsParent (f : Forest) (child parent : NodeId) : Prop := f.parent? child = some parent

/-- A node is on the way up from another. -/
def Under (f : Forest) : NodeId → NodeId → Prop := TransGen f.IsParent

/-- Each node is listed once, by its parent, and none is above itself. -/
structure WellFormed (f : Forest) : Prop where
  mem_children_iff : ∀ parent child, child ∈ f.children parent ↔ f.parent? child = some parent
  nodup_children : ∀ id, (f.children id).Nodup
  acyclic : ∀ id, ¬ f.Under id id

theorem isParent_rightUnique (f : Forest) : Relator.RightUnique f.IsParent := fun _ _ _ h₁ h₂ =>
  Option.some.inj (h₁.symm.trans h₂)

theorem parent?_eq {id : NodeId} {cell : Cell} (h : f.get? id = some cell) :
    f.parent? id = cell.parent := by
  simp [parent?, h]

theorem children_eq {id : NodeId} {cell : Cell} (h : f.get? id = some cell) :
    f.children id = cell.children := by
  simp [children, h]

theorem IsParent.lt_size {child parent : NodeId} (h : f.IsParent child parent) :
    child < f.size := by
  unfold IsParent parent? at h
  cases hc : f.get? child with
  | none => simp [hc] at h
  | some cell => exact lt_size_of_get? hc

theorem exists_get?_of_lt {id : NodeId} (h : id < f.size) : ∃ cell, f.get? id = some cell :=
  ⟨f.cells[id], Array.getElem?_eq_getElem h⟩

/-- If every parent was made before its children, no node is above itself. -/
theorem not_under_self_of_lt (h : ∀ child parent, f.IsParent child parent → parent < child)
    (id : NodeId) : ¬ f.Under id id := by
  have key : ∀ {a b}, f.Under a b → b < a := by
    intro a b hab
    induction hab with
    | single hab => exact h _ _ hab
    | tail _ hbc ih => exact (h _ _ hbc).trans ih
  exact fun hid => Nat.lt_irrefl id (key hid)

/-- A forest whose parents were made before their children is well-formed if its cells agree on who
belongs to whom. -/
theorem wellFormed_of_forall_lt
    (hparent : ∀ child < f.size, ∀ parent ∈ f.parent? child,
      parent < child ∧ child ∈ f.children parent)
    (hchildren : ∀ parent < f.size, ∀ child ∈ f.children parent, f.parent? child = some parent)
    (hnodup : ∀ id < f.size, (f.children id).Nodup) : f.WellFormed := by
  have hnone : ∀ {id}, ¬ id < f.size → f.children id = [] := by
    intro id hid
    have : f.get? id = none := Array.getElem?_eq_none (Nat.le_of_not_lt hid)
    rw [children, this]
  -- Numbers fall on the way up, so it cannot come back to where it began.
  refine ⟨fun parent child =>
    ⟨fun h => ?_, fun h => (hparent child (IsParent.lt_size h) parent h).2⟩,
    fun id => ?_, not_under_self_of_lt fun child parent h => (hparent child h.lt_size parent h).1⟩
  · by_cases hp : parent < f.size
    · exact hchildren parent hp child h
    · simp [hnone hp] at h
  · by_cases hid : id < f.size
    · exact hnodup id hid
    · simp [hnone hid]

namespace WellFormed

theorem eq_of_within_siblings (hf : f.WellFormed) {parent a b i : NodeId}
    (ha : f.IsParent a parent) (hb : f.IsParent b parent)
    (hia : ReflTransGen f.IsParent i a) (hib : ReflTransGen f.IsParent i b) : a = b := by
  have key : ∀ {x y}, f.IsParent x parent → f.IsParent y parent →
      ReflTransGen f.IsParent x y → x = y := by
    intro x y hx hy hxy
    rcases ReflTransGen.cases_head hxy with rfl | ⟨z, hxz, hzy⟩
    · rfl
    · obtain rfl := isParent_rightUnique f hx hxz
      exact (hf.acyclic parent (TransGen.tail' hzy hy)).elim
  rcases ReflTransGen.total_of_right_unique (isParent_rightUnique f) hia hib with h | h
  · exact key ha hb h
  · exact (key hb ha h).symm

/-- What a branch of a forest is to have: its numbers are different, and they are those of nodes
within its own. -/
def Sound (f : Forest) (parent : Option NodeId) (b : Branch) : Prop :=
  f.Holds parent b ∧ b.ids.Nodup ∧ ∀ i ∈ b.ids, ReflTransGen f.IsParent i b.root

theorem exists_holdsAll (hf : f.WellFormed) {parent : NodeId} :
    ∀ {ids : List NodeId}, ids.Nodup → (∀ c ∈ ids, f.IsParent c parent) →
      (∀ c ∈ ids, ∃ b, b.root = c ∧ Sound f (some parent) b) →
      ∃ bs, bs.map Branch.root = ids ∧ f.HoldsAll (some parent) bs ∧ (idsAll bs).Nodup ∧
        ∀ i ∈ idsAll bs, ∃ c ∈ ids, ReflTransGen f.IsParent i c
  | [], _, _, _ => ⟨[], rfl, trivial, List.nodup_nil, fun i hi => absurd hi List.not_mem_nil⟩
  | c :: cs, hn, hp, hb => by
    obtain ⟨b, rfl, hholds, hnodup, hwithin⟩ := hb c List.mem_cons_self
    obtain ⟨hc, hcs⟩ := List.nodup_cons.1 hn
    obtain ⟨bs, rfl, hholds', hnodup', hwithin'⟩ := exists_holdsAll hf hcs
      (fun x hx => hp x (List.mem_cons_of_mem _ hx)) fun x hx => hb x (List.mem_cons_of_mem _ hx)
    refine ⟨b :: bs, rfl, ⟨hholds, hholds'⟩, List.nodup_append.2 ⟨hnodup, hnodup', ?_⟩, ?_⟩
    -- A node within two siblings would have both on its way up, and then they are the same.
    · rintro i hi j hj rfl
      obtain ⟨x, hx, hix⟩ := hwithin' i hj
      have := hf.eq_of_within_siblings (hp b.root List.mem_cons_self)
        (hp x (List.mem_cons_of_mem _ hx)) (hwithin i hi) hix
      exact hc (this ▸ hx)
    · intro i hi
      rcases List.mem_append.1 hi with hi | hi
      · exact ⟨b.root, List.mem_cons_self, hwithin i hi⟩
      · obtain ⟨x, hx, hix⟩ := hwithin' i hi
        exact ⟨x, List.mem_cons_of_mem _ hx, hix⟩

/-- The descent: `above` are nodes above the node at hand, and when there are as many of them as the
forest has nodes, the node would be one of them. -/
theorem exists_sound (hf : f.WellFormed) :
    ∀ (steps : Nat) (above : Finset NodeId) {id : NodeId}, id < f.size →
      (∀ a ∈ above, a < f.size ∧ f.Under id a) → f.size ≤ above.card + steps →
      ∃ b, b.root = id ∧ Sound f (f.parent? id) b
  | 0, above, id, hid, habove, hsize => by
    have hsub : above ⊆ Finset.range f.size := fun a ha => Finset.mem_range.2 (habove a ha).1
    have heq := Finset.eq_of_subset_of_card_le hsub (by simpa using hsize)
    have hmem : id ∈ above := heq ▸ Finset.mem_range.2 hid
    exact (hf.acyclic id (habove id hmem).2).elim
  | steps + 1, above, id, hid, habove, hsize => by
    have hnew : id ∉ above := fun h => hf.acyclic id (habove id h).2
    have hchild : ∀ c ∈ f.children id, f.IsParent c id := fun c hc =>
      (hf.mem_children_iff id c).1 hc
    have hbelow : ∀ c ∈ f.children id, ∃ b, b.root = c ∧ Sound f (some id) b := by
      intro c hc
      have hci := hchild c hc
      obtain ⟨b, hb, hs⟩ := hf.exists_sound steps (insert id above) hci.lt_size
        (fun a ha => by
          rcases Finset.mem_insert.1 ha with rfl | ha
          · exact ⟨hid, TransGen.single hci⟩
          · exact ⟨(habove a ha).1, TransGen.head hci (habove a ha).2⟩)
        (by rw [Finset.card_insert_of_notMem hnew]; omega)
      exact ⟨b, hb, hci ▸ hs⟩
    obtain ⟨bs, hbs, hholds, hnodup, hwithin⟩ :=
      hf.exists_holdsAll (hf.nodup_children id) hchild hbelow
    obtain ⟨cell, hcell⟩ := exists_get?_of_lt hid
    refine ⟨⟨id, cell.content, bs⟩, rfl, ⟨?_, hholds⟩, List.nodup_cons.2 ⟨?_, hnodup⟩, ?_⟩
    · rw [hcell, parent?_eq hcell, hbs, children_eq hcell]
    -- The node is not among those below it, for that would be a way up to itself.
    · intro hmem
      obtain ⟨c, hc, hic⟩ := hwithin id hmem
      exact hf.acyclic id (TransGen.tail' hic (hchild c hc))
    · intro i hi
      rcases List.mem_cons.1 hi with rfl | hi
      · exact .refl
      · obtain ⟨c, hc, hic⟩ := hwithin i hi
        exact hic.tail (hchild c hc)

/-- **Under every node there is a branch**, whose nodes are those within it, each once. -/
theorem exists_holds (hf : f.WellFormed) {id : NodeId} (hid : id < f.size) :
    ∃ b, b.root = id ∧ Sound f (f.parent? id) b :=
  hf.exists_sound f.size ∅ hid (fun a ha => absurd ha (Finset.notMem_empty a)) (by simp)

end WellFormed

/-- Numbers that are different and belong to nodes are no more than there are nodes. -/
theorem length_le_size {ids : List NodeId} (hn : ids.Nodup) (h : ∀ i ∈ ids, i < f.size) :
    ids.length ≤ f.size := by
  have hsub : ids.toFinset ⊆ Finset.range f.size := fun i hi =>
    Finset.mem_range.2 (h i (List.mem_toFinset.1 hi))
  have := Finset.card_le_card hsub
  rwa [List.toFinset_card_of_nodup hn, Finset.card_range] at this

theorem height_le_size {parent : Option NodeId} {b : Branch} (h : f.Holds parent b)
    (hn : b.ids.Nodup) : b.height ≤ f.size :=
  (height_le_length_ids b).trans (length_le_size hn h.lt_size)

theorem tree_of_holds {parent : Option NodeId} {b : Branch} (h : f.Holds parent b)
    (hn : b.ids.Nodup) : f.tree b.root = .ok b.node := by
  rw [tree, toNode?_of_holds h (height_le_size h hn)]

end FluidCss.Forest
