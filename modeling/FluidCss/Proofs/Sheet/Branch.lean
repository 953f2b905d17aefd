import FluidCss.Sheet.Forest

/-!
# Branches of a forest

A forest keeps its nodes in cells that refer to each other by number. A branch is what one sees when
the references under a node are followed: the node with its number and the branches of its children.

* `Forest.Holds`: the cells of a forest form a branch under a parent.
* `Forest.Holds.congr`: whether they do depends on the cells of the branch alone.
* `Forest.toNode?_of_holds`: the tree that the forest shows is the branch without its numbers.
-/

namespace FluidCss

/-- A node with its number, what it is, and the branches of its children. -/
structure Branch where
  root : NodeId
  content : Content
  children : List Branch

namespace Branch

mutual

/-- The numbers of the nodes of a branch in document order. -/
def ids : Branch → List NodeId
  | ⟨root, _, children⟩ => root :: idsAll children

def idsAll : List Branch → List NodeId
  | [] => []
  | b :: bs => ids b ++ idsAll bs

end

mutual

/-- A branch without its numbers. -/
def node : Branch → Node
  | ⟨_, .declaration property value, _⟩ => .declaration property value
  | ⟨_, .comment text, _⟩ => .comment text
  | ⟨_, .rule selector, children⟩ => .rule selector (nodes children)
  | ⟨_, .atRule name params block, children⟩ => .atRule name params block (nodes children)
  | ⟨_, .root, children⟩ => .root (nodes children)

def nodes : List Branch → List Node
  | [] => []
  | b :: bs => node b :: nodes bs

end

mutual

/-- The number of nodes on the longest way down. -/
def height : Branch → Nat
  | ⟨_, _, children⟩ => heightAll children + 1

def heightAll : List Branch → Nat
  | [] => 0
  | b :: bs => max (height b) (heightAll bs)

end

@[simp] theorem idsAll_nil : idsAll [] = [] := rfl

@[simp] theorem idsAll_cons (b : Branch) (bs : List Branch) :
    idsAll (b :: bs) = b.ids ++ idsAll bs := rfl

@[simp] theorem idsAll_append (as bs : List Branch) :
    idsAll (as ++ bs) = idsAll as ++ idsAll bs := by
  induction as with
  | nil => rfl
  | cons a as ih => simp [ih]

@[simp] theorem nodes_nil : nodes [] = [] := rfl

@[simp] theorem nodes_cons (b : Branch) (bs : List Branch) : nodes (b :: bs) = b.node :: nodes bs :=
  rfl

@[simp] theorem nodes_append (as bs : List Branch) : nodes (as ++ bs) = nodes as ++ nodes bs := by
  induction as with
  | nil => rfl
  | cons a as ih => simp [ih]

theorem root_mem_ids (b : Branch) : b.root ∈ b.ids := by
  obtain ⟨root, content, children⟩ := b
  exact List.mem_cons_self

theorem root_mem_idsAll {b : Branch} {bs : List Branch} (h : b ∈ bs) : b.root ∈ idsAll bs := by
  induction bs with
  | nil => cases h
  | cons a bs ih =>
    rw [idsAll_cons, List.mem_append]
    rcases List.mem_cons.1 h with rfl | h
    · exact .inl (root_mem_ids b)
    · exact .inr (ih h)

mutual

theorem height_le_length_ids : ∀ b : Branch, b.height ≤ b.ids.length
  | ⟨_, _, children⟩ => by
    have := heightAll_le_length_idsAll children
    simp only [height, ids, List.length_cons]
    omega

theorem heightAll_le_length_idsAll : ∀ bs : List Branch, heightAll bs ≤ (idsAll bs).length
  | [] => Nat.le_refl 0
  | b :: bs => by
    have h₁ := height_le_length_ids b
    have h₂ := heightAll_le_length_idsAll bs
    simp only [heightAll, idsAll, List.length_append]
    omega

end

end Branch

namespace Forest

open Branch

mutual

/-- The cells of a forest form a branch under a parent. -/
def Holds (f : Forest) (parent : Option NodeId) : Branch → Prop
  | ⟨root, content, children⟩ =>
    f.get? root = some ⟨content, parent, children.map Branch.root⟩ ∧ HoldsAll f (some root) children

/-- The cells of a forest form several branches under one parent. -/
def HoldsAll (f : Forest) (parent : Option NodeId) : List Branch → Prop
  | [] => True
  | b :: bs => Holds f parent b ∧ HoldsAll f parent bs

end

@[simp] theorem holdsAll_nil (f : Forest) (parent : Option NodeId) : f.HoldsAll parent [] := trivial

@[simp] theorem holdsAll_cons {f : Forest} {parent : Option NodeId} {b : Branch}
    {bs : List Branch} :
    f.HoldsAll parent (b :: bs) ↔ f.Holds parent b ∧ f.HoldsAll parent bs := Iff.rfl

@[simp] theorem holdsAll_append {f : Forest} {parent : Option NodeId} {as bs : List Branch} :
    f.HoldsAll parent (as ++ bs) ↔ f.HoldsAll parent as ∧ f.HoldsAll parent bs := by
  induction as with
  | nil => simp
  | cons a as ih => simp [ih, and_assoc]

theorem holdsAll_iff {f : Forest} {parent : Option NodeId} {bs : List Branch} :
    f.HoldsAll parent bs ↔ ∀ b ∈ bs, f.Holds parent b := by
  induction bs with
  | nil => simp
  | cons b bs ih => simp [ih]

theorem Holds.get? {f : Forest} {parent : Option NodeId} {b : Branch} (h : f.Holds parent b) :
    f.get? b.root = some ⟨b.content, parent, b.children.map Branch.root⟩ := by
  obtain ⟨root, content, children⟩ := b
  exact h.1

theorem Holds.children {f : Forest} {parent : Option NodeId} {b : Branch} (h : f.Holds parent b) :
    f.HoldsAll (some b.root) b.children := by
  obtain ⟨root, content, children⟩ := b
  exact h.2

mutual

/-- **Only the cells of a branch count** for whether a forest holds it. -/
theorem Holds.congr {f g : Forest} {parent : Option NodeId} :
    ∀ {b : Branch}, f.Holds parent b → (∀ i ∈ b.ids, g.get? i = f.get? i) → g.Holds parent b
  | ⟨root, _, _⟩, h, same =>
    ⟨(same root List.mem_cons_self).trans h.1,
      HoldsAll.congr h.2 fun i hi => same i (List.mem_cons_of_mem root hi)⟩

theorem HoldsAll.congr {f g : Forest} {parent : Option NodeId} :
    ∀ {bs : List Branch}, f.HoldsAll parent bs → (∀ i ∈ idsAll bs, g.get? i = f.get? i) →
      g.HoldsAll parent bs
  | [], _, _ => trivial
  | _ :: _, h, same =>
    ⟨Holds.congr h.1 fun i hi => same i (List.mem_append_left _ hi),
      HoldsAll.congr h.2 fun i hi => same i (List.mem_append_right _ hi)⟩

end

mutual

/-- Two forests that hold a branch under the same parent have the same cells in it. -/
theorem Holds.get?_eq {f g : Forest} {parent : Option NodeId} :
    ∀ {b : Branch}, f.Holds parent b → g.Holds parent b → ∀ i ∈ b.ids, g.get? i = f.get? i
  | ⟨_, _, _⟩, hf, hg, i, hi => by
    rcases List.mem_cons.1 hi with rfl | hi
    · exact hg.1.trans hf.1.symm
    · exact HoldsAll.get?_eq hf.2 hg.2 i hi

theorem HoldsAll.get?_eq {f g : Forest} {parent : Option NodeId} :
    ∀ {bs : List Branch}, f.HoldsAll parent bs → g.HoldsAll parent bs →
      ∀ i ∈ idsAll bs, g.get? i = f.get? i
  | [], _, _, i, hi => by cases hi
  | _ :: _, hf, hg, i, hi => by
    rcases List.mem_append.1 hi with hi | hi
    · exact Holds.get?_eq hf.1 hg.1 i hi
    · exact HoldsAll.get?_eq hf.2 hg.2 i hi

end

theorem lt_size_of_get? {f : Forest} {id : NodeId} {cell : Cell} (h : f.get? id = some cell) :
    id < f.size := (Array.getElem?_eq_some_iff.1 h).1

mutual

theorem Holds.lt_size {f : Forest} {parent : Option NodeId} :
    ∀ {b : Branch}, f.Holds parent b → ∀ i ∈ b.ids, i < f.size
  | ⟨_, _, _⟩, h, i, hi => by
    rcases List.mem_cons.1 hi with rfl | hi
    · exact lt_size_of_get? h.1
    · exact HoldsAll.lt_size h.2 i hi

theorem HoldsAll.lt_size {f : Forest} {parent : Option NodeId} :
    ∀ {bs : List Branch}, f.HoldsAll parent bs → ∀ i ∈ idsAll bs, i < f.size
  | [], _, i, hi => by cases hi
  | _ :: _, h, i, hi => by
    rcases List.mem_append.1 hi with hi | hi
    · exact Holds.lt_size h.1 i hi
    · exact HoldsAll.lt_size h.2 i hi

end

mutual

/-- The tree under the node of a branch is the branch without its numbers. -/
theorem toNode?_of_holds {f : Forest} {parent : Option NodeId} :
    ∀ {b : Branch} {depth : Nat}, f.Holds parent b → b.height ≤ depth →
      f.toNode? depth b.root = some b.node
  | ⟨root, content, children⟩, 0, _, hd => by simp [height] at hd
  | ⟨root, content, children⟩, depth + 1, h, hd => by
    have hcell := h.1
    have hchildren : (children.map Branch.root).mapM (f.toNode? depth) = some (nodes children) :=
      mapM_toNode?_of_holdsAll h.2 (by simp only [height] at hd; omega)
    cases content <;> simp [toNode?, hcell, node, hchildren]

theorem mapM_toNode?_of_holdsAll {f : Forest} {parent : Option NodeId} :
    ∀ {bs : List Branch} {depth : Nat}, f.HoldsAll parent bs → heightAll bs ≤ depth →
      (bs.map Branch.root).mapM (f.toNode? depth) = some (nodes bs)
  | [], _, _, _ => rfl
  | b :: bs, depth, h, hd => by
    simp only [heightAll] at hd
    have h₁ : f.toNode? depth b.root = some b.node := toNode?_of_holds h.1 (by omega)
    have h₂ : (bs.map Branch.root).mapM (f.toNode? depth) = some (nodes bs) :=
      mapM_toNode?_of_holdsAll h.2 (by omega)
    simp [h₁, h₂, nodes]

end

end Forest

end FluidCss
