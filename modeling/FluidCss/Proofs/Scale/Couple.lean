import FluidCss.Proofs.Scale.Label
import Mathlib.Data.List.Perm.Basic
import Mathlib.Data.Nat.Choose.Basic

/-!
# Every two elements of a list

The couples of a list are taken in the order of their places. Which couples there are depends only
on the elements, but for which of two comes first.

* `mem_couples_range` and `pairwise_couples_range`: the couples of places, each once and in order.
* `perm_map_couples`: lists with the same elements have the same couples.
-/

namespace FluidCss.Scale

variable {α β : Type}

theorem length_couples (as : List α) : (couples as).length = as.length * (as.length - 1) / 2 := by
  rw [← Nat.choose_two_right]
  induction as with
  | nil => rfl
  | cons a as ih =>
    rw [couples, List.length_append, List.length_map, List.length_cons, ih,
      Nat.choose_succ_succ' as.length 1, Nat.choose_one_right]

theorem forall₂_couples {R : α → β → Prop} {as : List α} {bs : List β}
    (h : List.Forall₂ R as bs) :
    List.Forall₂ (fun c d => R c.1 d.1 ∧ R c.2 d.2) (couples as) (couples bs) := by
  induction h with
  | nil => exact .nil
  | cons hab hrest ih =>
    refine List.rel_append ?_ ih
    exact List.rel_map (fun _ _ h => ⟨hab, h⟩) hrest

/-! ## Places -/

theorem forall₂_getElem? (as : List α) :
    List.Forall₂ (fun i a => as[i]? = some a) (List.range as.length) as := by
  refine List.forall₂_iff_get.2 ⟨List.length_range, fun i _ hi => ?_⟩
  rw [List.get_eq_getElem, List.get_eq_getElem, List.getElem_range, List.getElem?_eq_getElem hi]

/-- What the couples of a list are mapped to stands in the order of the places of the couples. -/
theorem forall₂_places (f : α × α → β) (as : List α) :
    List.Forall₂ (fun place b => ∃ c d, as[place.1]? = some c ∧ as[place.2]? = some d ∧
      f (c, d) = b) (couples (List.range as.length)) ((couples as).map f) := by
  refine List.forall₂_map_right_iff.2 ((forall₂_couples (forall₂_getElem? as)).imp ?_)
  rintro place ⟨c, d⟩ ⟨hc, hd⟩
  exact ⟨c, d, hc, hd, rfl⟩

theorem mem_couples_of_pairwise {is : List Nat} (h : is.Pairwise (· < ·)) {i j : Nat} :
    (i, j) ∈ couples is ↔ i ∈ is ∧ j ∈ is ∧ i < j := by
  induction is with
  | nil => simp [couples]
  | cons k is ih =>
    -- The couples of the first element come first, and it is below all others.
    obtain ⟨hk, his⟩ := List.pairwise_cons.1 h
    simp only [couples, List.mem_append, List.mem_map, Prod.mk.injEq, ih his, List.mem_cons]
    constructor
    · rintro (⟨_, hj, rfl, rfl⟩ | ⟨hi, hj, hlt⟩)
      · exact ⟨.inl rfl, .inr hj, hk _ hj⟩
      · exact ⟨.inr hi, .inr hj, hlt⟩
    · rintro ⟨rfl | hi, rfl | hj, hlt⟩
      · exact absurd hlt (lt_irrefl _)
      · exact .inl ⟨j, hj, rfl, rfl⟩
      · exact absurd hlt (hk i hi).asymm
      · exact .inr ⟨hi, hj, hlt⟩

theorem pairwise_couples {is : List Nat} (h : is.Pairwise (· < ·)) :
    (couples is).Pairwise (Prod.Lex (· < ·) (· < ·)) := by
  induction is with
  | nil => exact .nil
  | cons k is ih =>
    obtain ⟨hk, his⟩ := List.pairwise_cons.1 h
    rw [couples, List.pairwise_append, List.pairwise_map]
    refine ⟨his.imp fun hlt => .right k hlt, ih his, ?_⟩
    intro c hc d hd
    obtain ⟨j, -, rfl⟩ := List.mem_map.1 hc
    exact .left _ _ (hk d.1 (mem_couples hd).1)

theorem mem_couples_range {n i j : Nat} : (i, j) ∈ couples (List.range n) ↔ i < j ∧ j < n := by
  rw [mem_couples_of_pairwise List.pairwise_lt_range, List.mem_range, List.mem_range]
  constructor
  · rintro ⟨-, hj, hlt⟩
    exact ⟨hlt, hj⟩
  · rintro ⟨hlt, hj⟩
    exact ⟨hlt.trans hj, hj, hlt⟩

theorem pairwise_couples_range (n : Nat) :
    (couples (List.range n)).Pairwise (Prod.Lex (· < ·) (· < ·)) :=
  pairwise_couples List.pairwise_lt_range

/-! ## Other orders -/

/-- What does not depend on which of two elements comes first is found on the couples of a list in
any order. -/
theorem perm_map_couples {f : α × α → β} {as bs : List α} (h : as.Perm bs)
    (hf : as.Pairwise fun a b => f (a, b) = f (b, a)) :
    ((couples as).map f).Perm ((couples bs).map f) := by
  induction h with
  | nil => exact .nil
  | cons a h ih =>
    simp only [couples, List.map_append, List.map_map]
    exact (h.map _).append (ih hf.of_cons)
  | swap b a as =>
    -- The couple of the first two is turned, and their couples with the rest change places.
    have hab : f (a, b) = f (b, a) := List.rel_of_pairwise_cons hf List.mem_cons_self
    simp only [couples, List.map_append, List.map_map, List.map_cons, List.cons_append, hab]
    refine .cons _ ?_
    rw [← List.append_assoc, ← List.append_assoc]
    exact List.perm_append_comm.append_right _
  | trans hfirst _ ihfirst ihsecond =>
    have hsymm : ∀ {a b}, f (a, b) = f (b, a) → f (b, a) = f (a, b) := Eq.symm
    exact (ihfirst hf).trans (ihsecond ((hfirst.pairwise_iff hsymm).1 hf))

end FluidCss.Scale
