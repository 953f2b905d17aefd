import FluidCss.Text.Blank
import Mathlib.Data.List.DropRight

/-!
# Rows without what is at their ends

* `stripped_append`: what is taken off both ends of a row.
* `Text.trim_trim`: a text without blanks at its ends has none to lose.
* `Text.trim_append_ne`: what is not blank is not lost.
-/

namespace FluidCss

section Stripped

variable {α : Type} {test : α → Bool}

/-- A row without the elements at its two ends that pass a test. -/
def stripped (test : α → Bool) (l : List α) : List α := (l.dropWhile test).rdropWhile test

theorem exists_stripped (test : α → Bool) (l : List α) : ∃ front back,
    l = front ++ stripped test l ++ back ∧ (∀ a ∈ front, test a) ∧ ∀ a ∈ back, test a := by
  refine ⟨l.takeWhile test, (l.dropWhile test).rtakeWhile test, ?_, fun a ha =>
    List.mem_takeWhile_imp ha, fun a ha => List.mem_rtakeWhile_imp ha⟩
  rw [stripped, List.append_assoc, List.rdropWhile_append_rtakeWhile,
    List.takeWhile_append_dropWhile]

theorem stripped_sublist (test : α → Bool) (l : List α) : List.Sublist (stripped test l) l :=
  (List.rdropWhile_prefix test (l.dropWhile test)).sublist.trans (List.dropWhile_sublist _)

theorem head?_stripped {l : List α} : ∀ a ∈ (stripped test l).head?, test a = false := by
  intro a ha
  obtain ⟨back, hback⟩ := List.rdropWhile_prefix test (l.dropWhile test)
  have hhead : (l.dropWhile test).head? = some a := by
    rw [stripped, Option.mem_def] at ha
    rw [← hback, List.head?_append, ha]
    rfl
  have := List.head?_dropWhile_not test l
  rw [hhead] at this
  exact this

theorem getLast?_stripped {l : List α} : ∀ a ∈ (stripped test l).getLast?, test a = false := by
  intro a ha
  have hne : stripped test l ≠ [] := fun h => by rw [h] at ha; cases ha
  have := List.rdropWhile_last_not test (l.dropWhile test) hne
  rw [List.getLast?_eq_some_getLast hne, Option.mem_some_iff] at ha
  rw [← ha]
  exact Bool.eq_false_iff.2 this

theorem stripped_eq_self {l : List α} (hhead : ∀ a ∈ l.head?, test a = false)
    (hlast : ∀ a ∈ l.getLast?, test a = false) : stripped test l = l := by
  have hdrop : l.dropWhile test = l := by
    cases l with
    | nil => rfl
    | cons a l => simp [hhead a rfl]
  rw [stripped, hdrop, List.rdropWhile_eq_self_iff]
  intro hne
  rw [hlast _ (List.getLast?_eq_some_getLast hne)]
  decide

/-- A row that begins with an element that fails the test keeps its beginning. -/
theorem head?_stripped_eq {l : List α} (h : ∀ a ∈ l.head?, test a = false) :
    (stripped test l).head? = l.head? := by
  cases l with
  | nil => rfl
  | cons a l =>
    have ha : test a = false := h a rfl
    have hdrop : (a :: l).dropWhile test = a :: l := by simp [ha]
    obtain ⟨back, hback⟩ := List.rdropWhile_prefix test (a :: l)
    rw [stripped, hdrop]
    -- What is kept is the row without its end, and it is not empty, for the first element is kept.
    cases hrow : (a :: l).rdropWhile test with
    | nil =>
      have := List.rdropWhile_eq_nil_iff.1 hrow a List.mem_cons_self
      rw [ha] at this
      cases this
    | cons b bs =>
      rw [hrow, List.cons_append] at hback
      rw [(List.cons.inj hback).1]
      rfl

theorem stripped_append_left {front l : List α} (h : ∀ a ∈ front, test a) :
    stripped test (front ++ l) = stripped test l := by
  rw [stripped, List.dropWhile_append_of_pos h, stripped]

theorem stripped_append_right {l back : List α} (h : ∀ a ∈ back, test a) :
    stripped test (l ++ back) = stripped test l := by
  have hback : ∀ a ∈ back.reverse, test a := fun a ha => h a (List.mem_reverse.1 ha)
  rw [stripped, List.dropWhile_append, stripped]
  split
  · rename_i hempty
    rw [List.isEmpty_iff.1 hempty, List.dropWhile_eq_nil_iff.2 h]
  · rw [List.rdropWhile, List.reverse_append, List.dropWhile_append_of_pos hback, List.rdropWhile]

/-- **What is taken off both ends of a row.** -/
theorem stripped_append {front l back : List α} (hfront : ∀ a ∈ front, test a)
    (hback : ∀ a ∈ back, test a) (hhead : ∀ a ∈ l.head?, test a = false)
    (hlast : ∀ a ∈ l.getLast?, test a = false) : stripped test (front ++ l ++ back) = l := by
  rw [stripped_append_right hback, stripped_append_left hfront, stripped_eq_self hhead hlast]

end Stripped

namespace Text

theorem trim_eq_stripped (t : Text) : trim t = stripped isBlank t := rfl

theorem trim_trim (t : Text) : trim (trim t) = trim t :=
  stripped_eq_self head?_stripped getLast?_stripped

theorem trim_append_ne {t u : Text} (hne : u ≠ []) (hu : ∀ c ∈ u, isBlank c = false) :
    trim (t ++ u) ≠ trim t := by
  have hdrop : (t ++ u).dropWhile isBlank = t.dropWhile isBlank ++ u := by
    rw [List.dropWhile_append]
    split
    · rename_i hempty
      obtain ⟨c, cs, rfl⟩ := List.exists_cons_of_ne_nil hne
      rw [List.isEmpty_iff.1 hempty, List.nil_append, List.dropWhile_cons,
        if_neg (by simp [hu c List.mem_cons_self])]
    · rfl
  have hkept : trim (t ++ u) = t.dropWhile isBlank ++ u := by
    rw [trim_eq_stripped, stripped, hdrop, List.rdropWhile_eq_self_iff]
    intro h
    rw [List.getLast_append_of_ne_nil h hne, hu _ (List.getLast_mem hne)]
    exact Bool.false_ne_true
  intro heq
  -- The text that is kept is longer than all that the other could keep.
  have hle : (trim t).length ≤ (t.dropWhile isBlank).length :=
    (List.rdropWhile_prefix isBlank (t.dropWhile isBlank)).length_le
  have hpos := List.length_pos_iff.2 hne
  rw [← heq, hkept, List.length_append] at hle
  omega

theorem isBlank_head_of_trim {t : Text} (h : trim t = t) : ∀ c ∈ t.head?, isBlank c = false := by
  rw [← h, trim_eq_stripped]
  exact head?_stripped

theorem isBlank_getLast_of_trim {t : Text} (h : trim t = t) :
    ∀ c ∈ t.getLast?, isBlank c = false := by
  rw [← h, trim_eq_stripped]
  exact getLast?_stripped

end Text

end FluidCss
