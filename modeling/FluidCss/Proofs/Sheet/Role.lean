import FluidCss.Sheet.Split
import Mathlib.Data.List.TakeWhile

/-!
# What components are to a statement

Every role but one belongs to components of a single form, which it tells. Within a statement it is
the first colon that makes a declaration of it.

* `Sheet.Role.fits_of_roleOf`: the form of a component from its role.
* `Sheet.declarationOf_colon`: the declaration on both sides of a colon.
-/

namespace FluidCss.Sheet

namespace Role

/-- A component has the form that a role asks for. -/
def Fits : Role → Component → Prop
  | fault f, c => ∃ start, c = .fault start f
  | space, c => ∃ start, c = .leaf start .space
  | comment text, c => ∃ start closed, c = .leaf start (.comment text closed)
  | semicolon, c => ∃ start, c = .leaf start (.literal ";")
  | block, c => ∃ start content close, c = .block start .curly content close
  | other, _ => True

theorem fits_roleOf (c : Component) : (roleOf c).Fits c := by
  cases c with
  | leaf start l =>
    cases l with
    | space => exact ⟨start, rfl⟩
    | comment text closed => exact ⟨start, closed, rfl⟩
    | literal text =>
      by_cases htext : text = ";"
      · subst htext
        exact ⟨start, rfl⟩
      · simp only [roleOf, htext, if_false]
        trivial
    | _ => trivial
  | block start b content close =>
    cases b with
    | curly => exact ⟨start, content, close, rfl⟩
    | _ => trivial
  | fault start f => exact ⟨start, rfl⟩
  | function => trivial

/-- **The role of a component tells its form.** -/
theorem fits_of_roleOf {c : Component} {role : Role} (h : roleOf c = role) : role.Fits c :=
  h ▸ fits_roleOf c

end Role

theorem roleOf_eq_fault_iff {c : Component} {f : Fault} :
    roleOf c = .fault f ↔ ∃ start, c = .fault start f := by
  refine ⟨Role.fits_of_roleOf, ?_⟩
  rintro ⟨start, rfl⟩
  rfl

theorem roleOf_leaf_ne_block (start : Nat) (l : Leaf) : roleOf (.leaf start l) ≠ .block := by
  intro h
  obtain ⟨_, _, _, hc⟩ := Role.fits_of_roleOf h
  cases hc

theorem isLiteral_iff {t : Text} {c : Component} :
    isLiteral t c = true ↔ ∃ start, c = .leaf start (.literal t) := by
  cases c with
  | leaf start l => cases l <;> simp [isLiteral]
  | fault _ _ => simp [isLiteral]
  | function _ _ _ _ => simp [isLiteral]
  | block _ _ _ _ => simp [isLiteral]

/-! ## Colons -/

theorem exists_first {α : Type} (test : α → Bool) (row : List α) : (∀ a ∈ row, test a = false) ∨
    ∃ front a back, row = front ++ a :: back ∧ (∀ b ∈ front, test b = false) ∧ test a = true := by
  cases hfind : row.find? test with
  | none => exact .inl (by simpa using List.find?_eq_none.1 hfind)
  | some a =>
    obtain ⟨ha, front, back, rfl, hfront⟩ := List.find?_eq_some_iff_append.1 hfind
    exact .inr ⟨front, a, back, rfl, by simpa using hfront, ha⟩

section

variable {front back : List Component} {colon : Component}

theorem takeWhile_colon (hfront : ∀ c ∈ front, isLiteral ":" c = false)
    (hcolon : isLiteral ":" colon = true) :
    (front ++ colon :: back).takeWhile (fun c => !isLiteral ":" c) = front := by
  rw [List.takeWhile_append_of_pos (by simpa using hfront)]
  simp [hcolon]

theorem dropWhile_colon (hfront : ∀ c ∈ front, isLiteral ":" c = false)
    (hcolon : isLiteral ":" colon = true) :
    (front ++ colon :: back).dropWhile (fun c => !isLiteral ":" c) = colon :: back := by
  rw [List.dropWhile_append_of_pos (by simpa using hfront)]
  simp [hcolon]

/-- Behind a property a colon begins the value of a declaration. -/
theorem declarationOf_colon (text : Text) (stop : Nat)
    (hfront : ∀ c ∈ front, isLiteral ":" c = false) (hcolon : isLiteral ":" colon = true) :
    declarationOf text (front ++ colon :: back) stop =
      if sliceFrom text front colon.start = [] then
        .error (notStatement text (front ++ colon :: back) stop)
      else .ok (.declaration (sliceFrom text front colon.start) (sliceFrom text back stop)) := by
  simp only [declarationOf, takeWhile_colon hfront hcolon, dropWhile_colon hfront hcolon,
    List.isEmpty_iff]

end

theorem declarationOf_noColon {run : List Component} (text : Text) (stop : Nat)
    (h : ∀ c ∈ run, isLiteral ":" c = false) :
    declarationOf text run stop = .error (notStatement text run stop) := by
  have hdrop : run.dropWhile (fun c => !isLiteral ":" c) = [] :=
    List.dropWhile_eq_nil_iff.2 fun c hc => by simp [h c hc]
  simp only [declarationOf, hdrop]

end FluidCss.Sheet
