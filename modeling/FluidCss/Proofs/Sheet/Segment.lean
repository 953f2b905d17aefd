import FluidCss.Component.Basic
import FluidCss.Proofs.Sheet.Role

/-!
# The division of a block

The components of a block are divided into segments: a space or a semicolon between statements, a
comment by itself, a statement that a semicolon or the end of the block ends, and a prelude with the
block in curly brackets behind it. The division is declared here without a reader.

* `exists_division`, `IsDivision.unique`: a block has one division and no other.

A run is what a statement or a prelude can be. It is never ended by what stands in it, so that the
division goes from the first semicolon or block to the next (`divide_run`).
-/

namespace FluidCss

def Component.isCurly : Component → Bool
  | block _ .curly _ _ => true
  | _ => false

namespace Sheet

open Component

/-! ## Segments -/

/-- Components that can stand before a block or in one statement: there is no semicolon and no block
in curly brackets among them, and neither a space nor a comment comes first. -/
structure IsRun (run : List Component) : Prop where
  within : ∀ c ∈ run, isLiteral ";" c = false ∧ c.isCurly = false
  front : ∀ c ∈ run.head?, c.isBlank = false

/-- A segment of a block. -/
inductive Segment where
  | space (start : Nat)
  | comment (start : Nat) (text : Text) (closed : Bool)
  /-- A semicolon that ends nothing. -/
  | semicolon (start : Nat)
  /-- A statement with the semicolon that ends it. -/
  | ended (run : List Component) (mark : Nat)
  /-- A statement that the end of the block ends. -/
  | last (run : List Component)
  | block (prelude : List Component) (start : Nat) (content : List Component) (close : Option Nat)

namespace Segment

def components : Segment → List Component
  | space start => [.leaf start .space]
  | comment start text closed => [.leaf start (.comment text closed)]
  | semicolon start => [.leaf start (.literal ";")]
  | ended run mark => run ++ [.leaf mark (.literal ";")]
  | last run => run
  | block prelude start content close => prelude ++ [.block start .curly content close]

/-- The statement of a segment without a block. -/
def statement? : Segment → Option (List Component)
  | ended run _ | last run => some run
  | _ => none

/-- A segment that others may follow. -/
def IsInner : Segment → Prop
  | ended run _ => run ≠ [] ∧ IsRun run
  | block prelude _ _ _ => IsRun prelude
  | last _ => False
  | space _ | comment .. | semicolon _ => True

end Segment

def componentsAll (segments : List Segment) : List Component :=
  segments.flatMap Segment.components

/-- Segments divide the components of a block: only the last statement may end with the block. -/
inductive IsDivision : List Segment → List Component → Prop
  | nil : IsDivision [] []
  | last {run : List Component} (hne : run ≠ []) (hrun : IsRun run) : IsDivision [.last run] run
  | inner {segment : Segment} {segments : List Segment} {cs : List Component}
    (hsegment : segment.IsInner) (htail : IsDivision segments cs) :
    IsDivision (segment :: segments) (segment.components ++ cs)

theorem IsDivision.componentsAll_eq {segments : List Segment} {cs : List Component}
    (h : IsDivision segments cs) : componentsAll segments = cs := by
  induction h with
  | nil => rfl
  | last => simp [componentsAll, Segment.components]
  | inner _ _ ih =>
    rw [← ih]
    rfl

theorem isCurly_iff {c : Component} :
    c.isCurly = true ↔ ∃ start content close, c = .block start .curly content close := by
  cases c with
  | block start b content close => cases b <;> simp [isCurly]
  | leaf _ _ => simp [isCurly]
  | fault _ _ => simp [isCurly]
  | function _ _ _ _ => simp [isCurly]

/-! ## There is one division -/

/-- Divides what follows the statement begun before. -/
def divide (pending : List Component) : List Component → List Segment
  | [] => if pending.isEmpty then [] else [.last pending]
  | c :: cs =>
    match c, pending with
    | .leaf start .space, [] => .space start :: divide [] cs
    | .leaf start (.comment t closed), [] => .comment start t closed :: divide [] cs
    | .leaf start (.literal t), pending =>
      if t = ";" then
        (if pending.isEmpty then .semicolon start else .ended pending start) :: divide [] cs
      else divide (pending ++ [c]) cs
    | .block start .curly content close, pending =>
      .block pending start content close :: divide [] cs
    | c, pending => divide (pending ++ [c]) cs

theorem divide_more {pending : List Component} {c : Component}
    (hfront : pending = [] → c.isBlank = false)
    (hwithin : isLiteral ";" c = false ∧ c.isCurly = false)
    (cs : List Component) : divide pending (c :: cs) = divide (pending ++ [c]) cs := by
  obtain ⟨hsemicolon, hcurly⟩ := hwithin
  -- A blank that begins no statement is the one case in which the first component stands alone.
  cases c with
  | leaf start l =>
    cases l with
    | space =>
      cases pending with
      | nil => cases hfront rfl
      | cons p ps => rfl
    | comment t closed =>
      cases pending with
      | nil => cases hfront rfl
      | cons p ps => rfl
    | literal t =>
      have ht : t ≠ ";" := by simpa [isLiteral] using hsemicolon
      simp [divide, ht]
    | _ => rfl
  | block start b content close =>
    cases b with
    | curly => cases hcurly
    | _ => rfl
  | fault _ _ => rfl
  | function _ _ _ _ => rfl

theorem divide_run {pending run : List Component} (h : IsRun (pending ++ run))
    (cs : List Component) :
    divide pending (run ++ cs) = divide (pending ++ run) cs := by
  induction run generalizing pending with
  | nil => simp
  | cons c run ih =>
    have hfront : pending = [] → c.isBlank = false := by
      rintro rfl
      exact h.front c rfl
    have hwithin := h.within c (by simp)
    rw [List.cons_append, divide_more hfront hwithin, ih (by simpa using h)]
    simp

theorem IsRun.divide_eq {run : List Component} (h : IsRun run) (cs : List Component) :
    divide [] (run ++ cs) = divide run cs := @divide_run [] run h cs

/-- There is no other division. -/
theorem IsDivision.divide_eq {segments : List Segment} {cs : List Component}
    (h : IsDivision segments cs) : divide [] cs = segments := by
  induction h with
  | nil => rfl
  | @last run hne hrun =>
    have hdivide := hrun.divide_eq []
    rw [List.append_nil] at hdivide
    simp [hdivide, divide, hne]
  | @inner segment segments cs hsegment _ ih =>
    cases segment with
    | space start => simp [Segment.components, divide, ih]
    | comment start t closed => simp [Segment.components, divide, ih]
    | semicolon start => simp [Segment.components, divide, ih]
    | last run => exact absurd hsegment id
    -- A run is taken whole before the mark that ends it is looked at.
    | ended run mark =>
      obtain ⟨hne, hrun⟩ := hsegment
      rw [Segment.components, List.append_assoc, hrun.divide_eq]
      simp [divide, hne, ih]
    | block prelude start content close =>
      rw [Segment.components, List.append_assoc, IsRun.divide_eq hsegment]
      simp [divide, ih]

theorem IsRun.snoc {pending : List Component} {c : Component} (h : IsRun pending)
    (hfront : pending = [] → c.isBlank = false)
    (hwithin : isLiteral ";" c = false ∧ c.isCurly = false) : IsRun (pending ++ [c]) where
  within d hd := by
    rcases List.mem_append.1 hd with hd | hd
    · exact h.within d hd
    · rwa [List.mem_singleton.1 hd]
  front d hd := by
    cases pending with
    | nil =>
      obtain rfl := Option.some.inj hd
      exact hfront rfl
    | cons p ps => exact h.front d hd

theorem isRun_nil : IsRun [] := ⟨fun _ h => absurd h List.not_mem_nil, fun _ h => nomatch h⟩

/-- **Every block has a division.** -/
theorem exists_division (cs : List Component) :
    ∀ {pending : List Component}, IsRun pending →
    ∃ segments, IsDivision segments (pending ++ cs) := by
  -- Induction on what follows the statement begun before.
  induction cs with
  | nil =>
    intro pending hpending
    rw [List.append_nil]
    by_cases hne : pending = []
    · exact ⟨[], hne ▸ .nil⟩
    · exact ⟨[.last pending], .last hne hpending⟩
  | cons c cs ih =>
    intro pending hpending
    obtain ⟨segments, htail⟩ := ih isRun_nil
    rw [List.nil_append] at htail
    by_cases hcurly : c.isCurly = true
    · obtain ⟨start, content, close, rfl⟩ := isCurly_iff.1 hcurly
      have hinner : (Segment.block pending start content close).IsInner := hpending
      have hdivision := IsDivision.inner hinner htail
      rw [Segment.components, List.append_assoc] at hdivision
      exact ⟨_, hdivision⟩
    by_cases hsemicolon : isLiteral ";" c = true
    · obtain ⟨start, rfl⟩ := isLiteral_iff.1 hsemicolon
      by_cases hne : pending = []
      · subst hne
        have hinner : (Segment.semicolon start).IsInner := trivial
        exact ⟨_, .inner hinner htail⟩
      · have hinner : (Segment.ended pending start).IsInner := ⟨hne, hpending⟩
        have hdivision := IsDivision.inner hinner htail
        rw [Segment.components, List.append_assoc] at hdivision
        exact ⟨_, hdivision⟩
    rw [Bool.not_eq_true] at hcurly hsemicolon
    -- The component goes on with the statement, unless it is a blank with no statement before it.
    by_cases hfront : pending = [] → c.isBlank = false
    · have hmore := ih (hpending.snoc hfront ⟨hsemicolon, hcurly⟩)
      rwa [List.append_assoc] at hmore
    · obtain ⟨rfl, hblank⟩ := Classical.not_imp.1 hfront
      cases c with
      | leaf start l =>
        cases l with
        | space =>
          have hinner : (Segment.space start).IsInner := trivial
          exact ⟨_, .inner hinner htail⟩
        | comment t closed =>
          have hinner : (Segment.comment start t closed).IsInner := trivial
          exact ⟨_, .inner hinner htail⟩
        | _ => exact absurd rfl hblank
      | _ => exact absurd rfl hblank

theorem IsDivision.unique {segments others : List Segment} {cs : List Component}
    (h : IsDivision segments cs) (hothers : IsDivision others cs) : others = segments := by
  rw [← hothers.divide_eq]
  exact h.divide_eq

/-- A block with a comment, a declaration, a stray semicolon, a rule and an at-rule at its end has
this division. -/
example : divide [] (ofLexemes (Lexeme.scan 0 0 "/*c*/a:b;;.d\x7b\x7d@e")) =
    [.comment 0 "c" true,
      .ended [.leaf 5 (.ident "a"), .leaf 6 (.literal ":"), .leaf 7 (.ident "b")] 8,
      .semicolon 9, .block [.leaf 10 (.literal "."), .leaf 11 (.ident "d")] 12 [] (some 13),
      .last [.leaf 14 (.atKeyword "e")]] := rfl

/-! ## What is in a segment -/

theorem IsDivision.mem_of_mem {segments : List Segment} {cs : List Component}
    (h : IsDivision segments cs) {segment : Segment} (hsegment : segment ∈ segments)
    {c : Component} (hc : c ∈ segment.components) : c ∈ cs :=
  h.componentsAll_eq ▸ List.mem_flatMap.2 ⟨segment, hsegment, hc⟩

/-- A block in curly brackets ends a segment. -/
theorem IsDivision.exists_block {segments : List Segment} {cs : List Component}
    (h : IsDivision segments cs) {start : Nat} {content : List Component} {close : Option Nat}
    (hblock : .block start .curly content close ∈ cs) :
    ∃ prelude, .block prelude start content close ∈ segments := by
  -- No run has a curly block in it, so the block is the end of a segment.
  have hwithin : ∀ run, IsRun run → .block start .curly content close ∉ run := fun run hrun hmem =>
    absurd (hrun.within _ hmem).2 (by simp [isCurly])
  induction h with
  | nil => exact absurd hblock List.not_mem_nil
  | last _ hrun => exact absurd hblock (hwithin _ hrun)
  | @inner segment segments cs hsegment _ ih =>
    rcases List.mem_append.1 hblock with hmem | hmem
    · cases segment with
      | ended run mark =>
        have hmem : .block start .curly content close ∈ run := by
          simpa [Segment.components] using hmem
        exact absurd hmem (hwithin run hsegment.2)
      | block prelude start' content' close' =>
        rcases List.mem_append.1 hmem with hmem | hmem
        · exact absurd hmem (hwithin prelude hsegment)
        · obtain ⟨rfl, -, rfl, rfl⟩ := Component.block.inj (List.mem_singleton.1 hmem)
          exact ⟨prelude, List.mem_cons_self⟩
      | last run => exact absurd hsegment id
      | _ => simp [Segment.components] at hmem
    · obtain ⟨prelude, hmem⟩ := ih hmem
      exact ⟨prelude, List.mem_cons_of_mem _ hmem⟩

end Sheet

end FluidCss
