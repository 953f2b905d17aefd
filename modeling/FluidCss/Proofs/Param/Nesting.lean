import FluidCss.Proofs.Component.Part
import FluidCss.Proofs.Param.Balance

/-!
# The symbols of a text are nested

The symbols of a text are those of trees, in which every function name and opening bracket is
followed by what it holds and then by its own closing bracket, whether or not the text has one. What
else there is in the trees are leaves, and no leaf is a bracket, since a bracket is always read as
one.

* `Component.unbracketed_ofText`: no leaf of a text is a bracket.
* `isNested_ofText`: the symbols of a text are nested.
-/

namespace FluidCss

open Param

namespace Component

/-! ## Leaves -/

mutual

/-- The leaves of a component, at every depth. -/
def leaves : Component → List Leaf
  | leaf _ l => [l]
  | fault .. => []
  | function _ _ content _ => leavesAll content
  | block _ _ content _ => leavesAll content

def leavesAll : List Component → List Leaf
  | [] => []
  | c :: cs => leaves c ++ leavesAll cs

end

/-- No leaf in any level is a bracket. -/
def AreUnbracketed (levels : Level × List Level) : Prop :=
  ∀ level ∈ levels.1 :: levels.2, ∀ l ∈ leavesAll level.content, l.Unbracketed

theorem areUnbracketed_push {c : Component} {here : Level} {outer : List Level} :
    AreUnbracketed (here.push c, outer) ↔
      (∀ l ∈ leaves c, l.Unbracketed) ∧ AreUnbracketed (here, outer) := by
  simp [AreUnbracketed, Level.push, leavesAll, or_imp, forall_and, and_assoc]

theorem areUnbracketed_cons {inside here : Level} {outer : List Level} :
    AreUnbracketed (inside, here :: outer) ↔
      (∀ l ∈ leavesAll inside.content, l.Unbracketed) ∧ AreUnbracketed (here, outer) := by
  simp [AreUnbracketed]

/-- What tokens make up has their leaves alone. -/
theorem areUnbracketed_nest (stack : List Bracket) {lexemes : List Lexeme}
    (h : ∀ lexeme ∈ lexemes, lexeme.token.Unbracketed) : AreUnbracketed (nest stack lexemes) := by
  induction lexemes generalizing stack with
  | nil => simp [AreUnbracketed, nest, Level.last, leavesAll]
  | cons lexeme lexemes ih =>
    obtain ⟨start, token⟩ := lexeme
    obtain ⟨htoken, hlexemes⟩ := List.forall_mem_cons.1 h
    have ih := fun stack => ih stack hlexemes
    -- What an opening bracket has in it is the level that the tokens behind it begin with.
    have hopened : ∀ b : Bracket, ∃ inside here outer,
        nest (b :: stack) lexemes = (inside, here :: outer) ∧
          (∀ l ∈ leavesAll inside.content, l.Unbracketed) ∧ AreUnbracketed (here, outer) := by
      intro b
      obtain ⟨inside, here, outer, hnest⟩ := Part.exists_nest_cons b stack lexemes
      have hlevels := ih (b :: stack)
      rw [hnest] at hlevels
      exact ⟨inside, here, outer, hnest, areUnbracketed_cons.1 hlevels⟩
    cases token with
    | leaf l => exact areUnbracketed_push.2 ⟨List.forall_mem_singleton.2 htoken, ih stack⟩
    -- A token that is cut off is a leaf and a fault.
    | cut l f =>
      have hrest := (areUnbracketed_push (c := fault start f)).2 ⟨List.forall_mem_nil _, ih stack⟩
      exact areUnbracketed_push.2 ⟨List.forall_mem_singleton.2 htoken, hrest⟩
    | fault f => exact areUnbracketed_push.2 ⟨List.forall_mem_nil _, ih stack⟩
    | function name =>
      obtain ⟨inside, here, outer, hnest, hlevels⟩ := hopened .round
      simp only [nest, hnest]
      exact areUnbracketed_push.2 hlevels
    | opener b =>
      obtain ⟨inside, here, outer, hnest, hlevels⟩ := hopened b
      simp only [nest, hnest]
      exact areUnbracketed_push.2 hlevels
    | closer b =>
      simp only [nest]
      split
      · exact areUnbracketed_cons.2 ⟨List.forall_mem_nil _, ih stack.tail⟩
      · exact areUnbracketed_push.2 ⟨List.forall_mem_nil _, ih stack⟩

theorem unbracketed_ofText {t : Text} {cs : List Component} (h : ofText t = .ok cs) :
    ∀ l ∈ leavesAll cs, l.Unbracketed := by
  simp only [ofText] at h
  split at h
  · cases h
  · obtain rfl := Except.ok.inj h
    exact areUnbracketed_nest [] (Scan.scan_unbracketed 0 0 t) _ List.mem_cons_self

end Component

/-! ## Symbols -/

namespace Param

open Value

theorem isPlain_ofLeaf (spaced : Bool) {l : Leaf} (h : l.Unbracketed) :
    IsPlain (Symbol.ofLeaf spaced l) := by
  cases l with
  -- Only a mark could be a bracket, and the marks of tokens are none.
  | literal text =>
    have htext : ∀ b : Bracket, text ≠ [.char b.openChar] ∧ text ≠ [.char b.closeChar] := h
    constructor
    · have hopener : (Symbol.ofLeaf spaced (.literal text)).isOpener = false := by
        rw [← Bool.not_eq_true, isOpener_iff]
        rintro ⟨-, hround | hsquare | hcurly⟩
        · exact (htext .round).1 hround
        · exact (htext .square).1 hsquare
        · exact (htext .curly).1 hcurly
      have hkind : (Symbol.ofLeaf spaced (.literal text)).kind ≠ .function := by
        simp only [Symbol.ofLeaf]
        split <;> simp
      simp [opens, hopener, hkind]
    · rw [← Bool.not_eq_true, isCloser_iff]
      rintro ⟨-, hround | hsquare | hcurly⟩
      · exact (htext .round).2 hround
      · exact (htext .square).2 hsquare
      · exact (htext .curly).2 hcurly
  | _ => exact isPlain_of_kind (by simp [Symbol.ofLeaf]) (by simp [Symbol.ofLeaf])

mutual

theorem isNested_ofComponent : ∀ {c : Component} {spaced : Bool} {ts : List Symbol},
    (∀ l ∈ c.leaves, l.Unbracketed) → Symbol.ofComponent spaced c = .ok ts → IsNested ts
  | .leaf _ l, spaced, ts, hleaves, h => by
    obtain rfl := Except.ok.inj h
    exact .plain (isPlain_ofLeaf spaced (hleaves l List.mem_cons_self)) .nil
  | .function _ name content _, spaced, ts, hleaves, h => by
    obtain ⟨inner, hinner, h⟩ := bind_eq_ok.1 h
    obtain rfl := pure_eq_ok.1 h
    exact .enclosed (closing?_of_function rfl) rfl (isNested_ofComponents hleaves hinner) .nil
  | .block _ b content _, spaced, ts, hleaves, h => by
    obtain ⟨inner, hinner, h⟩ := bind_eq_ok.1 h
    obtain rfl := pure_eq_ok.1 h
    have hclosing : (Symbol.bracket b.openChar spaced).closing? = some [.char b.closeChar] := by
      cases b <;> rfl
    exact .enclosed hclosing (by cases b <;> rfl) (isNested_ofComponents hleaves hinner) .nil

/-- **The symbols of trees are nested**, if no leaf of them is a bracket. -/
theorem isNested_ofComponents : ∀ {cs : List Component} {spaced : Bool} {ts : List Symbol},
    (∀ l ∈ Component.leavesAll cs, l.Unbracketed) → Symbol.ofComponents spaced cs = .ok ts →
      IsNested ts
  | [], spaced, ts, _, h => by
    obtain rfl := Except.ok.inj h
    exact .nil
  | c :: cs, spaced, ts, hleaves, h => by
    rw [Component.leavesAll, List.forall_mem_append] at hleaves
    unfold Symbol.ofComponents at h
    split at h
    · exact isNested_ofComponents hleaves.2 h
    split at h
    · exact isNested_ofComponents hleaves.2 h
    · obtain ⟨first, hfirst, h⟩ := bind_eq_ok.1 h
      obtain ⟨others, hothers, h⟩ := bind_eq_ok.1 h
      obtain rfl := pure_eq_ok.1 h
      exact (isNested_ofComponent hleaves.1 hfirst).append (isNested_ofComponents hleaves.2 hothers)

end

/-- **The symbols of a text are nested.** -/
theorem isNested_ofText {text : Text} {ts : List Symbol} (h : Symbol.ofText text = .ok ts) :
    IsNested ts := by
  obtain ⟨cs, hread, h⟩ := bind_eq_ok.1 h
  exact isNested_ofComponents (Component.unbracketed_ofText hread) h

end Param

end FluidCss
