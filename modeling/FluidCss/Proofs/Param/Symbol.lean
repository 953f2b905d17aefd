import FluidCss.Param.Symbol
import FluidCss.Proofs.Component.Source
import FluidCss.Proofs.Result

/-!
# The symbols of parts

The parameters of a directive are read as components and laid out flat. Parts have no faults, and
where they stand does not show in their symbols.

* `Part.ofText_eq_symbolsAll`: the text of parts is laid out as their symbols.
* `Param.Symbol.failsOnly_ofText`: why a text has no symbols.
-/

namespace FluidCss

open Param

namespace Param.Symbol

mutual

theorem failsOnly_ofComponent : ∀ (spaced : Bool) (c : Component),
    FailsOnly (fun e => ∃ fault, e = .malformedParams fault) (ofComponent spaced c)
  | _, .leaf _ _ => .ok _
  | _, .fault _ fault => .error ⟨fault, rfl⟩
  | _, .function _ _ content _ => (failsOnly_ofComponents false content).bind fun _ _ => .ok _
  | _, .block _ _ content _ => (failsOnly_ofComponents false content).bind fun _ _ => .ok _

/-- Tokens are laid out flat unless there is a fault among them. -/
theorem failsOnly_ofComponents : ∀ (spaced : Bool) (cs : List Component),
    FailsOnly (fun e => ∃ fault, e = .malformedParams fault) (ofComponents spaced cs)
  | _, [] => .ok _
  | spaced, c :: cs => by
    unfold ofComponents
    split
    · exact failsOnly_ofComponents true cs
    split
    · exact failsOnly_ofComponents spaced cs
    · exact (failsOnly_ofComponent spaced c).bind fun _ _ =>
        (failsOnly_ofComponents false cs).bind fun _ _ => .ok _

end

/-- A text has symbols unless there is too long an integer or a fault in it. -/
theorem failsOnly_ofText (text : Text) :
    FailsOnly (fun e => (∃ digits, e = .integerTooLong digits) ∨
      ∃ fault, e = .malformedParams fault)
      (ofText text) := by
  refine FailsOnly.bind (fun e he => ?_) fun cs _ => ?_
  · obtain ⟨digits, rfl, -⟩ := Component.exists_of_ofText_error he
    exact .inl ⟨digits, rfl⟩
  · exact (failsOnly_ofComponents false cs).mono fun _ => .inr

end Param.Symbol

namespace Part

mutual

/-- The symbols of a part; `spaced` says whether a space precedes it. -/
def symbols (spaced : Bool) : Part → List Symbol
  | leaf _ l => [Symbol.ofLeaf spaced l]
  | function _ name content =>
    ⟨.function, name, spaced⟩ :: symbolsAll false content ++
      [Symbol.bracket Bracket.round.closeChar false]
  | block b content =>
    Symbol.bracket b.openChar spaced :: symbolsAll false content ++
      [Symbol.bracket b.closeChar false]

def symbolsAll (spaced : Bool) : List Part → List Symbol
  | [] => []
  | leaf _ .space :: ps => symbolsAll true ps
  | leaf _ (.comment _ _) :: ps => symbolsAll spaced ps
  | p :: ps => symbols spaced p ++ symbolsAll false ps

end

theorem symbols_block (spaced : Bool) (b : Bracket) (content : List Part) :
    symbols spaced (block b content) = Symbol.bracket b.openChar spaced ::
      (symbolsAll false content ++ [Symbol.bracket b.closeChar false]) := rfl

/-- A part that is neither a space nor a comment. -/
def IsSolid : Part → Prop
  | leaf _ l => l.isBlank = false
  | function .. | block .. => True

theorem isSolid_or (p : Part) : p.IsSolid ∨ (∃ t, p = leaf t .space) ∨
    ∃ t text closed, p = leaf t (.comment text closed) := by
  cases p with
  | leaf t l =>
    cases l with
    | space => exact .inr (.inl ⟨t, rfl⟩)
    | comment text closed => exact .inr (.inr ⟨t, text, closed, rfl⟩)
    | _ => exact .inl rfl
  | function _ _ _ => exact .inl trivial
  | block _ _ => exact .inl trivial

theorem symbolsAll_cons {p : Part} (h : p.IsSolid) (spaced : Bool) (ps : List Part) :
    symbolsAll spaced (p :: ps) = symbols spaced p ++ symbolsAll false ps := by
  cases p with
  | leaf t l =>
    cases l with
    | space => cases h
    | comment _ _ => cases h
    | _ => rfl
  | function _ _ _ => rfl
  | block _ _ => rfl

theorem IsSolid.not_isBlank {p : Part} (h : p.IsSolid) (start : Nat) :
    (p.located start).isSpace = false ∧ (p.located start).isBlank = false := by
  cases p with
  | leaf t l =>
    cases l with
    | space => cases h
    | comment _ _ => cases h
    | _ => exact ⟨rfl, rfl⟩
  | function _ _ _ => exact ⟨rfl, rfl⟩
  | block _ _ => exact ⟨rfl, rfl⟩

theorem IsSolid.isSpace_eq {p : Part} (h : p.IsSolid) : p.isSpace = false := by
  cases p with
  | leaf t l =>
    cases l with
    | space => cases h
    | _ => rfl
  | function _ _ _ => rfl
  | block _ _ => rfl

mutual

theorem ofComponent_located : ∀ (p : Part) (spaced : Bool) (start : Nat),
    Symbol.ofComponent spaced (p.located start) = .ok (p.symbols spaced)
  | leaf t l, spaced, start => rfl
  | function t name content, spaced, start => by
    have hinner := ofComponents_locatedAll content false (start + t.length)
    simp only [located, Symbol.ofComponent, hinner, bind, Except.bind, pure, Except.pure, symbols]
  | block b content, spaced, start => by
    have hinner := ofComponents_locatedAll content false (start + 1)
    simp only [located, Symbol.ofComponent, hinner, bind, Except.bind, pure, Except.pure, symbols]

/-- **Parts in a row are laid out as their symbols**, wherever they stand. -/
theorem ofComponents_locatedAll : ∀ (ps : List Part) (spaced : Bool) (start : Nat),
    Symbol.ofComponents spaced (locatedAll start ps) = .ok (symbolsAll spaced ps)
  | [], spaced, start => rfl
  | p :: ps, spaced, start => by
    have hfirst := ofComponent_located p spaced start
    have hothers := fun spaced => ofComponents_locatedAll ps spaced (start + p.text.length)
    rcases isSolid_or p with hsolid | ⟨t, rfl⟩ | ⟨t, text, closed, rfl⟩
    · obtain ⟨hspace, hblank⟩ := hsolid.not_isBlank start
      rw [symbolsAll_cons hsolid, locatedAll, Symbol.ofComponents, hspace, hblank]
      simp only [Bool.false_eq_true, if_false, hfirst, hothers, bind, Except.bind, pure,
        Except.pure]
    · exact hothers true
    · exact hothers spaced

end

/-- **The text of parts is laid out as their symbols.** -/
theorem ofText_eq_symbolsAll {ps : List Part} (hsound : Sound ps)
    (hspelled : Piece.Spelled (piecesAll ps) []) :
    Symbol.ofText (textAll ps) = .ok (symbolsAll false ps) := by
  simp only [Symbol.ofText, normalize_eq_self hsound.normal, ofText_textAll hsound.short hspelled,
    bind, Except.bind, ofComponents_locatedAll]

end Part

end FluidCss
