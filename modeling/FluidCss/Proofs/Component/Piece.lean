import FluidCss.Component.Basic
import FluidCss.Proofs.Component.Length

/-!
# Texts as rows of tokens

A token with the text that it was read from is a piece. A text is a row of pieces, each of which is
read off its own text and what follows it.

* `exists_spelled`: every text is a row of pieces.
* `Spelled.scan`: a row of pieces is scanned to their tokens.
-/

namespace FluidCss

structure Piece where
  text : Text
  token : Token

namespace Piece

def textOf (ps : List Piece) : Text := ps.flatMap Piece.text

@[simp] theorem textOf_nil : textOf [] = [] := rfl

@[simp] theorem textOf_cons (p : Piece) (ps : List Piece) :
    textOf (p :: ps) = p.text ++ textOf ps := List.flatMap_cons

@[simp] theorem textOf_append (ps qs : List Piece) : textOf (ps ++ qs) = textOf ps ++ textOf qs :=
  List.flatMap_append

/-- The token is what is read where the piece stands before the text `after`. -/
def ReadsIn (p : Piece) (after : Text) : Prop :=
  ∃ c cs, p.text = c :: cs ∧ Scan.token c (cs ++ after) = (p.token, p.text.length)

/-- Every piece of a row that stands before the text `after` is what is read there. -/
def Spelled : List Piece → Text → Prop
  | [], _ => True
  | p :: ps, after => p.ReadsIn (textOf ps ++ after) ∧ Spelled ps after

@[simp] theorem spelled_nil (after : Text) : Spelled [] after := trivial

@[simp] theorem spelled_cons {p : Piece} {ps : List Piece} {after : Text} :
    Spelled (p :: ps) after ↔ p.ReadsIn (textOf ps ++ after) ∧ Spelled ps after := Iff.rfl

theorem spelled_append {ps qs : List Piece} {after : Text} :
    Spelled (ps ++ qs) after ↔ Spelled ps (textOf qs ++ after) ∧ Spelled qs after := by
  induction ps with
  | nil => simp
  | cons p ps ih => simp [ih, and_assoc]

/-- The lexemes of pieces from an offset on. -/
def located (start : Nat) : List Piece → List Lexeme
  | [] => []
  | p :: ps => ⟨start, p.token⟩ :: located (start + p.text.length) ps

/-- **A row of pieces is scanned to their tokens.** -/
theorem Spelled.scan {ps : List Piece} {after : Text} (h : Spelled ps after) (start : Nat) :
    Lexeme.scan start 0 (textOf ps ++ after) =
      located start ps ++ Lexeme.scan (start + (textOf ps).length) 0 after := by
  induction ps generalizing start with
  | nil => simp [located]
  | cons p ps ih =>
    obtain ⟨⟨c, cs, htext, htoken⟩, hps⟩ := h
    have hlength : p.text.length = cs.length + 1 := by rw [htext]; rfl
    have hstart : start + 1 + min cs.length (cs ++ (textOf ps ++ after)).length =
        start + p.text.length := by
      rw [hlength, List.length_append, Nat.min_eq_left (Nat.le_add_right _ _)]
      omega
    have hend : start + p.text.length + (textOf ps).length =
        start + (textOf (p :: ps)).length := by
      rw [textOf_cons, List.length_append, Nat.add_assoc]
    have htail : Lexeme.scan (start + 1) cs.length (cs ++ (textOf ps ++ after)) =
        located (start + p.text.length) ps ++
          Lexeme.scan (start + (textOf (p :: ps)).length) 0 after := by
      rw [Lexeme.scan_skip, hstart, List.drop_left, ih hps, hend]
    have hcons : textOf (p :: ps) ++ after = c :: (cs ++ (textOf ps ++ after)) := by
      simp [htext]
    rw [hcons]
    simp only [Lexeme.scan, htoken, hlength, Nat.add_sub_cancel, located, List.cons_append]
    rw [htail, hlength]

/-- What tokens tell of their texts holds of every piece of a row. -/
theorem Spelled.forall {tells : Token → Text → Prop}
    (htells : ∀ c s, tells (Scan.token c s).1 ((c :: s).take (Scan.token c s).2)) {ps : List Piece}
    {after : Text} (h : Spelled ps after) : ∀ p ∈ ps, tells p.token p.text := by
  induction ps with
  | nil => exact fun p hp => absurd hp List.not_mem_nil
  | cons p ps ih =>
    obtain ⟨⟨c, cs, htext, htoken⟩, hps⟩ := h
    intro q hq
    rcases List.mem_cons.1 hq with rfl | hq
    · have htold := htells c (cs ++ (textOf ps ++ after))
      rwa [htoken, ← List.cons_append, ← htext, List.take_left] at htold
    · exact ih hps q hq

/-- **Every text is a row of pieces.** -/
theorem exists_spelled (t : Text) : ∃ ps, textOf ps = t ∧ Spelled ps [] := by
  induction hn : t.length using Nat.strongRecOn generalizing t with
  | ind n ih =>
    cases t with
    | nil => exact ⟨[], rfl, trivial⟩
    | cons c cs =>
      -- A token takes at least one code point, so what is left is shorter.
      obtain ⟨hpos, hle⟩ := Scan.token_length c cs
      obtain ⟨k, hk⟩ : ∃ k, (Scan.token c cs).2 = k + 1 :=
        Nat.exists_eq_succ_of_ne_zero (Nat.ne_of_gt hpos)
      rw [hk] at hle
      have hlength : (cs.drop k).length < n := by
        rw [← hn, List.length_drop, List.length_cons]
        omega
      obtain ⟨ps, htext, hps⟩ := ih _ hlength (cs.drop k) rfl
      refine ⟨⟨c :: cs.take k, (Scan.token c cs).1⟩ :: ps, ?_, ⟨⟨c, cs.take k, rfl, ?_⟩, hps⟩⟩
      · simp [htext]
      · have htake : (c :: cs.take k).length = k + 1 := by
          rw [List.length_cons, List.length_take]
          omega
        rw [htext, List.append_nil, List.take_append_drop, htake, ← hk]

end Piece

end FluidCss
