import FluidCss.Proofs.Component.Part
import FluidCss.Proofs.Sheet.Fault

/-!
# Components fill their text

A component keeps where it begins, and a bracket where it is closed. Without faults this tells where
everything stands: a component begins where the one before it ends, a closing bracket stands right
behind what it closes, and what the end of the text leaves open comes last.

**Theorem (`tiles_ofText`).** The components of a text fill the text, if there is no fault in them.

While tokens are nested, some brackets are open. The innermost level is filled up to its closing
bracket, from there on the level around it is filled, and so on (`Fills`). One more token at the
front keeps this, so the proof is by induction on the tokens.
-/

namespace FluidCss.Component

/-! ## Components in a row -/

/-- Where something in brackets ends: behind its closing bracket, or with the text. -/
inductive Ends (text : Text) (b : Bracket) : Option Nat → Nat → Prop
  | closed {close : Nat} (h : text[close]? = some (.char b.closeChar)) :
    Ends text b (some close) (close + 1)
  | left : Ends text b none text.length

theorem Ends.le {text : Text} {b : Bracket} {close : Option Nat} {next : Nat}
    (h : Ends text b close next) : close.getD text.length ≤ next := by
  cases h with
  | closed _ => exact Nat.le_succ _
  | left => exact Nat.le_refl _

/-- Components lie side by side in a text, from an offset to an offset. -/
inductive Tiles (text : Text) : Nat → List Component → Nat → Prop
  | nil (start : Nat) : Tiles text start [] start
  | leaf {start stop : Nat} {t : Text} {l : Leaf} {cs : List Component} (hne : t ≠ [])
    (htext : t <+: text.drop start) (htold : (Token.leaf l).Told t)
    (htail : Tiles text (start + t.length) cs stop) : Tiles text start (.leaf start l :: cs) stop
  | function {start inside next stop : Nat} {name : Text} {content cs : List Component}
    {close : Option Nat} (hname : start < inside)
    (hcontent : Tiles text inside content (close.getD text.length))
    (hends : Ends text .round close next) (htail : Tiles text next cs stop) :
    Tiles text start (.function start name content close :: cs) stop
  | block {start next stop : Nat} {b : Bracket} {content cs : List Component} {close : Option Nat}
    (hcontent : Tiles text (start + 1) content (close.getD text.length))
    (hends : Ends text b close next) (htail : Tiles text next cs stop) :
    Tiles text start (.block start b content close :: cs) stop

namespace Tiles

variable {text : Text} {start stop : Nat} {c : Component} {cs : List Component}

theorem start_eq (h : Tiles text start (c :: cs) stop) : c.start = start := by
  cases h <;> rfl

theorem le (h : Tiles text start cs stop) : start ≤ stop := by
  induction h with
  | nil => exact Nat.le_refl _
  | leaf _ _ _ _ ih => omega
  | function _ _ hends _ _ ih =>
    have := hends.le
    omega
  | block _ hends _ _ ih =>
    have := hends.le
    omega

/-- Every component has at least one code point. -/
theorem lt (h : Tiles text start (c :: cs) stop) : start < stop := by
  cases h with
  | leaf hne _ _ htail =>
    have := List.length_pos_iff.2 hne
    have := htail.le
    omega
  | function hname hcontent hends htail =>
    have := hcontent.le
    have := hends.le
    have := htail.le
    omega
  | block hcontent hends htail =>
    have := hcontent.le
    have := hends.le
    have := htail.le
    omega

theorem of_append : ∀ {cs ds : List Component} {start : Nat}, Tiles text start (cs ++ ds) stop →
    ∃ next, Tiles text start cs next ∧ Tiles text next ds stop
  | [], _, start, h => ⟨start, .nil start, h⟩
  | c :: cs, ds, start, h => by
    rw [List.cons_append] at h
    cases h with
    | leaf hne htext htold htail =>
      obtain ⟨next, hcs, hds⟩ := of_append htail
      exact ⟨next, .leaf hne htext htold hcs, hds⟩
    | function hname hcontent hends htail =>
      obtain ⟨next, hcs, hds⟩ := of_append htail
      exact ⟨next, .function hname hcontent hends hcs, hds⟩
    | block hcontent hends htail =>
      obtain ⟨next, hcs, hds⟩ := of_append htail
      exact ⟨next, .block hcontent hends hcs, hds⟩

end Tiles

/-! ## Nested tokens -/

/-- The innermost level, and the levels around it, fill a text from an offset on: each goes up to
its closing bracket, or to the end of the text if that closes all of them. -/
inductive Fills (text : Text) : Nat → List Bracket → Level × List Level → Prop
  | last {start : Nat} {stack : List Bracket} {content : List Component}
    (h : Tiles text start content text.length) :
    Fills text start stack (⟨content, none⟩, stack.map fun _ => .last)
  | closed {start close : Nat} {b : Bracket} {stack : List Bracket} {content : List Component}
    {levels : Level × List Level} (h : Tiles text start content close)
    (hclose : text[close]? = some (.char b.closeChar))
    (hlevels : Fills text (close + 1) stack levels) :
    Fills text start (b :: stack) (⟨content, some close⟩, levels.1 :: levels.2)

namespace Fills

variable {text : Text} {start next : Nat} {stack : List Bracket} {levels : Level × List Level}

theorem push {c : Component} (h : Fills text next stack levels)
    (hc : ∀ {cs stop}, Tiles text next cs stop → Tiles text start (c :: cs) stop) :
    Fills text start stack (levels.1.push c, levels.2) := by
  cases h with
  | last h => exact .last (hc h)
  | closed h hclose hlevels => exact .closed (hc h) hclose hlevels

/-- The level of an opening bracket becomes a component of the level around it. -/
theorem enclose {b : Bracket} {inside here : Level} {outer : List Level} {c : Component}
    (h : Fills text next (b :: stack) (inside, here :: outer))
    (hc : ∀ {after cs stop}, Tiles text next inside.content (inside.close.getD text.length) →
      Ends text b inside.close after → Tiles text after cs stop → Tiles text start (c :: cs) stop) :
    Fills text start stack (here.push c, outer) := by
  cases h with
  | last h => exact .last (hc h .left (.nil _))
  | closed h hclose hlevels => exact hlevels.push fun htail => hc h (.closed hclose) htail

end Fills

/-- There is no fault in any level. -/
def AreClean (levels : Level × List Level) : Prop :=
  ∀ level ∈ levels.1 :: levels.2, faultsAll level.content = []

theorem areClean_push {c : Component} {here : Level} {outer : List Level} :
    AreClean (here.push c, outer) ↔ faults c = [] ∧ AreClean (here, outer) := by
  simp [AreClean, Level.push, faultsAll, and_assoc]

theorem areClean_cons {inside here : Level} {outer : List Level} :
    AreClean (inside, here :: outer) ↔ faultsAll inside.content = [] ∧ AreClean (here, outer) := by
  simp [AreClean]

/-- A token with its text: brackets and marks have the texts that they tell. -/
structure IsToken (p : Piece) : Prop where
  ne_nil : p.text ≠ []
  bracketed : p.token.Bracketed p.text
  told : p.token.Told p.text

/-- **Nested tokens fill the text that they were read from**, if there is no fault among them. -/
theorem fills_nest {text : Text} : ∀ {ps : List Piece} {stack : List Bracket} {before : Text},
    (∀ p ∈ ps, IsToken p) → text = before ++ Piece.textOf ps →
    AreClean (nest stack (Piece.located before.length ps)) →
    Fills text before.length stack (nest stack (Piece.located before.length ps))
  | [], stack, before, _, htext, _ => by
    have hend : before.length = text.length := by simp [htext]
    rw [hend]
    exact .last (.nil _)
  | ⟨t, token⟩ :: ps, stack, before, hps, htext, hclean => by
    -- What follows the first token fills the text from its end on, whatever it opens or closes.
    obtain ⟨hne, hbracket, htold⟩ := hps ⟨t, token⟩ List.mem_cons_self
    rw [Piece.textOf_cons] at htext
    have hlength : (before ++ t).length = before.length + t.length := List.length_append
    have ih : ∀ stack, AreClean (nest stack (Piece.located (before.length + t.length) ps)) →
        Fills text (before.length + t.length) stack
          (nest stack (Piece.located (before.length + t.length) ps)) := by
      rw [← hlength]
      exact fun stack =>
        fills_nest (fun p hp => hps p (List.mem_cons_of_mem _ hp)) (by simp [htext])
    rw [Piece.located] at hclean ⊢
    cases token with
    | leaf l =>
      obtain ⟨-, hclean⟩ := areClean_push.1 hclean
      exact (ih stack hclean).push fun htail => .leaf hne (by simp [htext]) htold htail
    | cut l f => simp [nest, AreClean, Level.push, faultsAll, faults] at hclean
    | fault f => simp [nest, AreClean, Level.push, faultsAll, faults] at hclean
    | function name =>
      obtain ⟨inside, here, outer, hnest⟩ :=
        Part.exists_nest_cons .round stack (Piece.located (before.length + t.length) ps)
      have hopen := ih (.round :: stack)
      simp only [nest, hnest] at hclean hopen ⊢
      obtain ⟨hinside, hclean⟩ := areClean_push.1 hclean
      refine (hopen (areClean_cons.2 ⟨hinside, hclean⟩)).enclose fun hcontent hends htail => ?_
      exact .function (by simpa using List.length_pos_iff.2 hne) hcontent hends htail
    | opener b =>
      obtain rfl : t = [.char b.openChar] := hbracket
      obtain ⟨inside, here, outer, hnest⟩ :=
        Part.exists_nest_cons b stack (Piece.located (before.length + 1) ps)
      have hopen := ih (b :: stack)
      simp only [nest, List.length_singleton, hnest] at hclean hopen ⊢
      obtain ⟨hinside, hclean⟩ := areClean_push.1 hclean
      exact (hopen (areClean_cons.2 ⟨hinside, hclean⟩)).enclose .block
    | closer b =>
      obtain rfl : t = [.char b.closeChar] := hbracket
      by_cases hhead : stack.head? = some b
      · obtain ⟨stack, rfl⟩ := List.head?_eq_some_iff.1 hhead
        simp only [nest, List.head?_cons, if_true, List.tail_cons,
          List.length_singleton] at hclean ⊢
        exact .closed (.nil _) (by simp [htext]) (ih stack (areClean_cons.1 hclean).2)
      · simp [nest, hhead, AreClean, Level.push, faultsAll, faults] at hclean

theorem isToken_of_spelled : ∀ {ps : List Piece} {after : Text}, Piece.Spelled ps after →
    ∀ p ∈ ps, IsToken p
  | [], _, _ => fun p hp => absurd hp List.not_mem_nil
  | _ :: ps, after, h => by
    have hbracketed := h.forall Scan.token_bracketed
    have htold := h.forall Scan.token_told
    obtain ⟨⟨c, cs, htext, -⟩, hps⟩ := h
    intro p hp
    refine ⟨?_, hbracketed p hp, htold p hp⟩
    rcases List.mem_cons.1 hp with rfl | hp
    · rw [htext]
      exact List.cons_ne_nil c cs
    · exact (isToken_of_spelled hps p hp).ne_nil

/-- **The components of a text fill the text**, if there is no fault in them. -/
theorem tiles_ofText {t : Text} {cs : List Component} (hread : ofText t = .ok cs)
    (hfaults : faultsAll cs = []) : Tiles t 0 cs t.length := by
  obtain ⟨ps, htext, hspelled⟩ := Piece.exists_spelled t
  have hscan := hspelled.scan 0
  rw [List.append_nil, htext, Lexeme.scan, List.append_nil] at hscan
  simp only [ofText, hscan] at hread
  split at hread
  · cases hread
  have hcontent : (nest [] (Piece.located 0 ps)).1.content = cs := Except.ok.inj hread
  have houter : (nest [] (Piece.located 0 ps)).2 = [] :=
    List.length_eq_zero_iff.1 (Part.length_nest [] _)
  have hclean : AreClean (nest [] (Piece.located 0 ps)) := by
    simp [AreClean, hcontent, houter, hfaults]
  have hfills : Fills t 0 [] (nest [] (Piece.located 0 ps)) :=
    @fills_nest t ps [] [] (isToken_of_spelled hspelled) htext.symm hclean
  rw [← hcontent]
  cases hnest : nest [] (Piece.located 0 ps) with
  | mk here outer =>
    rw [hnest] at hfills
    cases hfills with
    | last h => exact h

end FluidCss.Component
