import FluidCss.Proofs.Component.Shape

/-!
# Component values with their texts

A component value keeps where it begins but not what it was read from. A part is a component value
with the texts of its tokens and without offsets; it has no fault, and its brackets are closed.

* `Part.nest_piecesAll`: the tokens of parts in a row are nested to the parts.
* `Part.exists_parts`: components that are whole are parts at their places.
-/

namespace FluidCss

/-! ## Whole components -/

mutual

/-- A component without faults, in which all comments and brackets are closed. -/
def Component.isWhole : Component → Bool
  | .leaf _ (.comment _ closed) => closed
  | .leaf _ _ => true
  | .fault _ _ => false
  | .function _ _ content close => close.isSome && Component.areWhole content
  | .block _ _ content close => close.isSome && Component.areWhole content

/-- Components without faults, in which all comments and brackets are closed. -/
def Component.areWhole : List Component → Bool
  | [] => true
  | c :: cs => Component.isWhole c && Component.areWhole cs

end

namespace Component

@[simp] theorem areWhole_nil : areWhole [] = true := rfl

@[simp] theorem areWhole_cons (c : Component) (cs : List Component) :
    areWhole (c :: cs) = (c.isWhole && areWhole cs) := rfl

@[simp] theorem isWhole_fault (start : Nat) (f : Fault) : (fault start f).isWhole = false := rfl

theorem isWhole_function {start : Nat} {name : Text} {content : List Component}
    {close : Option Nat} :
    (function start name content close).isWhole ↔ close.isSome ∧ areWhole content := by
  simp [isWhole]

theorem isWhole_block {start : Nat} {b : Bracket} {content : List Component} {close : Option Nat} :
    (block start b content close).isWhole ↔ close.isSome ∧ areWhole content := by
  simp [isWhole]

end Component

/-! ## Parts -/

/-- A component value with the texts of its tokens. -/
inductive Part where
  | leaf (text : Text) (leaf : Leaf)
  | function (text : Text) (name : Text) (content : List Part)
  | block (bracket : Bracket) (content : List Part)

namespace Part

def opening (b : Bracket) : Piece := ⟨[.char b.openChar], .opener b⟩

def closing (b : Bracket) : Piece := ⟨[.char b.closeChar], .closer b⟩

mutual

def pieces : Part → List Piece
  | leaf text l => [⟨text, .leaf l⟩]
  | function text name content =>
    ⟨text, .function name⟩ :: (piecesAll content ++ [closing .round])
  | block b content => opening b :: (piecesAll content ++ [closing b])

def piecesAll : List Part → List Piece
  | [] => []
  | p :: ps => pieces p ++ piecesAll ps

end

def text (p : Part) : Text := Piece.textOf p.pieces

def textAll (ps : List Part) : Text := Piece.textOf (piecesAll ps)

mutual

/-- The component that a part is at an offset. -/
def located (start : Nat) : Part → Component
  | leaf _ l => .leaf start l
  | function text name content =>
    let inside := start + text.length
    .function start name (locatedAll inside content) (some (inside + (textAll content).length))
  | block b content =>
    .block start b (locatedAll (start + 1) content) (some (start + 1 + (textAll content).length))

/-- The components that parts in a row are from an offset on. -/
def locatedAll (start : Nat) : List Part → List Component
  | [] => []
  | p :: ps => located start p :: locatedAll (start + p.text.length) ps

end

@[simp] theorem piecesAll_nil : piecesAll [] = [] := rfl

@[simp] theorem piecesAll_cons (p : Part) (ps : List Part) :
    piecesAll (p :: ps) = p.pieces ++ piecesAll ps := rfl

@[simp] theorem piecesAll_append (ps qs : List Part) :
    piecesAll (ps ++ qs) = piecesAll ps ++ piecesAll qs := by
  induction ps with
  | nil => rfl
  | cons p ps ih => simp [ih]

@[simp] theorem textAll_nil : textAll [] = [] := rfl

@[simp] theorem textAll_cons (p : Part) (ps : List Part) :
    textAll (p :: ps) = p.text ++ textAll ps :=
  by simp [textAll, text]

@[simp] theorem textAll_append (ps qs : List Part) :
    textAll (ps ++ qs) = textAll ps ++ textAll qs := by
  simp [textAll]

@[simp] theorem text_leaf (t : Text) (l : Leaf) : (leaf t l).text = t := by
  simp [text, pieces]

theorem text_function (t name : Text) (content : List Part) :
    (function t name content).text = t ++ textAll content ++ [.char ')'] := by
  simp [text, pieces, textAll, closing]
  rfl

theorem text_block (b : Bracket) (content : List Part) :
    (block b content).text = [.char b.openChar] ++ textAll content ++ [.char b.closeChar] := by
  simp [text, pieces, textAll, opening, closing]

theorem locatedAll_append (start : Nat) (ps qs : List Part) :
    locatedAll start (ps ++ qs) =
      locatedAll start ps ++ locatedAll (start + (textAll ps).length) qs := by
  induction ps generalizing start with
  | nil => simp [locatedAll]
  | cons p ps ih => simp [locatedAll, ih, Nat.add_assoc]

theorem located_start (start : Nat) (p : Part) : (p.located start).start = start := by
  cases p <;> rfl

open Component (nest Level)

/-! ## Nesting -/

/-- A row of components in front of a level. -/
def pushAll (cs : List Component) (level : Level) : Level :=
  { level with content := cs ++ level.content }

theorem nest_closing (b : Bracket) (stack : List Bracket) (start : Nat) (ps : List Piece) :
    nest (b :: stack) (Piece.located start (closing b :: ps)) =
      (⟨[], some start⟩, (nest stack (Piece.located (start + 1) ps)).1 ::
        (nest stack (Piece.located (start + 1) ps)).2) := by
  simp [closing, Piece.located, nest]

mutual

theorem nest_pieces : ∀ (p : Part) (stack : List Bracket) (start : Nat) (rest : List Piece),
    nest stack (Piece.located start (p.pieces ++ rest)) =
      ((nest stack (Piece.located (start + p.text.length) rest)).1.push (p.located start),
        (nest stack (Piece.located (start + p.text.length) rest)).2)
  | leaf t l, stack, start, rest => by simp [pieces, Piece.located, nest, located]
  | function t name content, stack, start, rest => by
    -- The content is nested on a level of its own, which the closing bracket ends.
    have hinside := nest_piecesAll content (.round :: stack) (start + t.length)
      (closing .round :: rest)
    rw [nest_closing] at hinside
    have hend : start + (function t name content).text.length =
        start + t.length + (textAll content).length + 1 := by
      simp [text_function, Nat.add_assoc]
    rw [hend]
    simp only [pieces, List.cons_append, List.append_assoc, List.nil_append, Piece.located, nest,
      hinside, pushAll, List.append_nil, located]
  | block b content, stack, start, rest => by
    have hinside := nest_piecesAll content (b :: stack) (start + 1) (closing b :: rest)
    rw [nest_closing] at hinside
    have hend : start + (block b content).text.length =
        start + 1 + (textAll content).length + 1 := by
      simp [text_block]
      omega
    rw [hend]
    simp only [pieces, opening, List.cons_append, List.append_assoc, List.nil_append, Piece.located,
      nest, List.length_cons, List.length_nil, Nat.zero_add, hinside, pushAll, List.append_nil,
      located]

/-- **The tokens of parts in a row are nested to the parts.** -/
theorem nest_piecesAll :
    ∀ (ps : List Part) (stack : List Bracket) (start : Nat) (rest : List Piece),
    nest stack (Piece.located start (piecesAll ps ++ rest)) =
      (pushAll (locatedAll start ps)
        (nest stack (Piece.located (start + (textAll ps).length) rest)).1,
        (nest stack (Piece.located (start + (textAll ps).length) rest)).2)
  | [], stack, start, rest => by simp [pushAll, locatedAll]
  | p :: ps, stack, start, rest => by
    have htail := nest_piecesAll ps stack (start + p.text.length) rest
    rw [piecesAll_cons, List.append_assoc, nest_pieces p, htail]
    simp [Level.push, pushAll, locatedAll, Nat.add_assoc]

end

/-! ## Whole components are parts -/

/-- A level that holds parts: it ends with the pieces, or with the bracket that it is in. -/
def HoldsParts (stack : List Bracket) (start : Nat) (ps : List Piece) : Prop :=
  ∃ parts : List Part, (nest stack (Piece.located start ps)).1.content = locatedAll start parts ∧
    (((nest stack (Piece.located start ps)).1.close = none ∧ ps = piecesAll parts) ∨
      ∃ b stack' ps', stack = b :: stack' ∧ ps = piecesAll parts ++ closing b :: ps')

/-- Brackets have the texts that their tokens tell. -/
def Bracketed (ps : List Piece) : Prop := ∀ p ∈ ps, p.token.Bracketed p.text

theorem Bracketed.tail {p : Piece} {ps : List Piece} (h : Bracketed (p :: ps)) : Bracketed ps :=
  fun q hq => h q (List.mem_cons_of_mem p hq)

theorem bracketed_of_spelled {ps : List Piece} {after : Text} (h : Piece.Spelled ps after) :
    Bracketed ps := h.forall Scan.token_bracketed

theorem length_nest (stack : List Bracket) (lexemes : List Lexeme) :
    (nest stack lexemes).2.length = stack.length := by
  induction lexemes generalizing stack with
  | nil => simp [nest]
  | cons l ls ih =>
    obtain ⟨start, token⟩ := l
    cases token with
    | leaf l => simp [nest, ih]
    | cut l f => simp [nest, ih]
    | fault f => simp [nest, ih]
    | function name =>
      -- An opening bracket puts a level on the stack, and what it opened takes it off.
      have h := ih (.round :: stack)
      simp only [nest]
      split
      · rename_i heq
        rw [heq] at h
        simpa using h
      · rename_i heq
        rw [heq] at h
        simp at h
    | opener b =>
      have h := ih (b :: stack)
      simp only [nest]
      split
      · rename_i heq
        rw [heq] at h
        simpa using h
      · rename_i heq
        rw [heq] at h
        simp at h
    | closer b =>
      simp only [nest]
      split
      · rename_i hhead
        cases stack with
        | nil => simp at hhead
        | cons => simp [ih]
      · simp [ih]

/-- What an opening bracket opens, and the levels around it. -/
theorem exists_nest_cons (b : Bracket) (stack : List Bracket) (lexemes : List Lexeme) :
    ∃ inside here outer, nest (b :: stack) lexemes = (inside, here :: outer) := by
  have hlength := length_nest (b :: stack) lexemes
  generalize nest (b :: stack) lexemes = level at hlength
  obtain ⟨inside, _ | ⟨here, outer⟩⟩ := level
  · simp at hlength
  · exact ⟨inside, here, outer, rfl⟩

theorem HoldsParts.cons {stack : List Bracket} {start : Nat} {p : Part} {ps : List Piece}
    (h : HoldsParts stack (start + p.text.length) ps) :
    HoldsParts stack start (p.pieces ++ ps) := by
  obtain ⟨parts, hcontent, hend⟩ := h
  refine ⟨p :: parts, ?_, ?_⟩
  · rw [nest_pieces]
    simp [Level.push, hcontent, locatedAll]
  · rcases hend with ⟨hclose, rfl⟩ | ⟨b, stack', ps', hstack, rfl⟩
    · refine .inl ⟨?_, rfl⟩
      rw [nest_pieces]
      exact hclose
    · exact .inr ⟨b, stack', ps', hstack, by rw [piecesAll_cons, List.append_assoc]⟩

/-- What is inside a call or a block that is closed, and what follows it, if shorter rows of pieces
hold parts. -/
theorem holdsParts_open {n : Nat} {b : Bracket} {stack : List Bracket} {start : Nat}
    {ps : List Piece} {inside here : Level} {outer : List Level}
    (ih : ∀ {stack start ps}, ps.length ≤ n → Bracketed ps →
      Component.areWhole (nest stack (Piece.located start ps)).1.content →
      HoldsParts stack start ps)
    (hn : ps.length ≤ n) (hbrackets : Bracketed ps)
    (hnest : nest (b :: stack) (Piece.located start ps) = (inside, here :: outer))
    (hclose : inside.close.isSome) (hinside : Component.areWhole inside.content)
    (hhere : Component.areWhole here.content) :
    ∃ parts ps', ps = piecesAll parts ++ closing b :: ps' ∧
      HoldsParts stack (start + (textAll parts).length + 1) ps' := by
  obtain ⟨parts, -, ⟨hnone, -⟩ | ⟨b', stack', ps', hstack, hps⟩⟩ :=
    ih hn hbrackets (by rw [hnest]; exact hinside)
  -- The row cannot end here, as the bracket is closed.
  · rw [hnest] at hnone
    simp only at hnone
    rw [hnone] at hclose
    cases hclose
  · obtain ⟨rfl, rfl⟩ := List.cons.inj hstack
    refine ⟨parts, ps', hps, ih ?_ (fun q hq => hbrackets q ?_) ?_⟩
    · rw [hps, List.length_append, List.length_cons] at hn
      omega
    · simp [hps, hq]
    · rw [hps, nest_piecesAll, nest_closing, Prod.mk.injEq, List.cons.injEq] at hnest
      rw [hnest.2.1]
      exact hhere

/-- **Whole components are parts at their places.** -/
theorem holdsParts (n : Nat) {stack : List Bracket} {start : Nat} {ps : List Piece}
    (hn : ps.length ≤ n) (hbrackets : Bracketed ps)
    (hwhole : Component.areWhole (nest stack (Piece.located start ps)).1.content) :
    HoldsParts stack start ps := by
  -- What follows a closed bracket is shorter than what follows the bracket that opens it.
  induction n generalizing stack start ps with
  | zero =>
    obtain rfl := List.length_eq_zero_iff.1 (Nat.le_zero.1 hn)
    exact ⟨[], rfl, .inl ⟨rfl, rfl⟩⟩
  | succ n ih =>
    cases ps with
    | nil => exact ⟨[], rfl, .inl ⟨rfl, rfl⟩⟩
    | cons p ps =>
      obtain ⟨text, token⟩ := p
      have hn' : ps.length ≤ n := Nat.le_of_succ_le_succ hn
      have hbracket : token.Bracketed text := hbrackets _ List.mem_cons_self
      simp only [Piece.located] at hwhole
      cases token with
      | leaf l =>
        simp only [nest, Level.push, Component.areWhole_cons, Bool.and_eq_true] at hwhole
        exact HoldsParts.cons (p := .leaf text l) (by simpa using ih hn' hbrackets.tail hwhole.2)
      | cut l f => simp [nest, Level.push] at hwhole
      | fault f => simp [nest, Level.push] at hwhole
      | function name =>
        obtain ⟨inside, here, outer, hnest⟩ :=
          exists_nest_cons .round stack (Piece.located (start + text.length) ps)
        simp only [nest, hnest, Level.push, Component.areWhole_cons, Bool.and_eq_true,
          Component.isWhole_function] at hwhole
        obtain ⟨⟨hclose, hinside⟩, hhere⟩ := hwhole
        obtain ⟨parts, ps', rfl, htail⟩ :=
          holdsParts_open ih hn' hbrackets.tail hnest hclose hinside hhere
        have : HoldsParts stack start ((function text name parts).pieces ++ ps') :=
          .cons (by simpa [text_function, Nat.add_assoc] using htail)
        simpa [pieces] using this
      | opener b =>
        obtain rfl : text = [.char b.openChar] := hbracket
        obtain ⟨inside, here, outer, hnest⟩ :=
          exists_nest_cons b stack (Piece.located (start + 1) ps)
        simp only [nest, List.length_singleton, hnest, Level.push, Component.areWhole_cons,
          Bool.and_eq_true, Component.isWhole_block] at hwhole
        obtain ⟨⟨hclose, hinside⟩, hhere⟩ := hwhole
        obtain ⟨parts, ps', rfl, htail⟩ :=
          holdsParts_open ih hn' hbrackets.tail hnest hclose hinside hhere
        have hend : start + (block b parts).text.length =
          start + 1 + (textAll parts).length + 1 := by
          simp [text_block]
          omega
        have : HoldsParts stack start ((block b parts).pieces ++ ps') :=
          .cons (by rw [hend]; exact htail)
        simpa [pieces, opening] using this
      -- It closes the innermost bracket, or else it is a fault.
      | closer b =>
        by_cases hhead : stack.head? = some b
        · obtain ⟨stack', rfl⟩ : ∃ stack', stack = b :: stack' := by
            cases stack with
            | nil => cases hhead
            | cons b' stack' => exact ⟨stack', by rw [Option.some.inj hhead]⟩
          obtain rfl : text = [.char b.closeChar] := hbracket
          exact ⟨[], by simp [Piece.located, nest, locatedAll], .inr ⟨b, stack', ps, rfl, rfl⟩⟩
        · simp [nest, hhead, Level.push] at hwhole

/-- **Whole components are parts at their places.** -/
theorem exists_parts {ps : List Piece} (hbrackets : Bracketed ps)
    (hwhole : Component.areWhole (Component.ofLexemes (Piece.located 0 ps))) :
    ∃ parts, ps = piecesAll parts ∧
      Component.ofLexemes (Piece.located 0 ps) = locatedAll 0 parts := by
  obtain ⟨parts, hcontent, ⟨-, hps⟩ | ⟨b, stack', ps', hstack, -⟩⟩ :=
    holdsParts ps.length (Nat.le_refl _) hbrackets hwhole
  · exact ⟨parts, hps, hcontent⟩
  · cases hstack

end Part

end FluidCss
