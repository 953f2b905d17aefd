import FluidCss.Proofs.Component.Part
import FluidCss.Proofs.Result

/-!
# Texts that differ in the names of functions

Nesting does not look at names. So tokens that are the same but for the names of functions make up
trees that are the same but for them (`nest_renamed`), where places do not count either: a shorter
name moves what follows it. If the first token is the same, the first tree can have other names only
inside of it (`ofLexemes_renamedInside`). -/

namespace FluidCss

/-- Two tokens are one, or both begin a function. -/
inductive Token.Renamed : Token → Token → Prop
  | same (t : Token) : Token.Renamed t t
  | function (name name' : Text) : Token.Renamed (.function name) (.function name')

/-- Tokens in a row that are the same but for places and for the names of functions. -/
abbrev Lexeme.AreRenamed : List Lexeme → List Lexeme → Prop :=
  List.Forall₂ fun x y => x.token.Renamed y.token

/-- Tokens in a row that are the same up to the first one that is not blank, and after it but for
the names of functions. -/
inductive Lexeme.AreRenamedInside : List Lexeme → List Lexeme → Prop
  | nil : Lexeme.AreRenamedInside [] []
  | blank {start start' : Nat} {l : Leaf} {xs ys : List Lexeme} (hblank : l.isBlank)
    (hothers : Lexeme.AreRenamedInside xs ys) :
    Lexeme.AreRenamedInside (⟨start, .leaf l⟩ :: xs) (⟨start', .leaf l⟩ :: ys)
  | first {start start' : Nat} {t : Token} {xs ys : List Lexeme}
    (hfull : ∀ l, t = .leaf l → l.isBlank = false) (hothers : Lexeme.AreRenamed xs ys) :
    Lexeme.AreRenamedInside (⟨start, t⟩ :: xs) (⟨start', t⟩ :: ys)

/-- A call whose own name is kept. -/
theorem Lexeme.AreRenamedInside.call {start start' : Nat} (name : Text) {xs ys : List Lexeme}
    (hothers : Lexeme.AreRenamed xs ys) :
    Lexeme.AreRenamedInside (⟨start, .function name⟩ :: xs) (⟨start', .function name⟩ :: ys) :=
  .first (fun _ h => by cases h) hothers

theorem Lexeme.AreRenamedInside.areRenamed {xs ys : List Lexeme}
    (h : Lexeme.AreRenamedInside xs ys) : Lexeme.AreRenamed xs ys := by
  induction h with
  | nil => exact .nil
  | blank _ _ ih => exact .cons (.same _) ih
  | first _ hothers => exact .cons (.same _) hothers

namespace Component

mutual

/-- Two components are the same but for places and for the names of functions. -/
inductive Renamed : Component → Component → Prop
  | leaf {start start' : Nat} (l : Leaf) : Renamed (.leaf start l) (.leaf start' l)
  | fault {start start' : Nat} (f : Fault) : Renamed (.fault start f) (.fault start' f)
  | function {start start' : Nat} {name name' : Text} {content content' : List Component}
    {close close' : Option Nat} (h : AreRenamed content content') :
    Renamed (.function start name content close) (.function start' name' content' close')
  | block {start start' : Nat} (b : Bracket) {content content' : List Component}
    {close close' : Option Nat} (h : AreRenamed content content') :
    Renamed (.block start b content close) (.block start' b content' close')

/-- Components in a row that are the same but for places and for the names of functions. -/
inductive AreRenamed : List Component → List Component → Prop
  | nil : AreRenamed [] []
  | cons {c d : Component} {cs ds : List Component} (h : Renamed c d) (hothers : AreRenamed cs ds) :
    AreRenamed (c :: cs) (d :: ds)

end

/-- Two components are the same but for places and for the names of functions inside of them. -/
inductive RenamedInside : Component → Component → Prop
  | leaf {start start' : Nat} (l : Leaf) : RenamedInside (.leaf start l) (.leaf start' l)
  | fault {start start' : Nat} (f : Fault) : RenamedInside (.fault start f) (.fault start' f)
  | function {start start' : Nat} (name : Text) {content content' : List Component}
    {close close' : Option Nat} (h : AreRenamed content content') :
    RenamedInside (.function start name content close) (.function start' name content' close')
  | block {start start' : Nat} (b : Bracket) {content content' : List Component}
    {close close' : Option Nat} (h : AreRenamed content content') :
    RenamedInside (.block start b content close) (.block start' b content' close')

/-- Components in a row whose first one that is not blank differs in names inside of it, and what
follows it in any names. -/
inductive AreRenamedInside : List Component → List Component → Prop
  | nil : AreRenamedInside [] []
  | blank {start start' : Nat} {l : Leaf} {cs ds : List Component} (hblank : l.isBlank)
    (hothers : AreRenamedInside cs ds) :
    AreRenamedInside (.leaf start l :: cs) (.leaf start' l :: ds)
  | first {c d : Component} {cs ds : List Component} (h : RenamedInside c d)
    (hfull : c.isBlank = false) (hothers : AreRenamed cs ds) : AreRenamedInside (c :: cs) (d :: ds)

section

variable {c d : Component}

theorem RenamedInside.renamed (h : RenamedInside c d) : Renamed c d := by
  cases h with
  | leaf l => exact .leaf l
  | fault f => exact .fault f
  | function name h => exact .function h
  | block b h => exact .block b h

theorem isSpace_eq_false (h : c.isBlank = false) : c.isSpace = false := by
  cases c with
  | leaf _ l =>
    cases l with
    | space => cases h
    | _ => rfl
  | _ => rfl

theorem Renamed.isSpace_eq (h : Renamed c d) : c.isSpace = d.isSpace := by
  cases h with
  | leaf l => cases l <;> rfl
  | _ => rfl

theorem Renamed.isBlank_eq (h : Renamed c d) : c.isBlank = d.isBlank := by
  cases h <;> rfl

end

theorem AreRenamedInside.leaf {start start' : Nat} (l : Leaf) {cs ds : List Component}
    (hblank : l.isBlank → AreRenamedInside cs ds) (hfull : AreRenamed cs ds) :
    AreRenamedInside (.leaf start l :: cs) (.leaf start' l :: ds) := by
  cases hl : l.isBlank with
  | true => exact .blank hl (hblank hl)
  | false => exact .first (.leaf l) hl hfull

/-! ## Nesting -/

/-- What remains at two levels is the same but for places and for the names of functions. -/
def Level.Renamed (level level' : Level) : Prop := AreRenamed level.content level'.content

/-- The rest of a level and what follows in the levels around it are the same but for places and for
the names of functions. -/
def LevelsRenamed (levels levels' : Level × List Level) : Prop :=
  levels.1.Renamed levels'.1 ∧ List.Forall₂ Level.Renamed levels.2 levels'.2

variable {xs ys : List Lexeme}

/-- What an opening bracket holds in both rows, and what follows it. -/
theorem exists_opened (b : Bracket) {stack : List Bracket}
    (h : LevelsRenamed (nest (b :: stack) xs) (nest (b :: stack) ys)) :
    ∃ inside inside' here here' outer outer', nest (b :: stack) xs = (inside, here :: outer) ∧
      nest (b :: stack) ys = (inside', here' :: outer') ∧ inside.Renamed inside' ∧
      LevelsRenamed (here, outer) (here', outer') := by
  obtain ⟨inside, here, outer, hxs⟩ := Part.exists_nest_cons b stack xs
  obtain ⟨inside', here', outer', hys⟩ := Part.exists_nest_cons b stack ys
  rw [hxs, hys] at h
  obtain ⟨hinside, hlevels⟩ := h
  cases hlevels with
  | cons hhere houter =>
    exact ⟨inside, inside', here, here', outer, outer', hxs, hys, hinside, hhere, houter⟩

/-- **Nesting keeps what differs to names.** -/
theorem nest_renamed (h : Lexeme.AreRenamed xs ys) (stack : List Bracket) :
    LevelsRenamed (nest stack xs) (nest stack ys) := by
  -- Induction on the tokens for all stacks of brackets.
  induction h generalizing stack with
  | nil =>
    have hlast : Level.last.Renamed Level.last := .nil
    exact ⟨hlast, List.forall₂_map_left_iff.2 (List.forall₂_map_right_iff.2
      (List.forall₂_same.2 fun _ _ => hlast))⟩
  | @cons x y xs ys htoken _ ih =>
    obtain ⟨start, t⟩ := x
    obtain ⟨start', u⟩ := y
    obtain ⟨hhere, houter⟩ := ih stack
    cases htoken with
    -- Calls of different names open the same bracket.
    | function name name' =>
      obtain ⟨_, _, _, _, _, _, hxs, hys, hinside, hhere, houter⟩ := exists_opened .round (ih _)
      rw [nest, nest, hxs, hys]
      exact ⟨.cons (.function hinside) hhere, houter⟩
    | same =>
      cases t with
      | leaf l => exact ⟨.cons (.leaf l) hhere, houter⟩
      | cut l f => exact ⟨.cons (.leaf l) (.cons (.fault f) hhere), houter⟩
      | fault f => exact ⟨.cons (.fault f) hhere, houter⟩
      | function name =>
        obtain ⟨_, _, _, _, _, _, hxs, hys, hinside, hhere, houter⟩ := exists_opened .round (ih _)
        rw [nest, nest, hxs, hys]
        exact ⟨.cons (.function hinside) hhere, houter⟩
      | opener b =>
        obtain ⟨_, _, _, _, _, _, hxs, hys, hinside, hhere, houter⟩ := exists_opened b (ih _)
        rw [nest, nest, hxs, hys]
        exact ⟨.cons (.block b hinside) hhere, houter⟩
      | closer b =>
        simp only [nest]
        split
        · obtain ⟨hclosed, hothers⟩ := ih stack.tail
          exact ⟨.nil, .cons hclosed hothers⟩
        · exact ⟨.cons (.fault _) hhere, houter⟩

theorem ofLexemes_renamedInside (h : Lexeme.AreRenamedInside xs ys) :
    AreRenamedInside (ofLexemes xs) (ofLexemes ys) := by
  induction h with
  | nil => exact .nil
  | blank hblank _ ih => exact .blank hblank ih
  | @first start start' t xs ys hfull hothers =>
    obtain ⟨hrest, -⟩ := nest_renamed hothers []
    unfold ofLexemes
    cases t with
    | leaf l => exact .first (.leaf l) (hfull l rfl) hrest
    | cut l f =>
      exact .leaf l (fun _ => .first (.fault f) rfl hrest) (.cons (.fault f) hrest)
    | fault f => exact .first (.fault f) rfl hrest
    | function name =>
      obtain ⟨_, _, _, _, _, _, hxs, hys, hinside, hhere, -⟩ :=
        exists_opened .round (nest_renamed hothers [.round])
      rw [nest, nest, hxs, hys]
      exact .first (.function name hinside) rfl hhere
    | opener b =>
      obtain ⟨_, _, _, _, _, _, hxs, hys, hinside, hhere, -⟩ :=
        exists_opened b (nest_renamed hothers [b])
      rw [nest, nest, hxs, hys]
      exact .first (.block b hinside) rfl hhere
    | closer b => exact .first (.fault _) rfl hrest

/-! ## Numbers -/

/-- The first number that is too long is the same. -/
theorem findSome?_overlong?_renamed (h : Lexeme.AreRenamed xs ys) :
    xs.findSome? overlong? = ys.findSome? overlong? := by
  induction h with
  | nil => rfl
  | @cons x y xs ys htoken _ ih =>
    obtain ⟨start, t⟩ := x
    obtain ⟨start', u⟩ := y
    cases htoken with
    | same =>
      rw [List.findSome?_cons, List.findSome?_cons, ih]
      rfl
    | function name name' => exact ih

/-- **The trees of both texts are the same but for names**, or both texts have the same number that
is too long. -/
theorem ofText_renamedInside {t u : Text}
    (h : Lexeme.AreRenamedInside (Lexeme.scan 0 0 t) (Lexeme.scan 0 0 u)) :
    Matched AreRenamedInside (ofText t) (ofText u) := by
  simp only [ofText, findSome?_overlong?_renamed h.areRenamed]
  split
  · exact .error _
  · exact .ok (ofLexemes_renamedInside h)

end Component

end FluidCss
