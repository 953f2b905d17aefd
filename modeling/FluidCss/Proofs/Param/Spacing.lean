import FluidCss.Proofs.Param.Nesting

/-!
# Spaces before symbols

**Theorem (`marked_iff_space`).** A symbol of a text that is no closing bracket is marked exactly if
a space stands among the blanks directly before its token. A comment by itself does not mark it
(`comment_marks_nothing`), although it divides tokens as a space does.

Marks are set level by level, and a level is a row of trees. A space at the end of a level is
forgotten there, so that the mark can be told from the row of tokens alone: `IsLaidOut` carries
along it whether a space came since the last token, and the levels that are open are read to the
same row (`isLaidOut_nest`), by induction on the tokens. -/

namespace FluidCss

/-- A token that separates others and has no symbol. -/
def Token.isBlank : Token → Bool
  | leaf l => l.isBlank
  | _ => false

def Token.isCloser : Token → Bool
  | closer _ => true
  | _ => false

namespace Param

open Component Value

/-! ## Tokens in a row -/

/-- The symbol of a token that is neither a closing bracket nor faulty. -/
def Symbol.ofToken? (spaced : Bool) : Token → Option Symbol
  | .leaf l => some (ofLeaf spaced l)
  | .function name => some ⟨.function, name, spaced⟩
  | .opener b => some (bracket b.openChar spaced)
  | .closer _ | .cut .. | .fault _ => none

/-- Tokens give symbols, closing brackets apart; `spaced` says whether a space has come since the
last token. No token is faulty. -/
inductive IsLaidOut : Bool → List Lexeme → List Symbol → Prop
  | nil {spaced : Bool} : IsLaidOut spaced [] []
  | space {spaced : Bool} {start : Nat} {ls : List Lexeme} {ts : List Symbol}
    (htail : IsLaidOut true ls ts) : IsLaidOut spaced (⟨start, .leaf .space⟩ :: ls) ts
  | comment {spaced : Bool} {start : Nat} {t : Text} {closed : Bool} {ls : List Lexeme}
    {ts : List Symbol} (htail : IsLaidOut spaced ls ts) :
    IsLaidOut spaced (⟨start, .leaf (.comment t closed)⟩ :: ls) ts
  | closer {spaced : Bool} {start : Nat} {b : Bracket} {ls : List Lexeme} {ts : List Symbol}
    (htail : IsLaidOut false ls ts) : IsLaidOut spaced (⟨start, .closer b⟩ :: ls) ts
  | symbol {spaced : Bool} {start : Nat} {token : Token} {s : Symbol} {ls : List Lexeme}
    {ts : List Symbol} (hblank : token.isBlank = false)
    (hsymbol : Symbol.ofToken? spaced token = some s) (htail : IsLaidOut false ls ts) :
    IsLaidOut spaced (⟨start, token⟩ :: ls) (s :: ts)

/-! ## Levels -/

/-- What remains of the open levels gives symbols, the innermost first; `spaced` says whether a
space precedes it. -/
inductive AreRead : Bool → List Level → List Symbol → Prop
  | nil {spaced : Bool} : AreRead spaced [] []
  | cons {spaced : Bool} {level : Level} {outer : List Level} {ts us : List Symbol}
    (hlevel : Symbol.ofComponents spaced level.content = .ok ts) (houter : AreRead false outer us) :
    AreRead spaced (level :: outer) (ts ++ us)

variable {spaced : Bool} {here : Level} {outer : List Level} {ts : List Symbol}

theorem AreRead.empty {close : Option Nat} (h : AreRead spaced (⟨[], close⟩ :: outer) ts) :
    AreRead false outer ts := by
  cases h with
  | cons hlevel houter =>
    obtain rfl := Except.ok.inj hlevel
    exact houter

theorem AreRead.eq_nil_of_last {stack : List Bracket}
    (h : AreRead spaced (.last :: stack.map fun _ => .last) ts) : ts = [] := by
  induction stack generalizing spaced with
  | nil =>
    cases h.empty
    rfl
  | cons b stack ih => exact ih h.empty

theorem AreRead.space {start : Nat}
    (h : AreRead spaced (here.push (.leaf start .space) :: outer) ts) :
    AreRead true (here :: outer) ts := by
  cases h with
  | cons hlevel houter =>
    simp only [Level.push, Symbol.ofComponents, Component.isSpace, if_true] at hlevel
    exact .cons hlevel houter

theorem AreRead.comment {start : Nat} {t : Text} {closed : Bool}
    (h : AreRead spaced (here.push (.leaf start (.comment t closed)) :: outer) ts) :
    AreRead spaced (here :: outer) ts := by
  cases h with
  | cons hlevel houter =>
    simp only [Level.push, Symbol.ofComponents, Component.isSpace, Component.isBlank, Leaf.isBlank,
      Bool.false_eq_true, if_false, if_true] at hlevel
    exact .cons hlevel houter

/-- A component that is no blank comes first with its symbols. -/
theorem AreRead.push {c : Component} (hblank : c.isBlank = false)
    (h : AreRead spaced (here.push c :: outer) ts) :
    ∃ first others, Symbol.ofComponent spaced c = .ok first ∧
      AreRead false (here :: outer) others ∧ ts = first ++ others := by
  have hspace : c.isSpace = false := by
    cases c with
    | leaf start l => cases l <;> first | rfl | cases hblank
    | _ => rfl
  cases h with
  | cons hlevel houter =>
    simp only [Level.push, Symbol.ofComponents, hspace, hblank, Bool.false_eq_true, if_false]
      at hlevel
    obtain ⟨first, hfirst, hlevel⟩ := bind_eq_ok.1 hlevel
    obtain ⟨others, hothers, hlevel⟩ := bind_eq_ok.1 hlevel
    obtain rfl := pure_eq_ok.1 hlevel
    exact ⟨first, _, hfirst, .cons hothers houter, List.append_assoc ..⟩

theorem AreRead.not_fault {start : Nat} {f : Fault} :
    ¬AreRead spaced (here.push (.fault start f) :: outer) ts := by
  intro h
  obtain ⟨first, others, hfirst, -, -⟩ := h.push rfl
  cases hfirst

theorem AreRead.not_cut {start start' : Nat} {l : Leaf} {f : Fault} :
    ¬AreRead spaced ((here.push (.fault start f)).push (.leaf start' l) :: outer) ts := by
  intro h
  by_cases hblank : l.isBlank = true
  · cases l with
    | space => exact AreRead.not_fault h.space
    | comment t closed => exact AreRead.not_fault h.comment
    | _ => cases hblank
  · have hleaf : (Component.leaf start' l).isBlank = false := Bool.eq_false_iff.2 hblank
    obtain ⟨first, others, -, hothers, -⟩ := h.push hleaf
    exact AreRead.not_fault hothers

/-- A function call or a block has an opening symbol, what stands in it, and a closing bracket. -/
theorem AreRead.enclosed {c : Component} (inside : Level) (s : Symbol) (closer : Char)
    (hblank : c.isBlank = false)
    (hread : Symbol.ofComponent spaced c = (do
      let inner ← Symbol.ofComponents false inside.content
      return s :: inner ++ [Symbol.bracket closer false]))
    (hs : s.isCloser = false) (hcloser : (Symbol.bracket closer false).isCloser = true)
    (h : AreRead spaced (here.push c :: outer) ts) :
    ∃ others, AreRead false (inside :: here :: outer) others ∧
      ts.filter (!·.isCloser) = s :: others.filter (!·.isCloser) := by
  obtain ⟨first, others, hfirst, hothers, rfl⟩ := h.push hblank
  rw [hread] at hfirst
  obtain ⟨inner, hinner, hfirst⟩ := bind_eq_ok.1 hfirst
  obtain rfl := pure_eq_ok.1 hfirst
  refine ⟨inner ++ others, .cons hinner hothers, ?_⟩
  simp [hs, hcloser]

/-- **The levels that tokens make up are read to the symbols of the row.** -/
theorem isLaidOut_nest (stack : List Bracket) {lexemes : List Lexeme}
    (hlexemes : ∀ lexeme ∈ lexemes, lexeme.token.Unbracketed)
    (h : AreRead spaced ((nest stack lexemes).1 :: (nest stack lexemes).2) ts) :
    IsLaidOut spaced lexemes (ts.filter (!·.isCloser)) := by
  -- Induction on the tokens.
  induction lexemes generalizing stack spaced ts with
  | nil =>
    obtain rfl := AreRead.eq_nil_of_last h
    exact .nil
  | cons lexeme lexemes ih =>
    obtain ⟨start, token⟩ := lexeme
    obtain ⟨htoken, hrest⟩ := List.forall_mem_cons.1 hlexemes
    cases token with
    | leaf l =>
      by_cases hblank : l.isBlank = true
      · cases l with
        | space => exact .space (ih stack hrest (AreRead.space h))
        | comment t closed => exact .comment (ih stack hrest (AreRead.comment h))
        | _ => cases hblank
      · rw [Bool.not_eq_true] at hblank
        have hleaf : (Component.leaf start l).isBlank = false := hblank
        obtain ⟨first, others, hfirst, hothers, rfl⟩ := AreRead.push hleaf h
        obtain rfl := Except.ok.inj hfirst
        have hcloser := (isPlain_ofLeaf spaced htoken).2
        rw [List.singleton_append, List.filter_cons_of_pos (by simp [hcloser])]
        exact .symbol hblank rfl (ih stack hrest hothers)
    | cut l f => exact absurd h AreRead.not_cut
    | fault f => exact absurd h AreRead.not_fault
    -- A call or an opening bracket begins a level of its own, and a closing one goes back to the
    -- level around it.
    | function name =>
      obtain ⟨inside, here, outer, hnest⟩ := Part.exists_nest_cons .round stack lexemes
      simp only [nest, hnest] at h
      obtain ⟨others, hothers, hfilter⟩ := h.enclosed inside ⟨.function, name, spaced⟩ ')' rfl rfl
        rfl rfl
      rw [hfilter]
      exact .symbol rfl rfl (ih (.round :: stack) hrest (by rwa [hnest]))
    | opener b =>
      obtain ⟨inside, here, outer, hnest⟩ := Part.exists_nest_cons b stack lexemes
      simp only [nest, hnest] at h
      obtain ⟨others, hothers, hfilter⟩ := h.enclosed inside (.bracket b.openChar spaced)
        b.closeChar rfl rfl (by cases b <;> rfl) (by cases b <;> rfl)
      rw [hfilter]
      exact .symbol rfl rfl (ih (b :: stack) hrest (by rwa [hnest]))
    -- A closing bracket that closes nothing is a fault, and faults are not read.
    | closer b =>
      simp only [nest] at h
      split at h
      · exact .closer (ih stack.tail hrest h.empty)
      · exact absurd h AreRead.not_fault

/-! ## Gaps -/

/-- A token that is no blank, with the blanks directly before it. -/
structure Row where
  gap : List Lexeme
  lexeme : Lexeme

/-- The tokens are divided into rows; blanks may follow the last one. -/
inductive IsDivided : List Lexeme → List Row → Prop
  | nil {gap : List Lexeme} (hgap : ∀ l ∈ gap, l.token.isBlank) : IsDivided gap []
  | cons {gap : List Lexeme} {lexeme : Lexeme} {ls : List Lexeme} {rows : List Row}
    (hgap : ∀ l ∈ gap, l.token.isBlank) (hlexeme : lexeme.token.isBlank = false)
    (htail : IsDivided ls rows) : IsDivided (gap ++ lexeme :: ls) (⟨gap, lexeme⟩ :: rows)

theorem exists_isDivided (ls : List Lexeme) : ∃ rows, IsDivided ls rows := by
  induction ls with
  | nil => exact ⟨[], .nil (List.forall_mem_nil _)⟩
  | cons l ls ih =>
    obtain ⟨rows, hrows⟩ := ih
    by_cases hblank : l.token.isBlank = true
    · cases hrows with
      | nil hgap => exact ⟨[], .nil (List.forall_mem_cons.2 ⟨hblank, hgap⟩)⟩
      | cons hgap hlexeme htail =>
        exact ⟨_, .cons (List.forall_mem_cons.2 ⟨hblank, hgap⟩) hlexeme htail⟩
    · exact ⟨_, .cons (List.forall_mem_nil _) (Bool.eq_false_iff.2 hblank) hrows⟩

def HasSpace (ls : List Lexeme) : Prop := ∃ l ∈ ls, l.token = .leaf .space

/-- What follows blanks is laid out with a space before it exactly if there was one already or one
is among them. -/
theorem IsLaidOut.skip {gap ls : List Lexeme} (hgap : ∀ l ∈ gap, l.token.isBlank)
    (h : IsLaidOut spaced (gap ++ ls) ts) :
    ∃ spaced', IsLaidOut spaced' ls ts ∧ (spaced' = true ↔ spaced = true ∨ HasSpace gap) := by
  induction gap generalizing spaced with
  | nil => exact ⟨spaced, h, by simp [HasSpace]⟩
  | cons l gap ih =>
    obtain ⟨hblank, hrest⟩ := List.forall_mem_cons.1 hgap
    -- A space sets the mark, and a comment leaves it as it is.
    cases h with
    | space htail =>
      obtain ⟨spaced', hls, hmark⟩ := ih hrest htail
      exact ⟨spaced', hls, by simp [hmark, HasSpace]⟩
    | comment htail =>
      obtain ⟨spaced', hls, hmark⟩ := ih hrest htail
      exact ⟨spaced', hls, by simp [hmark, HasSpace]⟩
    | closer => cases hblank
    | symbol hnot => exact absurd hblank (by simp [hnot])

/-- A symbol is that of the row's token, and it is marked exactly if there is a space in the gap. -/
structure IsMarked (s : Symbol) (row : Row) : Prop where
  symbol : Symbol.ofToken? s.spaced row.lexeme.token = some s
  spaced : s.spaced = true ↔ HasSpace row.gap

theorem spaced_of_ofToken? {token : Token} {s : Symbol}
    (h : Symbol.ofToken? spaced token = some s) : s.spaced = spaced := by
  cases token with
  | leaf l => cases l <;> exact (Option.some.inj h) ▸ rfl
  | function name => exact (Option.some.inj h) ▸ rfl
  | opener b => exact (Option.some.inj h) ▸ rfl
  | _ => cases h

/-- **The rows have the symbols, one after the other.** -/
theorem IsDivided.areMarked {ls : List Lexeme} {rows : List Row} (hrows : IsDivided ls rows)
    (h : IsLaidOut false ls ts) :
    List.Forall₂ IsMarked ts (rows.filter (!·.lexeme.token.isCloser)) := by
  -- Induction on the rows.
  induction hrows generalizing ts with
  | @nil gap hgap =>
    rw [← List.append_nil gap] at h
    obtain ⟨spaced', hnil, -⟩ := h.skip hgap
    cases hnil
    exact .nil
  | @cons gap lexeme ls rows hgap hlexeme _ ih =>
    obtain ⟨spaced', hls, hmark⟩ := h.skip hgap
    cases hls with
    | space => cases hlexeme
    | comment => cases hlexeme
    | closer htail => exact ih htail
    | @symbol _ start token s _ ts _ hsymbol htail =>
      have hcloser : token.isCloser = false := by
        cases token with
        | closer b => cases hsymbol
        | _ => rfl
      -- The mark of the symbol is the one that the blanks before its token have left.
      have hspaced := spaced_of_ofToken? hsymbol
      rw [List.filter_cons_of_pos (by simp [hcloser])]
      refine .cons ⟨?_, ?_⟩ (ih htail)
      · rwa [hspaced]
      · rw [hspaced, hmark]
        simp

/-- **A symbol that is no closing bracket is marked exactly if a space stands among the blanks
before its token.** The symbols of an accepted text are those of its tokens, in their order. -/
theorem marked_iff_space {text : Text} {ts : List Symbol} (h : Symbol.ofText text = .ok ts) :
    (∃ rows, IsDivided (Lexeme.scan 0 0 (normalize text)) rows) ∧
    ∀ rows, IsDivided (Lexeme.scan 0 0 (normalize text)) rows →
      List.Forall₂ IsMarked (ts.filter (!·.isCloser)) (rows.filter (!·.lexeme.token.isCloser)) := by
  refine ⟨exists_isDivided _, fun rows hrows => hrows.areMarked ?_⟩
  obtain ⟨cs, hcs, hts⟩ := bind_eq_ok.1 h
  simp only [Component.ofText] at hcs
  split at hcs
  · cases hcs
  obtain rfl := Except.ok.inj hcs
  have houter : (nest [] (Lexeme.scan 0 0 (normalize text))).2 = [] :=
    List.length_eq_zero_iff.1 (Part.length_nest [] _)
  refine isLaidOut_nest [] (Scan.scan_unbracketed 0 0 _) ?_
  rw [houter, ← List.append_nil ts]
  exact .cons hts .nil

/-- Symbols after a space and a comment, after a comment, and in brackets. -/
def notedSelector : Text := ".a /* note */&/**/(b )c"

theorem marked_iff_space_notedSelector : ∃ ts, Symbol.ofText notedSelector = .ok ts ∧
    ts.filter (!·.isCloser) =
      [⟨.punctuation, ".", false⟩, ⟨.word, "a", false⟩, ⟨.punctuation, "&", true⟩,
        ⟨.punctuation, "(", false⟩, ⟨.word, "b", false⟩, ⟨.word, "c", false⟩] ∧
    (∃ rows, IsDivided (Lexeme.scan 0 0 (normalize notedSelector)) rows) ∧
    ∀ rows, IsDivided (Lexeme.scan 0 0 (normalize notedSelector)) rows →
      List.Forall₂ IsMarked (ts.filter (!·.isCloser)) (rows.filter (!·.lexeme.token.isCloser)) := by
  have hread : Symbol.ofText notedSelector = .ok
      [⟨.punctuation, ".", false⟩, ⟨.word, "a", false⟩, ⟨.punctuation, "&", true⟩,
        ⟨.punctuation, "(", false⟩, ⟨.word, "b", false⟩, ⟨.punctuation, ")", false⟩,
        ⟨.word, "c", false⟩] := by
    decide +kernel
  exact ⟨_, hread, by decide, marked_iff_space hread⟩

/-- Two words with a comment between them. -/
def notedWords : Text := "a/**/b"

/-- **A comment by itself marks nothing**: it is not so that a symbol is marked whenever there is a
blank before its token. -/
theorem comment_marks_nothing : ¬ ∀ (text : Text) (ts : List Symbol) (rows : List Row),
    Symbol.ofText text = .ok ts → IsDivided (Lexeme.scan 0 0 (normalize text)) rows →
    List.Forall₂ (fun s row => s.spaced = true ↔ row.gap ≠ [])
      (ts.filter (!·.isCloser)) (rows.filter (!·.lexeme.token.isCloser)) := by
  intro h
  have hread : Symbol.ofText notedWords = .ok [⟨.word, "a", false⟩, ⟨.word, "b", false⟩] := by
    decide +kernel
  have hscan : Lexeme.scan 0 0 (normalize notedWords) =
      [] ++ ⟨0, .leaf (.ident "a")⟩ ::
        ([⟨1, .leaf (.comment [] true)⟩] ++ ⟨5, .leaf (.ident "b")⟩ :: []) := by
    decide +kernel
  have hrows : IsDivided (Lexeme.scan 0 0 (normalize notedWords))
      [⟨[], ⟨0, .leaf (.ident "a")⟩⟩,
        ⟨[⟨1, .leaf (.comment [] true)⟩], ⟨5, .leaf (.ident "b")⟩⟩] := by
    rw [hscan]
    exact .cons (List.forall_mem_nil _) rfl
      (.cons (List.forall_mem_singleton.2 rfl) rfl (.nil (List.forall_mem_nil _)))
  have hmarks := h notedWords _ _ hread hrows
  simp [Symbol.isCloser, Symbol.isPunctuation, Token.isCloser] at hmarks

end Param

end FluidCss
