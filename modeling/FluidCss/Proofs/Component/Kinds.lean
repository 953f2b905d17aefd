import FluidCss.Component.Scan

/-!
# The kinds of tokens

What the scanner may make of a text, with one constructor for each of its branches. What is to hold
of every token is proved of each kind, and the branches of the scanner are taken apart here only.

* `Scan.isPunctuation_punctuation`: a string, an at-keyword, a hash, a comment, a bracket or a mark.
* `Scan.isToken_token`: every token.
-/

namespace FluidCss

namespace Scan

/-- The marks of several code points that begin with punctuation. -/
def longMarks : List Text := ["<!--", "||", "~=", "|=", "^=", "$=", "*="]

/-- What is read at a punctuation mark, with its length. -/
inductive IsPunctuation : CodePoint → Text → Token × Nat → Prop
  | opener (b : Bracket) (t : Text) : IsPunctuation b.openChar t (.opener b, 1)
  | closer (b : Bracket) (t : Text) : IsPunctuation b.closeChar t (.closer b, 1)
  | string {quote : CodePoint} (h : quote = '"' ∨ quote = '\'') (t : Text) :
      IsPunctuation quote t (quoted quote t)
  | atKeyword {t : Text} (h : Name.startsIdent t) :
      IsPunctuation '@' t (.leaf (.atKeyword (Name.read 0 t).1), (Name.read 0 t).2 + 1)
  | hash (t : Text) :
      IsPunctuation '#' t
        (.leaf (.hash (Name.read 0 t).1 (Name.startsIdent t)), (Name.read 0 t).2 + 1)
  | comment (t : Text) :
      IsPunctuation '/' (.char '*' :: t)
        (.leaf (.comment (comment t).1 (comment t).2.2), (comment t).2.1 + 2)
  | longMark {c : CodePoint} {t text tail : Text} (h : text ∈ longMarks)
      (ht : c :: t = text ++ tail) :
      IsPunctuation c t (literal text, text.length)
  | mark {c : CodePoint} (h : ∀ b : Bracket, c ≠ b.openChar ∧ c ≠ b.closeChar) (t : Text) :
      IsPunctuation c t (literal [c], 1)

/-- What is read at the start of a text, with its length. -/
inductive IsToken : CodePoint → Text → Token × Nat → Prop
  | space {c : CodePoint} (h : Name.isSpace c) (t : Text) :
      IsToken c t (.leaf .space, ((c :: t).takeWhile Name.isSpace).length)
  | range {c : CodePoint} (h : c = 'U' ∨ c = 'u') (t : Text) :
      IsToken c (.char '+' :: t) (.leaf (.unicodeRange (range t).1 (range t).2.1),
        (range t).2.2 + 2)
  | arrow (t : Text) : IsToken '-' (.char '-' :: .char '>' :: t) (literal "-->", 3)
  | identLike {c : CodePoint} {t : Text} (h : Name.startsIdent (c :: t)) :
      IsToken c t (identLike (c :: t))
  | numeric {c : CodePoint} {t : Text} {n : Nat} (h : numberLength (c :: t) = n + 1) :
      IsToken c t (numeric (c :: t) (n + 1))
  | punctuation {c : CodePoint} {t : Text} {read : Token × Nat} (hc : Name.isSpace c = false)
      (h : IsPunctuation c t read) : IsToken c t read

theorem two_le_length_of_mem_longMarks {text : Text} (h : text ∈ longMarks) : 2 ≤ text.length := by
  revert text
  decide

/-- **Punctuation is of one of these kinds.** -/
theorem isPunctuation_punctuation (c : CodePoint) (t : Text) :
    IsPunctuation c t (punctuation c t) := by
  unfold punctuation
  split
  · exact .opener .round _
  · exact .opener .square _
  · exact .opener .curly _
  · exact .closer .round _
  · exact .closer .square _
  · exact .closer .curly _
  · exact .string (.inl rfl) _
  · exact .string (.inr rfl) _
  · split
    · rename_i h
      exact .atKeyword h
    · exact .mark (fun b => by cases b <;> decide) _
  · split <;> split
    · exact .hash _
    · exact .mark (fun b => by cases b <;> decide) _
    · exact .hash _
    · exact .mark (fun b => by cases b <;> decide) _
  · exact .comment _
  · exact .longMark (by decide) rfl
  · exact .longMark (by decide) rfl
  · split
    · rename_i h
      obtain ⟨rfl, rfl | rfl | rfl | rfl | rfl⟩ := h <;> exact .longMark (by decide) rfl
    · exact .mark (fun b => by cases b <;> simp_all [Bracket.openChar, Bracket.closeChar]) _
  · exact .mark (fun b => by cases b <;> simp_all [Bracket.openChar, Bracket.closeChar]) _

/-- **A token is of one of these kinds.** -/
theorem isToken_token (c : CodePoint) (t : Text) : IsToken c t (token c t) := by
  unfold token
  simp only
  split
  · rename_i hspace
    exact .space hspace t
  rename_i hspace
  split
  · rename_i hrange
    unfold startsRange at hrange
    split at hrange
    · rename_i heq
      obtain ⟨rfl, rfl⟩ := List.cons.inj heq
      simp only [Bool.and_eq_true, Bool.or_eq_true, beq_iff_eq] at hrange
      exact .range hrange.1 _
    · cases hrange
  split
  · rename_i harrow
    obtain ⟨tail, htail⟩ : ∃ tail, c :: t = "-->" ++ tail := ⟨(c :: t).drop 3, by
      rw [← harrow, List.take_append_drop]⟩
    obtain ⟨rfl, rfl⟩ := List.cons.inj htail
    exact .arrow tail
  split
  · rename_i hident
    exact .identLike hident
  split
  · exact .punctuation (by simpa using hspace) (isPunctuation_punctuation c t)
  · rename_i hnumber
    exact .numeric hnumber

end Scan

end FluidCss
