import FluidCss.Proofs.Component.Kinds

/-!
# Lengths of tokens

A token has at least one code point, and no more than the text has from there on. So the tokens of a
text lie side by side and cover it.

* `Scan.token_length`: the bounds for one token.
-/

namespace FluidCss

namespace Name

theorem read_le (skip : Nat) (t : Text) : (read skip t).2 ≤ t.length := by
  induction t generalizing skip with
  | nil => simp [read]
  | cons p t ih =>
    cases skip with
    | succ skip => simpa [read] using ih skip
    | zero =>
      simp only [read]
      split
      · simpa using ih 0
      split
      · simpa using ih (escape t).2
      · simp

theorem read_pos {t : Text} (h : startsIdent t) : 0 < (read 0 t).2 := by
  cases t with
  | nil => cases h
  | cons p t =>
    simp only [startsIdent] at h
    have hpart : isPart p = true ∨ startsEscape (p :: t) = true := by
      split at h
      · rename_i hstart
        exact .inl (by simp [isPart, hstart])
      split at h
      · rename_i hhyphen
        exact .inl (by simp [isPart, hhyphen])
      · exact .inr h
    rcases hpart with hpart | hescape
    · simp [read, hpart]
    · by_cases hpart : isPart p <;> simp [read, hpart, hescape]

end Name

namespace Scan

theorem length_takeWhile_le {α : Type} (p : α → Bool) (as : List α) :
    (as.takeWhile p).length ≤ as.length :=
  (List.takeWhile_sublist p).length_le

theorem string_le (quote : CodePoint) (skip : Nat) (t : Text) :
    (string quote skip t).2.1 ≤ t.length := by
  induction t generalizing skip with
  | nil => simp [string]
  | cons c t ih =>
    cases skip with
    | succ skip => simpa [string] using ih skip
    | zero =>
      simp only [string]
      split
      · simp
      split
      · simp
      split
      · split
        · simp
        · simpa using ih 1
        · simpa using ih _
      · simpa using ih 0

theorem badUrlLength_le (t : Text) : badUrlLength t ≤ t.length := by
  fun_induction badUrlLength t <;> simp_all <;> omega

theorem urlEnd_le (t : Text) : (urlEnd t).1 ≤ t.length := by
  have h := length_takeWhile_le Name.isSpace t
  simp only [urlEnd]
  split
  · exact h
  · rename_i c tail hdrop
    have hlength := congrArg List.length hdrop
    simp only [List.length_drop, List.length_cons] at hlength
    split
    · omega
    · have := badUrlLength_le (c :: tail)
      simp only [List.length_cons] at this
      omega

theorem urlBody_le (skip : Nat) (t : Text) : (urlBody skip t).2.1 ≤ t.length := by
  induction t generalizing skip with
  | nil => simp [urlBody]
  | cons c t ih =>
    cases skip with
    | succ skip => simpa [urlBody] using ih skip
    | zero =>
      simp only [urlBody]
      split
      · simp
      split
      · simpa using urlEnd_le t
      split
      · simpa using ih _
      split
      · have := badUrlLength_le t
        simp only [List.length_cons]
        omega
      · simpa using ih 0

theorem url_le (t : Text) : (url t).2 ≤ t.length := by
  have h₁ := length_takeWhile_le Name.isSpace t
  have h₂ := urlBody_le 0 (t.drop (t.takeWhile Name.isSpace).length)
  rw [List.length_drop] at h₂
  have h₃ : (url t).2 = (t.takeWhile Name.isSpace).length +
    (urlBody 0 (t.drop (t.takeWhile Name.isSpace).length)).2.1 := rfl
  omega

theorem comment_le (t : Text) : (comment t).2.1 ≤ t.length := by
  fun_induction comment t <;> simp_all

theorem signLength_le (t : Text) : signLength t ≤ t.length := by
  cases t with
  | nil => simp [signLength]
  | cons c t => simp only [signLength]; split <;> simp

theorem digitsLength_le (t : Text) : digitsLength t ≤ t.length := length_takeWhile_le _ t

theorem exponentLength_le (t : Text) : exponentLength t ≤ t.length := by
  cases t with
  | nil => simp [exponentLength]
  | cons c t =>
    simp only [exponentLength]
    split
    · have h₁ := signLength_le t
      have h₂ := digitsLength_le (t.drop (signLength t))
      rw [List.length_drop] at h₂
      split
      · simp
      · simp only [List.length_cons]
        omega
    · simp

theorem magnitudeLength_le (t : Text) : magnitudeLength t ≤ t.length := by
  have h := digitsLength_le t
  simp only [magnitudeLength]
  split
  · rename_i tail hdrop
    have hlength := congrArg List.length hdrop
    have htail := digitsLength_le tail
    simp only [List.length_drop, List.length_cons] at hlength
    split <;> omega
  · exact h

theorem numberLength_le (t : Text) : numberLength t ≤ t.length := by
  have h₁ := signLength_le t
  have h₂ := magnitudeLength_le (t.drop (signLength t))
  rw [List.length_drop] at h₂
  simp only [numberLength]
  split
  · simp
  · rename_i n hn
    have h₃ := exponentLength_le (t.drop (signLength t + (n + 1)))
    rw [List.length_drop] at h₃
    omega

theorem range_le (t : Text) : (range t).2.2 ≤ t.length := by
  have h₁ := length_takeWhile_le Name.isHex (t.take 6)
  have h₂ := length_takeWhile_le (· == CodePoint.char '?')
    ((t.take 6).drop ((t.take 6).takeWhile Name.isHex).length)
  rw [List.length_drop] at h₂
  have h₃ := List.length_take_le 6 t
  have h₃' : (t.take 6).length ≤ t.length := List.length_take_le' 6 t
  simp only [range]
  split
  · simp only
    omega
  split
  -- The range has a second bound behind a hyphen.
  · rename_i tail hdrop
    have hlength := congrArg List.length hdrop
    have htail := length_takeWhile_le Name.isHex (tail.take 6)
    have htail' : (tail.take 6).length ≤ tail.length := List.length_take_le' 6 tail
    simp only [List.length_drop, List.length_cons] at hlength
    split <;> simp only <;> omega
  · simp only
    omega

/-! ## Tokens -/

theorem identLike_length {t : Text} (h : Name.startsIdent t) :
    0 < (identLike t).2 ∧ (identLike t).2 ≤ t.length := by
  have hpos := Name.read_pos h
  have hle := Name.read_le 0 t
  simp only [identLike]
  split
  · rename_i tail hdrop
    have hlength := congrArg List.length hdrop
    simp only [List.length_drop, List.length_cons] at hlength
    have hurl := url_le tail
    split <;> simp only <;> omega
  · exact ⟨hpos, hle⟩

theorem numeric_length {t : Text} {n : Nat} (hpos : 0 < n) (hle : n ≤ t.length) :
    0 < (numeric t n).2 ∧ (numeric t n).2 ≤ t.length := by
  simp only [numeric]
  split
  · have := Name.read_le 0 (t.drop n)
    rw [List.length_drop] at this
    simp only
    omega
  split
  · rename_i hhead
    have hne : t.drop n ≠ [] := fun he => by simp [he] at hhead
    have := List.length_pos_iff.2 hne
    rw [List.length_drop] at this
    simp only
    omega
  · exact ⟨hpos, hle⟩

theorem quoted_length (quote : CodePoint) (t : Text) :
    0 < (quoted quote t).2 ∧ (quoted quote t).2 ≤ t.length + 1 := by
  have h := string_le quote 0 t
  unfold quoted
  generalize string quote 0 t = read at h
  obtain ⟨text, n, ending⟩ := read
  cases ending <;> exact ⟨Nat.succ_pos n, Nat.succ_le_succ h⟩

theorem IsPunctuation.length {c : CodePoint} {t : Text} {read : Token × Nat}
    (h : IsPunctuation c t read) : 0 < read.2 ∧ read.2 ≤ t.length + 1 := by
  cases h with
  | opener | closer | mark => exact ⟨Nat.one_pos, Nat.le_add_left 1 _⟩
  | string => exact quoted_length c t
  | atKeyword | hash => exact ⟨Nat.succ_pos _, Nat.succ_le_succ (Name.read_le 0 t)⟩
  | comment tail => exact ⟨Nat.succ_pos _, Nat.add_le_add_right (comment_le tail) 2⟩
  | longMark htext ht =>
    have hpos := two_le_length_of_mem_longMarks htext
    have hlength := congrArg List.length ht
    rw [List.length_cons, List.length_append] at hlength
    simp only
    omega

theorem IsToken.length {c : CodePoint} {t : Text} {read : Token × Nat} (h : IsToken c t read) :
    0 < read.2 ∧ read.2 ≤ t.length + 1 := by
  cases h with
  | space hspace =>
    have := length_takeWhile_le Name.isSpace t
    simp only [List.takeWhile_cons, hspace, if_true, List.length_cons]
    omega
  | range _ tail => exact ⟨Nat.succ_pos _, Nat.add_le_add_right (range_le tail) 2⟩
  | arrow => simp
  | identLike hident => exact identLike_length hident
  | numeric hnumber => exact numeric_length (Nat.succ_pos _) (hnumber ▸ numberLength_le (c :: t))
  | punctuation _ h => exact h.length

theorem punctuation_length (c : CodePoint) (t : Text) :
    0 < (punctuation c t).2 ∧ (punctuation c t).2 ≤ t.length + 1 :=
  (isPunctuation_punctuation c t).length

/-- **A token has a code point, and no more than there are.** -/
theorem token_length (c : CodePoint) (t : Text) :
    0 < (token c t).2 ∧ (token c t).2 ≤ t.length + 1 :=
  (isToken_token c t).length

end Scan

end FluidCss
