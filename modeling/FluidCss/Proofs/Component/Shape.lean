import FluidCss.Proofs.Component.Local

/-!
# What the text of a token looks like

Blanks are tokens of spaces alone; every other token begins with a code point that is no space, and,
unless it opens a call, ends with one. Brackets, marks, at-keywords and comments have the one text
that their value tells.

* `Scan.token_shape`: the shape of the text that a token takes, if the text has no escapes.
* `Scan.token_bracketed`, `Scan.token_told`, `Scan.token_unbracketed`: brackets, spaces and marks in
  every text.
-/

namespace FluidCss

/-- A code point at the end of which a text ends well. -/
def IsGood (p : CodePoint) : Prop := Name.isSpace p = false ∧ p ≠ '('

instance (p : CodePoint) : Decidable (IsGood p) := inferInstanceAs (Decidable (_ ∧ _))

theorem EndsWell.of_forall {t : Text} (hne : t ≠ []) (h : ∀ p ∈ t, IsGood p) : EndsWell t :=
  ⟨t.getLast hne, List.getLast?_eq_some_getLast hne, h _ (List.getLast_mem hne)⟩

theorem EndsWell.append {s t : Text} (h : EndsWell t) : EndsWell (s ++ t) := by
  obtain ⟨p, hp, hgood⟩ := h
  refine ⟨p, ?_, hgood⟩
  rw [List.getLast?_append, hp]
  rfl

theorem endsWell_singleton {p : CodePoint} (h : IsGood p) : EndsWell [p] := ⟨p, rfl, h⟩

theorem Name.isGood_of_isPart {p : CodePoint} (h : isPart p) : IsGood p := by
  refine ⟨isSpace_eq_false_of_isPart h, ?_⟩
  rintro rfl
  revert h
  decide

/-- The text that a bracket has. -/
def Token.Bracketed : Token → Text → Prop
  | .opener bracket, t => t = [.char bracket.openChar]
  | .closer bracket, t => t = [.char bracket.closeChar]
  | _, _ => True

/-- A token that is no bracket, no space and no mark. -/
def Token.Valued : Token → Prop
  | .opener _ | .closer _ | .leaf .space | .leaf (.literal _) | .cut (.literal _) _ => False
  | _ => True

/-- A leaf that is no mark with the text of a bracket. -/
def Leaf.Unbracketed : Leaf → Prop
  | literal text => ∀ b : Bracket, text ≠ [.char b.openChar] ∧ text ≠ [.char b.closeChar]
  | _ => True

/-- The leaf of a token is no bracket. -/
def Token.Unbracketed : Token → Prop
  | .leaf l | .cut l _ => l.Unbracketed
  | _ => True

/-- The text that a space or a mark has. -/
def Token.Told : Token → Text → Prop
  | .leaf .space, t => ∀ p ∈ t, Name.isSpace p
  | .leaf (.literal text), t => t = text
  | _, _ => True

theorem Token.Valued.bracketed {token : Token} (h : token.Valued) (t : Text) :
    token.Bracketed t := by
  cases token <;> trivial

theorem Token.Valued.told {token : Token} (h : token.Valued) (t : Text) : token.Told t := by
  cases token with
  | leaf l => cases l <;> trivial
  | _ => trivial

theorem Token.Valued.unbracketed {token : Token} (h : token.Valued) : token.Unbracketed := by
  cases token with
  | leaf l => cases l <;> trivial
  | cut l f => cases l <;> trivial
  | _ => trivial

/-- The shape of the text that belongs to a token. -/
def Token.Shape : Token → Text → Prop
  | .leaf .space, t => ∀ p ∈ t, Name.isSpace p
  | .leaf (.comment text _), t => EndsWell t ∧ t = "/*" ++ text ++ "*/"
  | .leaf (.atKeyword name), t =>
    EndsWell t ∧ t = "@" ++ name ∧ Name.startsIdent name ∧ ∀ p ∈ name, Name.isPart p
  | .leaf (.literal text), t => EndsWell t ∧ t = text
  | .leaf _, t => EndsWell t
  | .opener bracket, t => t = [.char bracket.openChar]
  | .closer bracket, t => t = [.char bracket.closeChar]
  | .function _, _ | .cut .., _ | .fault _, _ => True

theorem Token.Shape.told {token : Token} {t : Text} (h : token.Shape t) : token.Told t := by
  cases token with
  | leaf l =>
    cases l with
    | space => exact h
    | literal text => exact h.2
    | _ => trivial
  | _ => trivial

namespace Scan

/-! ## Strings, addresses, comments -/

theorem string_ends {quote : CodePoint} {s : Text} (hs : ('\\' : CodePoint) ∉ s) {text : Text}
    {n : Nat} (h : string quote 0 s = (text, n, .closed)) :
    ∃ front, s.take n = front ++ [quote] := by
  induction s generalizing text n with
  | nil => simp [string] at h
  | cons c s ih =>
    rw [List.mem_cons, not_or] at hs
    simp only [string, Ne.symm hs.1, if_false] at h
    split at h
    · rename_i hc
      obtain ⟨-, rfl, -⟩ := (by simpa using h : _ ∧ 1 = n ∧ True)
      exact ⟨[], by simp [hc]⟩
    split at h
    · simp at h
    · simp only [Prod.mk.injEq] at h
      obtain ⟨-, rfl, hclosed⟩ := h
      have hstring : string quote 0 s =
        ((string quote 0 s).1, (string quote 0 s).2.1, .closed) := by
        rw [← hclosed]
      obtain ⟨front, hfront⟩ := ih hs.2 hstring
      exact ⟨c :: front, by rw [List.take_succ_cons, hfront, List.cons_append]⟩

theorem urlEnd_ends {s : Text} {n : Nat} (h : urlEnd s = (n, .closed)) :
    ∃ front, s.take n = front ++ [.char ')'] := by
  induction s generalizing n with
  | nil => simp [urlEnd] at h
  | cons c s ih =>
    by_cases hc : Name.isSpace c
    · rw [urlEnd_cons_space hc] at h
      obtain ⟨rfl, hclosed⟩ := Prod.mk.inj h
      obtain ⟨front, hfront⟩ := ih (Prod.ext rfl hclosed : urlEnd s = ((urlEnd s).1, .closed))
      exact ⟨c :: front, by rw [List.take_succ_cons, hfront, List.cons_append]⟩
    · rw [urlEnd_cons (by simpa using hc)] at h
      split at h
      · rename_i hend
        obtain ⟨rfl, -⟩ := Prod.mk.inj h
        exact ⟨[], by simp [hend]⟩
      · cases (Prod.mk.inj h).2

theorem urlBody_ends {s : Text} (hs : ('\\' : CodePoint) ∉ s) {text : Text} {n : Nat}
    (h : urlBody 0 s = (text, n, .closed)) : ∃ front, s.take n = front ++ [.char ')'] := by
  induction s generalizing text n with
  | nil => simp [urlBody] at h
  | cons c s ih =>
    rw [List.mem_cons, not_or] at hs
    simp only [urlBody, Name.startsEscape_cons (Ne.symm hs.1), Bool.false_eq_true, if_false] at h
    split at h
    · rename_i hc
      obtain ⟨-, rfl, -⟩ := (by simpa using h : _ ∧ 1 = n ∧ True)
      exact ⟨[], by simp [hc]⟩
    split at h
    · simp only [Prod.mk.injEq] at h
      obtain ⟨-, rfl, hclosed⟩ := h
      obtain ⟨front, hfront⟩ := urlEnd_ends
        (Prod.ext rfl hclosed : urlEnd s = ((urlEnd s).1, .closed))
      exact ⟨c :: front, by rw [List.take_succ_cons, hfront, List.cons_append]⟩
    split at h
    · simp at h
    · simp only [Prod.mk.injEq] at h
      obtain ⟨-, rfl, hclosed⟩ := h
      have hbody : urlBody 0 s = ((urlBody 0 s).1, (urlBody 0 s).2.1, .closed) := by rw [← hclosed]
      obtain ⟨front, hfront⟩ := ih hs.2 hbody
      exact ⟨c :: front, by rw [List.take_succ_cons, hfront, List.cons_append]⟩

theorem comment_take {s text : Text} {n : Nat} (h : comment s = (text, n, true)) :
    s.take n = text ++ "*/" := by
  induction s generalizing text n with
  | nil => simp [comment] at h
  | cons c s ih =>
    by_cases hmark : c = '*' ∧ s.head? = some (.char '/')
    · obtain ⟨rfl, hslash⟩ := hmark
      obtain ⟨s, rfl⟩ : ∃ s', s = .char '/' :: s' := by
        cases s with
        | nil => cases hslash
        | cons d s => exact ⟨s, by rw [Option.some.inj hslash]⟩
      obtain ⟨rfl, rfl, -⟩ := (by simpa [comment, eq_comm] using h : text = [] ∧ n = 2 ∧ True)
      rfl
    · rw [comment_cons hmark] at h
      simp only [Prod.mk.injEq] at h
      obtain ⟨rfl, rfl, hclosed⟩ := h
      have hcomment : comment s = ((comment s).1, (comment s).2.1, true) := by rw [← hclosed]
      rw [List.take_succ_cons, ih hcomment, List.cons_append]

/-! ## Numbers and ranges -/

/-- The text ends well after each of its first `n` code points. -/
def Goods (t : Text) (n : Nat) : Prop := ∀ p ∈ t.take n, IsGood p

theorem Goods.add {t : Text} {m n : Nat} (h₁ : Goods t m) (h₂ : Goods (t.drop m) n) :
    Goods t (m + n) := by
  intro p hp
  rw [List.take_add, List.mem_append] at hp
  exact hp.elim (h₁ p) (h₂ p)

theorem goods_zero (t : Text) : Goods t 0 := fun p hp => by simp at hp

theorem goods_one {c : CodePoint} (h : IsGood c) (t : Text) : Goods (c :: t) 1 := by
  intro p hp
  obtain rfl : p = c := by simpa using hp
  exact h

theorem goods_takeWhile {test : CodePoint → Bool} (h : ∀ p, test p → IsGood p) (k : Nat)
    (t : Text) : Goods t ((t.take k).takeWhile test).length := by
  intro p hp
  have hprefix : (t.take k).takeWhile test <+: t :=
    (List.takeWhile_prefix test).trans (List.take_prefix k t)
  rw [← List.prefix_iff_eq_take.1 hprefix] at hp
  exact h p (List.mem_takeWhile_imp hp)

theorem isGood_of_isDigit (p : CodePoint) (h : p.isDigit) : IsGood p :=
  Name.isGood_of_isPart (by simp [Name.isPart, h])

theorem isGood_of_isHex (p : CodePoint) (h : Name.isHex p) : IsGood p := by
  refine ⟨Name.isSpace_eq_false_of_isHex h, ?_⟩
  rintro rfl
  revert h
  decide

theorem goods_digits (t : Text) : Goods t (digitsLength t) := by
  intro p hp
  rw [digitsLength, ← List.prefix_iff_eq_take.1 (List.takeWhile_prefix _)] at hp
  exact isGood_of_isDigit p (List.mem_takeWhile_imp hp)

theorem goods_sign (t : Text) : Goods t (signLength t) := by
  cases t with
  | nil => exact goods_zero _
  | cons c t =>
    simp only [signLength]
    split
    · rename_i h
      rcases h with rfl | rfl <;> exact goods_one (by decide) t
    · exact goods_zero _

theorem goods_exponent (t : Text) : Goods t (exponentLength t) := by
  cases t with
  | nil => exact goods_zero _
  | cons c t =>
    simp only [exponentLength]
    split
    · rename_i h
      have hc : IsGood c := by rcases h with rfl | rfl <;> decide
      split
      · exact goods_zero _
      · rename_i n hn
        have hdigits := goods_digits (t.drop (signLength t))
        rw [hn] at hdigits
        rw [Nat.add_assoc]
        exact (goods_one hc t).add ((goods_sign t).add hdigits)
    · exact goods_zero _

theorem goods_magnitude (t : Text) : Goods t (magnitudeLength t) := by
  simp only [magnitudeLength]
  split
  · rename_i tail htail
    split
    · exact goods_digits t
    · rename_i n hn
      have hdigits := goods_digits tail
      rw [hn] at hdigits
      rw [Nat.add_assoc]
      refine (goods_digits t).add ?_
      rw [htail]
      exact (goods_one (by decide) tail).add hdigits
  · exact goods_digits t

theorem goods_number (t : Text) : Goods t (numberLength t) := by
  simp only [numberLength]
  split
  · exact goods_zero _
  · rename_i n hn
    have hmagnitude := goods_magnitude (t.drop (signLength t))
    rw [hn] at hmagnitude
    exact ((goods_sign t).add hmagnitude).add (goods_exponent _)

theorem goods_range (t : Text) : Goods t (range t).2.2 := by
  have hmark : ∀ p : CodePoint, (p == CodePoint.char '?') = true → IsGood p := by
    intro p hp
    obtain rfl := beq_iff_eq.1 hp
    decide
  have hdigits := goods_takeWhile isGood_of_isHex 6 t
  have htaken := hdigits.add (goods_takeWhile hmark
    (6 - ((t.take 6).takeWhile Name.isHex).length) (t.drop _))
  rw [← List.drop_take] at htaken
  simp only [range]
  split
  · exact htaken
  split
  · rename_i tail htail
    split
    · exact htaken
    -- A second bound stands behind a hyphen.
    · rename_i hupper
      rw [Nat.add_assoc]
      refine htaken.add ?_
      rw [htail]
      exact (goods_one (by decide) tail).add (goods_takeWhile isGood_of_isHex 6 tail)
  · exact htaken

/-! ## Tokens -/

theorem takeWhile_isPart_good (t : Text) : ∀ p ∈ t.takeWhile Name.isPart, IsGood p := fun _ hp =>
  Name.isGood_of_isPart (List.mem_takeWhile_imp hp)

theorem take_length_takeWhile (test : CodePoint → Bool) (t : Text) :
    t.take (t.takeWhile test).length = t.takeWhile test :=
  (List.prefix_iff_eq_take.1 (List.takeWhile_prefix test)).symm

/-- A name without escapes that begins like an identifier. -/
theorem takeWhile_ne_nil_of_startsIdent {t : Text} (hs : ('\\' : CodePoint) ∉ t)
    (h : Name.startsIdent t) : t.takeWhile Name.isPart ≠ [] := by
  have hpos := Name.read_pos h
  rw [Name.read_eq hs] at hpos
  exact List.length_pos_iff.1 hpos

theorem url_shape {s : Text} (hs : ('\\' : CodePoint) ∉ s) {t : Token} {n : Nat}
    (hwhole : t.Whole) (h : url s = (t, n)) : t.Shape ((s.take n)) := by
  obtain ⟨text, k, hbody, rfl, rfl⟩ := (url_eq_iff hwhole).1 h
  obtain ⟨front, hfront⟩ := urlBody_ends (fun hmem => hs (List.mem_of_mem_drop hmem)) hbody
  show EndsWell _
  rw [List.take_add, hfront]
  exact (endsWell_singleton (by decide)).append.append

theorem identLike_shape {s : Text} (hs : ('\\' : CodePoint) ∉ s) (hident : Name.startsIdent s)
    {t : Token} {n : Nat} (hwhole : t.Whole) (h : identLike s = (t, n)) : t.Shape (s.take n) := by
  simp only [identLike, Name.read_eq hs] at h
  split at h
  · rename_i tail htail
    split at h
    · obtain ⟨htoken, rfl⟩ := Prod.mk.inj h
      -- An address ends well by its bracket, and what is in front of it does not matter.
      have hs' : ('\\' : CodePoint) ∉ tail := fun hmem =>
        hs (List.mem_of_mem_drop (htail ▸ List.mem_cons_of_mem _ hmem))
      have hurl : url tail = (t, (url tail).2) := Prod.ext htoken rfl
      obtain ⟨text, k, -, rfl, -⟩ := (url_eq_iff hwhole).1 hurl
      have hends : EndsWell (tail.take (url tail).2) := url_shape hs' hwhole hurl
      have hdrop : s.drop ((s.takeWhile Name.isPart).length + 1) = tail := by
        rw [← List.drop_drop, htail]
        rfl
      show EndsWell _
      rw [List.take_add, hdrop]
      exact hends.append
    · obtain ⟨rfl, -⟩ := Prod.mk.inj h
      trivial
  · obtain ⟨rfl, rfl⟩ := Prod.mk.inj h
    rw [take_length_takeWhile]
    exact .of_forall (takeWhile_ne_nil_of_startsIdent hs hident) (takeWhile_isPart_good s)

theorem numeric_shape {s : Text} (hs : ('\\' : CodePoint) ∉ s) {k : Nat}
    (hk : numberLength s = k + 1)
    {t : Token} {n : Nat} (h : numeric s (k + 1) = (t, n)) : t.Shape (s.take n) := by
  have hs' : ('\\' : CodePoint) ∉ s.drop (k + 1) := fun hmem => hs (List.mem_of_mem_drop hmem)
  have hgoods : Goods s (k + 1) := hk ▸ goods_number s
  simp only [numeric, Name.read_eq hs'] at h
  split at h
  -- A unit is a name.
  · rename_i hunit
    obtain ⟨rfl, rfl⟩ := Prod.mk.inj h
    show EndsWell _
    rw [List.take_add, take_length_takeWhile]
    exact EndsWell.append (.of_forall (takeWhile_ne_nil_of_startsIdent hs' hunit)
      (takeWhile_isPart_good _))
  split at h
  · rename_i hpercent
    obtain ⟨rfl, rfl⟩ := Prod.mk.inj h
    obtain ⟨tail, htail⟩ : ∃ tail, s.drop (k + 1) = .char '%' :: tail := by
      cases hdrop : s.drop (k + 1) with
      | nil => simp [hdrop] at hpercent
      | cons d tail => exact ⟨tail, by simpa [hdrop] using hpercent⟩
    show EndsWell _
    rw [List.take_add, htail]
    exact (endsWell_singleton (by decide)).append
  · obtain ⟨rfl, rfl⟩ := Prod.mk.inj h
    -- Without either the number itself ends well, as it is not empty.
    have hle := numberLength_le s
    rw [hk] at hle
    refine .of_forall (fun he => ?_) hgoods
    have := congrArg List.length he
    rw [List.length_take, List.length_nil] at this
    omega

theorem startsIdent_takeWhile {t : Text} (hs : ('\\' : CodePoint) ∉ t) (h : Name.startsIdent t) :
    Name.startsIdent (t.takeWhile Name.isPart) := by
  cases t with
  | nil => exact h
  | cons p t =>
    rw [List.mem_cons, not_or] at hs
    have hescape := fun t' => Name.startsEscape_cons (Ne.symm hs.1) t'
    by_cases hstart : Name.isStart p
    · have hpart : Name.isPart p := by simp [Name.isPart, hstart]
      simp [Name.startsIdent, hpart, hstart]
    · by_cases hhyphen : p = '-'
      · subst hhyphen
        cases t with
        | nil => simp [Name.startsIdent, Name.startsEscape, hstart] at h
        | cons q t =>
          have hq : Name.startsEscape (q :: t) = false := Name.startsEscape_cons
            (fun he => hs.2 (he ▸ List.mem_cons_self)) t
          -- Behind a hyphen a letter or another hyphen has to follow, and both are parts of names.
          have hnext : Name.isStart q = true ∨ q = '-' := by
            simpa [Name.startsIdent, hstart, hq] using h
          have hpart : Name.isPart q := by
            rcases hnext with hnext | hnext <;> simp [Name.isPart, hnext]
          have hself : Name.isPart (.char '-') := by decide
          rcases hnext with hnext | hnext <;>
            simp [Name.startsIdent, hself, hpart, hstart, hnext]
      · simp [Name.startsIdent, hstart, hhyphen, hescape] at h

/-! ## Marks -/

theorem endsWell_marked {c : CodePoint} (hc : IsGood c) (s : Text) :
    EndsWell ((c :: s).take ((s.takeWhile Name.isPart).length + 1)) := by
  rw [List.take_succ_cons, take_length_takeWhile]
  refine .of_forall (List.cons_ne_nil _ _) fun p hp => ?_
  rcases List.mem_cons.1 hp with rfl | hp
  · exact hc
  · exact takeWhile_isPart_good s p hp

theorem quoted_shape {c : CodePoint} (hc : IsGood c) {s : Text} (hs : ('\\' : CodePoint) ∉ s)
    {t : Token} {n : Nat} (hwhole : t.Whole) (h : quoted c s = (t, n)) :
    t.Shape ((c :: s).take n) := by
  obtain ⟨text, k, hstring, rfl, rfl⟩ := (quoted_eq_iff hwhole).1 h
  obtain ⟨front, hfront⟩ := string_ends hs hstring
  show EndsWell _
  rw [List.take_succ_cons, hfront]
  exact EndsWell.append (s := c :: front) (endsWell_singleton hc)

theorem endsWell_of_mem_longMarks {text : Text} (h : text ∈ longMarks) : EndsWell text := by
  have hgood : ∀ text ∈ longMarks, text ≠ [] ∧ ∀ p ∈ text, IsGood p := by decide
  exact .of_forall (hgood text h).1 (hgood text h).2

theorem IsPunctuation.shape {c : CodePoint} {s : Text} {read : Token × Nat}
    (h : IsPunctuation c s read) (hs : ('\\' : CodePoint) ∉ s) (hc : Name.isSpace c = false)
    (hwhole : read.1.Whole) : read.1.Shape ((c :: s).take read.2) := by
  cases h with
  | opener | closer => rfl
  | string hquote =>
    have hgood : IsGood c := by rcases hquote with rfl | rfl <;> decide
    exact quoted_shape hgood hs hwhole rfl
  | atKeyword hident =>
    simp only [Name.read_eq hs]
    refine ⟨endsWell_marked (by decide) s, ?_, startsIdent_takeWhile hs hident,
      fun p hp => List.mem_takeWhile_imp hp⟩
    rw [List.take_succ_cons, take_length_takeWhile]
    rfl
  | hash =>
    simp only [Name.read_eq hs]
    exact endsWell_marked (by decide) s
  | comment tail =>
    have hcomment : Scan.comment tail = ((Scan.comment tail).1, (Scan.comment tail).2.1, true) := by
      rw [← show (Scan.comment tail).2.2 = true from hwhole]
    have htake : (CodePoint.char '/' :: .char '*' :: tail).take ((Scan.comment tail).2.1 + 2) =
        "/*" ++ (Scan.comment tail).1 ++ "*/" := by
      rw [List.take_succ_cons, List.take_succ_cons, comment_take hcomment]
      rfl
    refine ⟨?_, htake⟩
    rw [htake]
    exact EndsWell.append (.of_forall (by decide) (by decide))
  | @longMark _ _ text tail htext ht =>
    refine ⟨?_, ?_⟩ <;> rw [ht, List.take_left]
    exact endsWell_of_mem_longMarks htext
  | mark hbracket => exact ⟨endsWell_singleton ⟨hc, (hbracket .round).1⟩, rfl⟩

theorem IsToken.shape {c : CodePoint} {s : Text} {read : Token × Nat} (h : IsToken c s read)
    (hs : ('\\' : CodePoint) ∉ c :: s) (hwhole : read.1.Whole) :
    read.1.Shape ((c :: s).take read.2) := by
  cases h with
  | space =>
    intro p hp
    rw [take_length_takeWhile] at hp
    exact List.mem_takeWhile_imp hp
  | range hc tail =>
    have hgood : IsGood c := by rcases hc with rfl | rfl <;> decide
    refine .of_forall (List.cons_ne_nil _ _) ?_
    rw [Nat.add_comm, Nat.add_assoc 1 1]
    exact (goods_one hgood _).add ((goods_one (by decide) _).add (goods_range tail))
  | arrow => exact ⟨show EndsWell "-->" from .of_forall (by decide) (by decide), rfl⟩
  | identLike hident => exact identLike_shape hs hident hwhole rfl
  | numeric hnumber => exact numeric_shape hs hnumber rfl
  | punctuation hc h => exact h.shape (fun hmem => hs (List.mem_cons_of_mem c hmem)) hc hwhole

/-- **The shape of the text that a whole token takes.** -/
theorem token_shape {c : CodePoint} {s : Text} (hs : ('\\' : CodePoint) ∉ c :: s)
    {t : Token} {n : Nat}
    (hwhole : t.Whole) (h : token c s = (t, n)) : t.Shape ((c :: s).take n) := by
  have hread := isToken_token c s
  rw [h] at hread
  exact hread.shape hs hwhole

/-! ## Brackets, spaces and marks

Their texts are as simple next to escapes as elsewhere. -/

theorem url_valued (s : Text) : (url s).1.Valued := by
  simp only [url]
  split <;> trivial

theorem identLike_valued (s : Text) : (identLike s).1.Valued := by
  simp only [identLike]
  split
  · split
    · exact url_valued _
    · trivial
  · trivial

theorem numeric_valued (s : Text) (n : Nat) : (numeric s n).1.Valued := by
  simp only [numeric]
  split
  · trivial
  split <;> trivial

theorem quoted_valued (quote : CodePoint) (s : Text) : (quoted quote s).1.Valued := by
  simp only [quoted]
  split <;> trivial

theorem IsPunctuation.bracketed {c : CodePoint} {s : Text} {read : Token × Nat}
    (h : IsPunctuation c s read) : read.1.Bracketed ((c :: s).take read.2) := by
  cases h with
  | opener | closer => rfl
  | string => exact (quoted_valued c s).bracketed _
  | _ => trivial

theorem IsPunctuation.told {c : CodePoint} {s : Text} {read : Token × Nat}
    (h : IsPunctuation c s read) : read.1.Told ((c :: s).take read.2) := by
  cases h with
  | string => exact (quoted_valued c s).told _
  | longMark _ ht =>
    rw [ht, List.take_left]
    rfl
  | mark => rfl
  | _ => trivial

theorem IsPunctuation.unbracketed {c : CodePoint} {s : Text} {read : Token × Nat}
    (h : IsPunctuation c s read) : read.1.Unbracketed := by
  cases h with
  | string => exact (quoted_valued c s).unbracketed
  | longMark htext =>
    have hlong := two_le_length_of_mem_longMarks htext
    intro b
    constructor <;> rintro rfl <;> exact absurd hlong (by simp)
  | mark hbracket =>
    intro b
    exact ⟨fun he => (hbracket b).1 (List.cons.inj he).1,
      fun he => (hbracket b).2 (List.cons.inj he).1⟩
  | _ => trivial

/-- **A bracket takes its own code point**, whatever stands around it. -/
theorem token_bracketed (c : CodePoint) (s : Text) :
    (token c s).1.Bracketed ((c :: s).take (token c s).2) := by
  have h := isToken_token c s
  generalize token c s = read at h ⊢
  cases h with
  | identLike => exact (identLike_valued _).bracketed _
  | numeric => exact (numeric_valued _ _).bracketed _
  | punctuation _ h => exact h.bracketed
  | _ => trivial

/-- **A space takes spaces and a mark its own text**, whatever stands around it. -/
theorem token_told (c : CodePoint) (s : Text) :
    (token c s).1.Told ((c :: s).take (token c s).2) := by
  have h := isToken_token c s
  generalize token c s = read at h ⊢
  cases h with
  | space =>
    rw [take_length_takeWhile]
    exact fun p hp => List.mem_takeWhile_imp hp
  | range => trivial
  | arrow => rfl
  | identLike => exact (identLike_valued _).told _
  | numeric => exact (numeric_valued _ _).told _
  | punctuation _ h => exact h.told

/-- **No mark is a bracket.** -/
theorem token_unbracketed (c : CodePoint) (s : Text) : (token c s).1.Unbracketed := by
  have h := isToken_token c s
  generalize token c s = read at h ⊢
  cases h with
  | arrow =>
    intro b
    cases b <;> decide
  | identLike => exact (identLike_valued _).unbracketed
  | numeric => exact (numeric_valued _ _).unbracketed
  | punctuation _ h => exact h.unbracketed
  | _ => trivial

/-- What holds of every token that is read holds of the tokens of a text. -/
theorem forall_mem_scan {P : Token → Prop} (h : ∀ c s, P (token c s).1) (start skip : Nat)
    (t : Text) :
    ∀ lexeme ∈ Lexeme.scan start skip t, P lexeme.token := by
  induction t generalizing start skip with
  | nil => exact fun lexeme hmem => absurd hmem List.not_mem_nil
  | cons c t ih =>
    cases skip with
    | succ skip => exact ih (start + 1) skip
    | zero => exact List.forall_mem_cons.2 ⟨h c t, ih (start + 1) _⟩

theorem scan_unbracketed (start skip : Nat) (t : Text) :
    ∀ lexeme ∈ Lexeme.scan start skip t, lexeme.token.Unbracketed :=
  forall_mem_scan token_unbracketed start skip t

end Scan

end FluidCss
