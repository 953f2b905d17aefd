import FluidCss.Proofs.Component.Piece
import FluidCss.Proofs.Component.Stop

/-!
# Tokens do not depend on what follows

A token that is whole is read the same whether a stop or the end of the text follows the part of the
text that it stands in, if that part does not end in a space, an opening bracket or an open escape.
For strings, addresses and comments this is because they end within the part, for names and numbers
because of the stop. The bracket matters only where the token was not read of the part by itself.

* `Scan.token_append`, `Scan.token_extend`: one token.
* `Piece.Spelled.move`: a row of pieces in front of one text can stand in front of another.
* `Piece.Spelled.extend`: a row of pieces that is a text can stand in front of another.
-/

namespace FluidCss

/-- A token without a fault, closed if it can be. -/
def Token.Whole : Token → Prop
  | .leaf (.comment _ closed) => closed = true
  | .leaf _ | .function _ | .opener _ | .closer _ => True
  | .cut .. | .fault _ => False

theorem Token.Whole.ne_of_not_whole {token other : Token} {m n : Nat} (h : token.Whole)
    (hother : ¬ other.Whole) : (other, m) ≠ (token, n) := by
  intro he
  rw [← (Prod.mk.inj he).1] at h
  exact hother h

/-- A text that ends in neither a space nor an opening bracket. -/
def EndsWell (t : Text) : Prop := ∃ p, t.getLast? = some p ∧ Name.isSpace p = false ∧ p ≠ '('

theorem EndsWell.exists_mem {t : Text} (h : EndsWell t) : ∃ p ∈ t, Name.isSpace p = false := by
  obtain ⟨p, hp, hspace, -⟩ := h
  exact ⟨p, List.mem_of_getLast? hp, hspace⟩

theorem EndsWell.of_append {s t : Text} (h : EndsWell (s ++ t)) (ht : t ≠ []) : EndsWell t := by
  obtain ⟨p, hp, hspace⟩ := h
  refine ⟨p, ?_, hspace⟩
  rw [List.getLast?_append, List.getLast?_eq_some_getLast ht] at hp
  rw [List.getLast?_eq_some_getLast ht]
  exact hp

theorem EndsWell.drop {s tail : Text} {n : Nat} (h : EndsWell s)
    (hd : s.drop n = .char '(' :: tail) : EndsWell tail := by
  rw [← List.take_append_drop n s, hd] at h
  have h : EndsWell ([.char '('] ++ tail) := h.of_append (List.cons_ne_nil _ _)
  refine h.of_append ?_
  rintro rfl
  obtain ⟨p, hp, -, hne⟩ := h
  exact hne (Option.some.inj hp).symm

namespace Scan

/-! ## Strings, addresses, comments -/

/-- Two readings that go on after a code point, which may be put in front of what they read. -/
theorem push_iff {σ : Type} {f : Text → Text} {a b : Text × Nat × σ} {text : Text} {n : Nat} {e : σ}
    (h : ∀ t k, k + 1 = n → (a = (t, k, e) ↔ b = (t, k, e))) :
    (f a.1, a.2.1 + 1, a.2.2) = (text, n, e) ↔ (f b.1, b.2.1 + 1, b.2.2) = (text, n, e) := by
  obtain ⟨ta, ka, ea⟩ := a
  obtain ⟨tb, kb, eb⟩ := b
  simp only [Prod.mk.injEq] at h ⊢
  constructor
  · rintro ⟨ht, hn, he⟩
    obtain ⟨rfl, rfl, rfl⟩ := (h ta ka hn).1 ⟨rfl, rfl, he⟩
    exact ⟨ht, hn, rfl⟩
  · rintro ⟨ht, hn, he⟩
    obtain ⟨rfl, rfl, rfl⟩ := (h tb kb hn).2 ⟨rfl, rfl, he⟩
    exact ⟨ht, hn, rfl⟩

theorem string_ne_closed_zero (quote : CodePoint) (skip : Nat) (t text : Text) :
    string quote skip t ≠ (text, 0, .closed) := by
  cases t with
  | nil => simp [string]
  | cons c t =>
    cases skip with
    | succ skip => simp [string]
    | zero =>
      simp only [string]
      split
      · simp
      split
      · simp
      split
      · split <;> simp
      · simp

theorem string_append {quote : CodePoint} {s : Text} (hs : isSealed s) (v : Text) {skip : Nat}
    {text : Text} {n : Nat} (hn : n ≤ s.length) :
    string quote skip (s ++ v) = (text, n, .closed) ↔ string quote skip s = (text, n, .closed) := by
  induction s generalizing skip text n with
  | nil =>
    obtain rfl : n = 0 := Nat.le_zero.1 hn
    exact iff_of_false (string_ne_closed_zero _ _ _ _) (string_ne_closed_zero _ _ _ _)
  | cons c s ih =>
    obtain ⟨hescape, hs'⟩ := isSealed_cons.1 hs
    -- One more code point in front of both readings.
    have hpush {skip : Nat} {f : Text → Text} {text : Text} :
        (f (string quote skip (s ++ v)).1, (string quote skip (s ++ v)).2.1 + 1,
          (string quote skip (s ++ v)).2.2) = (text, n, .closed) ↔
        (f (string quote skip s).1, (string quote skip s).2.1 + 1, (string quote skip s).2.2) =
          (text, n, .closed) := push_iff fun t k hk => ih hs' (by
      rw [List.length_cons] at hn
      omega)
    rw [List.cons_append]
    cases skip with
    | succ skip => exact hpush (f := id)
    | zero =>
      simp only [string]
      split
      · rfl
      split
      · rfl
      split
      · rename_i hc
        -- The backslash is sealed, so its escape ends within the first part.
        have hends := hescape hc
        cases s with
        | nil => cases hends
        | cons d s =>
          by_cases hd : d = '\n'
          · subst hd
            exact hpush (f := id)
          · have hread := Name.escape_append hends v
            rw [List.cons_append] at hread hpush ⊢
            simpa [hd, hread] using hpush (f := fun t => (Name.escape (d :: s)).1 :: t)
      · exact hpush (f := fun t => c :: t)

theorem urlEnd_cons_space {c : CodePoint} (h : Name.isSpace c) (t : Text) :
    urlEnd (c :: t) = ((urlEnd t).1 + 1, (urlEnd t).2) := by
  simp only [urlEnd, List.takeWhile_cons, h, if_true, List.length_cons, List.drop_succ_cons]
  split
  · rfl
  split
  · rfl
  · simp [Nat.add_right_comm]

theorem urlEnd_cons {c : CodePoint} (h : Name.isSpace c = false) (t : Text) :
    urlEnd (c :: t) =
      if c = ')' then (1, .closed) else (badUrlLength (c :: t), .broken) := by
  simp [urlEnd, h]

theorem urlEnd_ne_closed_zero (t : Text) : urlEnd t ≠ (0, .closed) := by
  simp only [urlEnd]
  split
  · simp
  split <;> simp

theorem urlEnd_append {s : Text} (v : Text) {n : Nat} (hn : n ≤ s.length) :
    urlEnd (s ++ v) = (n, .closed) ↔ urlEnd s = (n, .closed) := by
  induction s generalizing n with
  | nil =>
    obtain rfl : n = 0 := Nat.le_zero.1 hn
    exact iff_of_false (urlEnd_ne_closed_zero _) (urlEnd_ne_closed_zero _)
  | cons c s ih =>
    rw [List.cons_append]
    by_cases hc : Name.isSpace c
    · rw [urlEnd_cons_space hc, urlEnd_cons_space hc]
      cases n with
      | zero => simp
      | succ n =>
        have := ih (Nat.le_of_succ_le_succ hn)
        simpa [Prod.ext_iff] using this
    · have hc : Name.isSpace c = false := by simpa using hc
      rw [urlEnd_cons hc, urlEnd_cons hc]
      by_cases hend : c = ')' <;> simp [hend]

theorem urlBody_ne_closed_zero (skip : Nat) (t text : Text) :
    urlBody skip t ≠ (text, 0, .closed) := by
  cases t with
  | nil => simp [urlBody]
  | cons c t =>
    cases skip with
    | succ skip => simp [urlBody]
    | zero =>
      simp only [urlBody]
      split
      · simp
      split
      · simp
      split
      · simp
      split
      · simp
      · simp

theorem urlBody_append {s : Text} (hs : isSealed s) (v : Text) {skip : Nat} {text : Text} {n : Nat}
    (hn : n ≤ s.length) :
    urlBody skip (s ++ v) = (text, n, .closed) ↔ urlBody skip s = (text, n, .closed) := by
  induction s generalizing skip text n with
  | nil =>
    obtain rfl : n = 0 := Nat.le_zero.1 hn
    exact iff_of_false (urlBody_ne_closed_zero _ _ _) (urlBody_ne_closed_zero _ _ _)
  | cons c s ih =>
    obtain ⟨hescape, hs'⟩ := isSealed_cons.1 hs
    -- One more code point in front of both readings.
    have hpush {skip : Nat} {f : Text → Text} {text : Text} :
        (f (urlBody skip (s ++ v)).1, (urlBody skip (s ++ v)).2.1 + 1,
          (urlBody skip (s ++ v)).2.2) = (text, n, .closed) ↔
        (f (urlBody skip s).1, (urlBody skip s).2.1 + 1, (urlBody skip s).2.2) =
          (text, n, .closed) := push_iff fun t k hk => ih hs' (by
      rw [List.length_cons] at hn
      omega)
    rw [List.cons_append]
    cases skip with
    | succ skip => exact hpush (f := id)
    | zero =>
      simp only [urlBody, Name.startsEscape_cons_append hescape v]
      split
      · rfl
      split
      · cases n with
        | zero => simp
        | succ n =>
          have := urlEnd_append v (Nat.le_of_succ_le_succ hn)
          simp only [Prod.mk.injEq, Nat.add_right_cancel_iff]
          simpa [Prod.ext_iff] using fun _ => this
      split
      · rename_i hstarts
        have hends : Name.endsEscape s := hescape (Name.eq_backslash_of_startsEscape hstarts)
        rw [Name.escape_append hends]
        exact hpush (f := fun t => (Name.escape s).1 :: t)
      split
      · simp
      · exact hpush (f := fun t => c :: t)

theorem two_le_of_comment_closed {t text : Text} {n : Nat} (h : comment t = (text, n, true)) :
    2 ≤ n := by
  induction t generalizing text n with
  | nil => simp [comment] at h
  | cons c t ih =>
    unfold comment at h
    split at h
    · simp only [Prod.mk.injEq] at h
      omega
    · rename_i c' cs _ hcons
      obtain ⟨rfl, rfl⟩ := List.cons.inj hcons
      obtain ⟨-, rfl, hclosed⟩ := (by simpa only [Prod.mk.injEq] using h :
        _ ∧ (comment t).2.1 + 1 = n ∧ (comment t).2.2 = true)
      have hcomment : comment t = ((comment t).1, (comment t).2.1, true) := by rw [← hclosed]
      exact Nat.le_succ_of_le (ih hcomment)
    · rename_i hnil
      cases hnil

theorem comment_cons {c : CodePoint} {t : Text} (h : ¬ (c = '*' ∧ t.head? = some (.char '/'))) :
    comment (c :: t) = (c :: (comment t).1, (comment t).2.1 + 1, (comment t).2.2) := by
  rw [comment]
  rintro t' hc rfl
  exact h ⟨hc, rfl⟩

theorem comment_append {s : Text} (v : Text) {text : Text} {n : Nat} (hn : n ≤ s.length) :
    comment (s ++ v) = (text, n, true) ↔ comment s = (text, n, true) := by
  induction s generalizing text n with
  | nil =>
    exact iff_of_false (fun h => absurd (two_le_of_comment_closed h) (by simp at hn; omega))
      (fun h => absurd (two_le_of_comment_closed h) (by simp at hn; omega))
  | cons c s ih =>
    cases s with
    | nil =>
      exact iff_of_false (fun h => absurd (two_le_of_comment_closed h) (by simp at hn; omega))
        (fun h => absurd (two_le_of_comment_closed h) (by simp at hn; omega))
    | cons d s =>
      by_cases hmark : c = '*' ∧ d = '/'
      · obtain ⟨rfl, rfl⟩ := hmark
        rfl
      · rw [List.cons_append, comment_cons (by simpa using hmark),
          comment_cons (by simpa using hmark)]
        refine push_iff fun t k hk => ih ?_
        rw [List.length_cons] at hn
        omega

/-! ## Names, calls and addresses -/

theorem exists_dropWhile_eq_cons {p : CodePoint} {s : Text} (hp : p ∈ s)
    (hspace : Name.isSpace p = false) : ∃ c tail, s.dropWhile Name.isSpace = c :: tail := by
  induction s with
  | nil => cases hp
  | cons d s ih =>
    by_cases hd : Name.isSpace d
    · rcases List.mem_cons.1 hp with rfl | hp
      · simp [hspace] at hd
      · simpa [hd] using ih hp
    · exact ⟨d, s, by simp [hd]⟩

theorem startsUrl_append {s : Text} (v : Text) (h : ∃ p ∈ s, Name.isSpace p = false) :
    startsUrl (s ++ v) = startsUrl s := by
  obtain ⟨p, hp, hspace⟩ := h
  obtain ⟨c, tail, hc⟩ := exists_dropWhile_eq_cons hp hspace
  have happend : (s ++ v).dropWhile Name.isSpace = c :: (tail ++ v) := by
    rw [List.dropWhile_append, hc]
    rfl
  simp only [startsUrl, hc, happend]

theorem url_eq_iff {t : Text} {token : Token} {n : Nat} (h : token.Whole) :
    url t = (token, n) ↔ ∃ text k,
      urlBody 0 (t.drop (t.takeWhile Name.isSpace).length) = (text, k, .closed) ∧
      token = .leaf (.url text) ∧ n = (t.takeWhile Name.isSpace).length + k := by
  simp only [url]
  generalize urlBody 0 (t.drop (t.takeWhile Name.isSpace).length) = read
  obtain ⟨text, k, ending⟩ := read
  cases ending with
  | closed =>
    constructor
    · intro he
      obtain ⟨htoken, hk⟩ := Prod.mk.inj he
      exact ⟨text, k, rfl, htoken.symm, hk.symm⟩
    · rintro ⟨_, _, he, htoken, hk⟩
      cases he
      rw [htoken, hk]
  | cut => exact iff_of_false (h.ne_of_not_whole id) (by simp)
  | broken => exact iff_of_false (h.ne_of_not_whole id) (by simp)

theorem url_append {s : Text} (hs : isSealed s)
    (h : ∃ p ∈ s, Name.isSpace p = false) (v : Text) {token : Token} {n : Nat}
    (hwhole : token.Whole) (hn : n ≤ s.length) :
    url (s ++ v) = (token, n) ↔ url s = (token, n) := by
  obtain ⟨p, hp, hspace⟩ := h
  rw [url_eq_iff hwhole, url_eq_iff hwhole, takeWhile_append_of_mem hp hspace,
    drop_length_takeWhile_append]
  refine exists_congr fun text => exists_congr fun k => ?_
  refine and_congr_left fun ⟨_, hk⟩ => urlBody_append (isSealed_drop hs _) v ?_
  rw [List.length_drop]
  omega

theorem quoted_eq_iff {quote : CodePoint} {t : Text} {token : Token} {n : Nat} (h : token.Whole) :
    quoted quote t = (token, n) ↔ ∃ text k, string quote 0 t = (text, k, .closed) ∧
      token = .leaf (.string text) ∧ n = k + 1 := by
  simp only [quoted]
  generalize string quote 0 t = read
  obtain ⟨text, k, ending⟩ := read
  cases ending with
  | closed =>
    constructor
    · intro he
      obtain ⟨htoken, hk⟩ := Prod.mk.inj he
      exact ⟨text, k, rfl, htoken.symm, hk.symm⟩
    · rintro ⟨_, _, he, htoken, hk⟩
      cases he
      rw [htoken, hk]
  | cut => exact iff_of_false (h.ne_of_not_whole id) (by simp)
  | broken => exact iff_of_false (h.ne_of_not_whole id) (by simp)

theorem quoted_append {quote : CodePoint} {s : Text} (hs : isSealed s) (v : Text)
    {token : Token} {n : Nat} (hwhole : token.Whole) (hn : n ≤ s.length + 1) :
    quoted quote (s ++ v) = (token, n) ↔ quoted quote s = (token, n) := by
  rw [quoted_eq_iff hwhole, quoted_eq_iff hwhole]
  refine exists_congr fun text => exists_congr fun k => and_congr_left fun ⟨_, hk⟩ => ?_
  exact string_append hs v (by omega)

/-- An identifier, an opened call or an address, if what follows an opening bracket is not just
spaces. -/
theorem identLike_append {s v : Text} (hs : isSealed s) (hv : Stops v)
    (hend : ∀ tail, s.drop (Name.read 0 s).2 = .char '(' :: tail →
      ∃ p ∈ tail, Name.isSpace p = false)
    {token : Token} {n : Nat} (hwhole : token.Whole) (hn : n ≤ s.length) :
    identLike (s ++ v) = (token, n) ↔ identLike s = (token, n) := by
  have hdrop : (s ++ v).drop (Name.read 0 s).2 = s.drop (Name.read 0 s).2 ++ v :=
    List.drop_append_of_le_length (Name.read_le 0 s)
  simp only [identLike, Name.read_append hs hv (Nat.zero_le _), hdrop]
  cases htail : s.drop (Name.read 0 s).2 with
  | nil =>
    cases v with
    | nil => rfl
    | cons c v =>
      -- None of the stops is the bracket of a call.
      rcases isStop_iff.1 (hv c rfl) with rfl | rfl | rfl | rfl | rfl | rfl | rfl <;> rfl
  | cons c tail =>
    by_cases hc : c = '('
    · subst hc
      -- What tells an address from a call with a string stands in the first part.
      have hmem := hend tail htail
      simp only [List.cons_append, startsUrl_append v hmem]
      split
      · have htail' : isSealed tail := by
          have hsealed := isSealed_drop hs (Name.read 0 s).2
          rw [htail] at hsealed
          exact (isSealed_cons.1 hsealed).2
        have hlength := congrArg List.length htail
        rw [List.length_drop, List.length_cons] at hlength
        have hurl := fun k hk => url_append htail' hmem v (n := k) hwhole hk
        constructor
        · intro he
          obtain ⟨htoken, hk⟩ := Prod.mk.inj he
          have := (hurl (url (tail ++ v)).2 (by omega)).1 (Prod.ext htoken rfl)
          rw [this, hk]
        · intro he
          obtain ⟨htoken, hk⟩ := Prod.mk.inj he
          have := (hurl (url tail).2 (by omega)).2 (Prod.ext htoken rfl)
          rw [this, hk]
      · rfl
    · simp [hc]

/-- An address of spaces alone is not closed. -/
theorem url_spaces_not_whole {t : Text} (h : ∀ p ∈ t, Name.isSpace p) : ¬ (url t).1.Whole := by
  have hspaces : t.takeWhile Name.isSpace = t := List.takeWhile_eq_self_iff.2 h
  simp only [url, hspaces, List.drop_length]
  exact id

/-- What is read of a text by itself is read of it before a stop. An address whose first mark might
follow is no whole token by itself. -/
theorem identLike_extend {s v : Text} (hs : isSealed s) (hv : Stops v) {token : Token} {n : Nat}
    (hwhole : token.Whole) (hn : n ≤ s.length) (h : identLike s = (token, n)) :
    identLike (s ++ v) = (token, n) := by
  by_cases hend : ∀ tail, s.drop (Name.read 0 s).2 = .char '(' :: tail →
      ∃ p ∈ tail, Name.isSpace p = false
  · exact (identLike_append hs hv hend hwhole hn).2 h
  · simp only [not_forall, not_exists, not_and, Bool.not_eq_false] at hend
    obtain ⟨tail, htail, hspaces⟩ := hend
    have hdrop : (s ++ v).drop (Name.read 0 s).2 = s.drop (Name.read 0 s).2 ++ v :=
      List.drop_append_of_le_length (Name.read_le 0 s)
    have hstarts : startsUrl tail := by
      rw [startsUrl, List.dropWhile_eq_nil_iff.2 hspaces]
    simp only [identLike, Name.read_append hs hv (Nat.zero_le _), hdrop, htail, List.cons_append,
      hstarts, and_true] at h ⊢
    split at h
    -- Spaces alone would be an address that is not closed.
    · obtain ⟨rfl, -⟩ := Prod.mk.inj h
      exact absurd hwhole (url_spaces_not_whole hspaces)
    · rename_i hname
      rw [if_neg fun hboth => hname hboth.1]
      exact h

theorem numeric_append {s v : Text} (hs : isSealed s) (hv : Stops v) {k : Nat}
    (hk : k ≤ s.length) : numeric (s ++ v) k = numeric s k := by
  have hdrop : (s ++ v).drop k = s.drop k ++ v := List.drop_append_of_le_length hk
  have htake : (s ++ v).take k = s.take k := List.take_append_of_le_length hk
  have hs' : isSealed (s.drop k) := isSealed_drop hs k
  have hhead : (s.drop k ++ v).head? = some (.char '%') ↔ (s.drop k).head? = some (.char '%') := by
    cases s.drop k with
    | cons c tail => rfl
    | nil =>
      refine iff_of_false (fun h => ?_) (by simp)
      have := hv _ h
      simp [isStop, Name.isSpace] at this
  simp only [numeric, hdrop, htake, Name.startsIdent_append hs' hv,
    Name.read_append hs' hv (Nat.zero_le _), hhead]

/-! ## Tokens -/

/-- A start of several code points, none of which is a stop. -/
theorem isPrefixOf_append {w : Text} (hw : ∀ p ∈ w, isStop p = false) {s v : Text}
    (hv : Stops v) : w.isPrefixOf (s ++ v) = w.isPrefixOf s := by
  induction w generalizing s with
  | nil => simp
  | cons a w ih =>
    cases s with
    | cons b s =>
      simp only [List.cons_append, List.isPrefixOf, ih fun p hp => hw p (List.mem_cons_of_mem a hp)]
    | nil =>
      cases v with
      | nil => rfl
      | cons q v =>
        have hne : (a == q) = false := by
          rw [beq_eq_false_iff_ne]
          rintro rfl
          have := hw a List.mem_cons_self
          rw [hv a rfl] at this
          cases this
        simp [List.isPrefixOf, hne]

theorem punctuation_hash (t : Text) : punctuation '#' t =
    if t.head?.any Name.isPart || Name.startsEscape t then
      (.leaf (.hash (Name.read 0 t).1 (Name.startsIdent t)), (Name.read 0 t).2 + 1)
    else (literal "#", 1) := by
  cases t <;> rfl

/-- A whole token is a comment if the comment is closed. -/
theorem punctuation_comment_iff {t : Text} {token : Token} {n : Nat} (h : token.Whole) :
    punctuation '/' (.char '*' :: t) = (token, n) ↔ ∃ text k, comment t = (text, k, true) ∧
      token = .leaf (.comment text true) ∧ n = k + 2 := by
  simp only [punctuation]
  generalize comment t = read
  obtain ⟨text, k, closed⟩ := read
  constructor
  · intro he
    obtain ⟨rfl, rfl⟩ := Prod.mk.inj he
    obtain rfl : closed = true := h
    exact ⟨text, k, rfl, rfl, rfl⟩
  · rintro ⟨_, _, he, htoken, hk⟩
    cases he
    rw [htoken, hk]

theorem punctuation_angle (t : Text) : punctuation '<' t =
    if List.isPrefixOf ("!--" : Text) t then (literal "<!--", 4) else (literal "<", 1) := by
  have hmark : ("!--" : Text) = [.char '!', .char '-', .char '-'] := rfl
  by_cases h : List.isPrefixOf ("!--" : Text) t
  · obtain ⟨tail, rfl⟩ := List.isPrefixOf_iff_prefix.1 h
    rw [if_pos h]
    rfl
  · rw [if_neg h]
    unfold punctuation
    split <;> simp_all [List.isPrefixOf] <;> rfl

theorem punctuation_bar (t : Text) : punctuation '|' t =
    if t.head? = some (.char '|') then (literal "||", 2)
    else if t.head? = some (.char '=') then (literal "|=", 2)
    else (literal "|", 1) := by
  cases t with
  | nil => rfl
  | cons d t =>
    by_cases hd : d = '|'
    · subst hd
      rfl
    · by_cases he : d = '='
      · subst he
        rfl
      · simp [punctuation, hd, he]
        rfl

theorem punctuation_slash {t : Text} (h : t.head? ≠ some (.char '*')) :
    punctuation '/' t = (literal "/", 1) := by
  cases t with
  | nil => rfl
  | cons d t =>
    simp [punctuation, show d ≠ '*' from fun hd => h (by rw [hd]; rfl)]
    rfl

/-- A code point that stands for itself, unless an equals sign goes on with it. -/
def IsMark (c : CodePoint) : Prop :=
  c ≠ '(' ∧ c ≠ '[' ∧ c ≠ '\x7b' ∧ c ≠ ')' ∧ c ≠ ']' ∧ c ≠ '\x7d' ∧ c ≠ '"' ∧ c ≠ '\'' ∧
    c ≠ '@' ∧ c ≠ '#' ∧ c ≠ '/' ∧ c ≠ '<' ∧ c ≠ '|'

instance (c : CodePoint) : Decidable (IsMark c) := inferInstanceAs (Decidable (_ ∧ _))

theorem isMark_or (c : CodePoint) :
    (∃ b : Bracket, c = b.openChar ∨ c = b.closeChar) ∨ (c = '"' ∨ c = '\'') ∨ c = '@' ∨ c = '#' ∨
      c = '/' ∨ c = '<' ∨ c = '|' ∨ IsMark c := by
  by_contra h
  simp only [not_or, not_exists] at h
  obtain ⟨hbracket, ⟨hdouble, hsingle⟩, hat, hhash, hslash, hangle, hbar, hmark⟩ := h
  exact hmark ⟨(hbracket .round).1, (hbracket .square).1, (hbracket .curly).1, (hbracket .round).2,
    (hbracket .square).2, (hbracket .curly).2, hdouble, hsingle, hat, hhash, hslash, hangle, hbar⟩

/-- A mark of two code points, or of one. -/
theorem punctuation_mark {c : CodePoint} (t : Text) (hc : IsMark c) :
    punctuation c t =
      if t.head? = some (.char '=') ∧ (c = '~' ∨ c = '^' ∨ c = '$' ∨ c = '*') then
        (literal [c, .char '='], 2)
      else (literal [c], 1) := by
  obtain ⟨h₁, h₂, h₃, h₄, h₅, h₆, h₇, h₈, h₉, h₁₀, h₁₁, h₁₂, h₁₃⟩ := hc
  unfold punctuation
  split <;> simp_all

theorem punctuation_opening (b : Bracket) (t : Text) :
    punctuation b.openChar t = (.opener b, 1) := by
  cases b <;> rfl

theorem punctuation_closing (b : Bracket) (t : Text) :
    punctuation b.closeChar t = (.closer b, 1) := by
  cases b <;> rfl

theorem head?_append_iff {s v : Text} (hv : Stops v) {c : CodePoint} (hc : isStop c = false) :
    (s ++ v).head? = some c ↔ s.head? = some c := by
  cases s with
  | cons d s => rfl
  | nil =>
    refine iff_of_false (fun h => ?_) (by simp)
    have := hv c h
    simp [hc] at this

/-- A stop does not go on with a name. -/
theorem head?_any_isPart_append (s : Text) {v : Text} (hv : Stops v) :
    (s ++ v).head?.any Name.isPart = s.head?.any Name.isPart := by
  cases s with
  | cons d s => rfl
  | nil =>
    cases v with
    | nil => rfl
    | cons d v => exact Name.isStop_isPart d (hv d rfl)

theorem punctuation_append (c : CodePoint) {s v : Text} (hs : isSealed s) (hv : Stops v)
    {token : Token} {n : Nat} (hwhole : token.Whole) (hn : n ≤ s.length + 1) :
    punctuation c (s ++ v) = (token, n) ↔ punctuation c s = (token, n) := by
  rcases isMark_or c with ⟨b, rfl | rfl⟩ | (rfl | rfl) | rfl | rfl | rfl | rfl | rfl | hmark
  · rw [punctuation_opening, punctuation_opening]
  · rw [punctuation_closing, punctuation_closing]
  iterate 2 exact quoted_append hs v hwhole hn
  · simp only [punctuation, Name.startsIdent_append hs hv, Name.read_append hs hv (Nat.zero_le _)]
  · simp only [punctuation_hash, head?_any_isPart_append s hv, Name.startsEscape_append hs hv,
      Name.startsIdent_append hs hv, Name.read_append hs hv (Nat.zero_le _)]
  · by_cases hstar : s.head? = some (.char '*')
    · obtain ⟨s, rfl⟩ := List.head?_eq_some_iff.1 hstar
      rw [List.cons_append, punctuation_comment_iff hwhole, punctuation_comment_iff hwhole]
      refine exists_congr fun text => exists_congr fun k => and_congr_left fun ⟨_, hk⟩ => ?_
      rw [List.length_cons] at hn
      exact comment_append v (by omega)
    · have hstar' : (s ++ v).head? ≠ some (.char '*') := by
        rwa [Ne, head?_append_iff hv (by decide)]
      rw [punctuation_slash hstar, punctuation_slash hstar']
  · rw [punctuation_angle, punctuation_angle, isPrefixOf_append (by decide) hv]
  · simp only [punctuation_bar, head?_append_iff hv (by decide : isStop (.char '|') = false),
      head?_append_iff hv (by decide : isStop (.char '=') = false)]
  · simp only [fun t => punctuation_mark t hmark,
      head?_append_iff hv (by decide : isStop (.char '=') = false)]

theorem arrow_append (s : Text) {v : Text} (hv : Stops v) :
    (s ++ v).take 3 = ("-->" : Text) ↔ s.take 3 = ("-->" : Text) := by
  have hprefix : List.isPrefixOf ("-->" : Text) (s ++ v) = List.isPrefixOf "-->" s :=
    isPrefixOf_append (by decide) hv
  have htake : ∀ t : Text, t.take 3 = ("-->" : Text) ↔ List.isPrefixOf ("-->" : Text) t := by
    intro t
    rw [List.isPrefixOf_iff_prefix, List.prefix_iff_eq_take]
    exact eq_comm
  rw [htake, htake, hprefix]

/-- A whole token is read the same before a stop as at the end of the text, unless it begins like an
identifier. -/
theorem token_append_or {c : CodePoint} {s v : Text} (hs : isSealed (c :: s)) (hv : Stops v)
    (hend : ∃ p ∈ c :: s, Name.isSpace p = false) {t : Token} {n : Nat} (hwhole : t.Whole)
    (hn : n ≤ s.length + 1) : (token c (s ++ v) = (t, n) ↔ token c s = (t, n)) ∨
      token c (s ++ v) = identLike (c :: (s ++ v)) ∧ token c s = identLike (c :: s) := by
  obtain ⟨p, hp, hspace⟩ := hend
  have hspaces : (c :: (s ++ v)).takeWhile Name.isSpace = (c :: s).takeWhile Name.isSpace :=
    takeWhile_append_of_mem hp hspace
  have hs' : isSealed s := (isSealed_cons.1 hs).2
  have hident : Name.startsIdent (c :: (s ++ v)) = Name.startsIdent (c :: s) :=
    Name.startsIdent_append hs hv
  have hnumber : numberLength (c :: s ++ v) = numberLength (c :: s) := numberLength_append hv
  have harrow : (c :: (s ++ v)).take 3 = ("-->" : Text) ↔ (c :: s).take 3 = ("-->" : Text) :=
    arrow_append (c :: s) hv
  rw [List.cons_append] at hnumber
  unfold token
  simp only [hspaces, startsRange_append c hv, hident, hnumber]
  -- The tests of the scanner have the same answer on both sides, one after the other.
  split
  · exact .inl Iff.rfl
  split
  · rename_i hrange
    have hplus : (s ++ v).drop 1 = s.drop 1 ++ v := by
      cases s with
      | nil => simp [startsRange] at hrange
      | cons d s => rfl
    rw [hplus, range_append hv]
    exact .inl Iff.rfl
  by_cases hthree : (c :: s).take 3 = ("-->" : Text)
  · rw [if_pos hthree, if_pos (harrow.2 hthree)]
    exact .inl Iff.rfl
  rw [if_neg hthree, if_neg fun h => hthree (harrow.1 h)]
  split
  · exact .inr ⟨rfl, rfl⟩
  cases hlength : numberLength (c :: s) with
  | zero => exact .inl (punctuation_append c hs' hv hwhole hn)
  | succ k =>
    have hk : k + 1 ≤ (c :: s).length := hlength ▸ numberLength_le (c :: s)
    have := numeric_append hs hv hk
    rw [List.cons_append] at this
    simp only [this, true_or]

/-- **A whole token is read the same before a stop as at the end of the text.** -/
theorem token_append {c : CodePoint} {s v : Text} (hs : isSealed (c :: s)) (hv : Stops v)
    (hend : EndsWell (c :: s)) {t : Token} {n : Nat} (hwhole : t.Whole) (hn : n ≤ s.length + 1) :
    token c (s ++ v) = (t, n) ↔ token c s = (t, n) := by
  rcases token_append_or hs hv hend.exists_mem hwhole hn with h | ⟨h, h'⟩
  · exact h
  · rw [h, h']
    exact identLike_append hs hv (fun tail htail => (hend.drop htail).exists_mem) hwhole hn

/-- **A whole token that is read of a text by itself is read of it before every stop.** -/
theorem token_extend {c : CodePoint} {s v : Text} (hs : isSealed (c :: s)) (hv : Stops v)
    (hend : ∃ p ∈ c :: s, Name.isSpace p = false) {t : Token} {n : Nat} (hwhole : t.Whole)
    (hn : n ≤ s.length + 1) (h : token c s = (t, n)) : token c (s ++ v) = (t, n) := by
  rcases token_append_or hs hv hend hwhole hn with hiff | ⟨hafter, hself⟩
  · exact hiff.2 h
  · rw [hself] at h
    rw [hafter]
    exact identLike_extend hs hv hwhole hn h

end Scan

/-! ## Rows of pieces -/

namespace Piece

theorem textOf_ne_nil {ps : List Piece} {after : Text} (h : Spelled ps after) (hne : ps ≠ []) :
    textOf ps ≠ [] := by
  cases ps with
  | nil => exact absurd rfl hne
  | cons p ps =>
    obtain ⟨⟨c, cs, htext, -⟩, -⟩ := h
    simp [htext]

/-- **A row of whole tokens can stand in front of another text**, if each of the two texts is a
stop. -/
theorem Spelled.move {ps : List Piece} {after after' : Text} (h : Spelled ps after)
    (hwhole : ∀ p ∈ ps, p.token.Whole) (hs : isSealed (textOf ps))
    (hend : ps ≠ [] → EndsWell (textOf ps)) (hv : Stops after) (hv' : Stops after') :
    Spelled ps after' := by
  induction ps with
  | nil => trivial
  | cons p ps ih =>
    obtain ⟨⟨c, cs, htext, htoken⟩, hps⟩ := h
    have hend' := hend (List.cons_ne_nil _ _)
    have hlength : p.text.length ≤ (cs ++ textOf ps).length + 1 := by
      rw [htext, List.length_append, List.length_cons]
      omega
    refine ⟨⟨c, cs, htext, ?_⟩, ih hps (fun q hq => hwhole q (List.mem_cons_of_mem p hq))
      (isSealed_of_append hs) fun hne => hend'.of_append (textOf_ne_nil hps hne)⟩
    rw [textOf_cons, htext, List.cons_append] at hs hend'
    rw [← List.append_assoc] at htoken ⊢
    rw [Scan.token_append hs hv' hend' (hwhole p List.mem_cons_self) hlength]
    exact (Scan.token_append hs hv hend' (hwhole p List.mem_cons_self) hlength).1 htoken

/-- **A row of whole tokens that is a text can stand in front of every stop**, if the text does not
end in a space. -/
theorem Spelled.extend {ps : List Piece} {after : Text} (h : Spelled ps [])
    (hwhole : ∀ p ∈ ps, p.token.Whole) (hs : isSealed (textOf ps))
    (hend : ∀ p ∈ (textOf ps).getLast?, Name.isSpace p = false) (hv : Stops after) :
    Spelled ps after := by
  induction ps with
  | nil => trivial
  | cons p ps ih =>
    obtain ⟨⟨c, cs, htext, htoken⟩, hps⟩ := h
    have hlength : p.text.length ≤ (cs ++ textOf ps).length + 1 := by
      rw [htext, List.length_append, List.length_cons]
      omega
    refine ⟨⟨c, cs, htext, ?_⟩, ih hps (fun q hq => hwhole q (List.mem_cons_of_mem p hq))
      (isSealed_of_append hs) fun q hq => hend q ?_⟩
    · rw [textOf_cons, htext, List.cons_append] at hs hend
      have hlast := List.getLast?_eq_some_getLast (List.cons_ne_nil c (cs ++ textOf ps))
      have hmem : ∃ q ∈ c :: (cs ++ textOf ps), Name.isSpace q = false :=
        ⟨_, List.mem_of_getLast? hlast, hend _ hlast⟩
      rw [List.append_nil] at htoken
      rw [← List.append_assoc]
      exact Scan.token_extend hs hv hmem (hwhole p List.mem_cons_self) hlength htoken
    · rw [textOf_cons, List.getLast?_append, hq]
      rfl

end Piece

end FluidCss
