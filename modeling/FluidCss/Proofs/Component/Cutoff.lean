import FluidCss.Proofs.Component.Local

/-!
# Tokens at the end of a text

A token that is read of a text is read of it too when the text is cut off behind the token, or
behind a later one, if what is cut off begins with a stop. In contrast to the other direction this
holds whether the text ends in an escape or not: an escape by its number is the same with the space
that ends it as without, and of the others the escaped code point is there. What does not survive
is a backslash by itself. It stands for itself if a line end follows it, and at the end of a text it
is an escape.

* `Scan.token_cut`: one token.
* `Piece.Spelled.cut`: a row of pieces.
-/

namespace FluidCss

/-- What follows may decide whether an escape begins in the text. -/
def Hangs (t : Text) : Prop := t = [.char '\\'] ∨ t = [.char '-', .char '\\']

theorem not_hangs_nil : ¬ Hangs [] := by simp [Hangs]

theorem Hangs.getLast? {t : Text} (h : Hangs t) : t.getLast? = some (.char '\\') := by
  rcases h with rfl | rfl <;> rfl

/-- A token that something must follow: an opened call, or a backslash that stands for itself. -/
def Token.Leads (t : Token) : Prop :=
  (∃ name, t = .function name) ∨ t = Scan.literal [.char '\\']

/-- What is passed over is passed over to the end at most. -/
theorem skip_min {α : Type} {f : Nat → α} {length : Nat} (h : ∀ k, length ≤ k → f k = f length)
    (k : Nat) : f (min k length) = f k := by
  rcases Nat.le_total k length with hle | hle
  · rw [Nat.min_eq_left hle]
  · rw [Nat.min_eq_right hle, h k hle]

/-! ## Names -/

namespace Name

theorem read_of_length_le {t : Text} {k : Nat} (h : t.length ≤ k) : read k t = ([], t.length) := by
  induction t generalizing k with
  | nil => rfl
  | cons p t ih =>
    obtain ⟨k, rfl⟩ : ∃ k', k = k' + 1 := ⟨k - 1, by simp at h; omega⟩
    simp only [read, ih (Nat.le_of_succ_le_succ h), List.length_cons]

theorem read_min (k : Nat) (t : Text) : read (min k t.length) t = read k t :=
  skip_min (f := fun k => read k t) (fun _ hle => by
    rw [read_of_length_le hle, read_of_length_le (Nat.le_refl _)]) k

theorem min_le_read (k : Nat) (t : Text) : min k t.length ≤ (read k t).2 := by
  induction t generalizing k with
  | nil => simp
  | cons p t ih =>
    cases k with
    | zero => simp
    | succ k =>
      have := ih k
      simp only [read, List.length_cons]
      omega

theorem read_eq_nil {t name : Text} {k : Nat} (h : read k t = (name, 0)) : name = [] := by
  cases t with
  | nil => exact (Prod.mk.inj h).1.symm
  | cons p t =>
    cases k with
    | succ k => cases h
    | zero =>
      simp only [read] at h
      split at h
      · cases h
      split at h
      · cases h
      · exact (Prod.mk.inj h).1.symm

theorem escape_pos {t : Text} (h : t ≠ []) : 0 < (escape t).2 := by
  obtain ⟨p, t, rfl⟩ := List.exists_cons_of_ne_nil h
  unfold escape
  split
  · exact Nat.one_pos
  · rename_i hdigits
    have := List.length_pos_iff.2 hdigits
    simp only
    omega

/-- An escape of which something is there, cut off. -/
theorem escape_cut {s v : Text} (hv : Stops v) (hs : s ≠ []) :
    escape s = ((escape (s ++ v)).1, min (escape (s ++ v)).2 s.length) := by
  have hdigits : ((s ++ v).take 6).takeWhile isHex = (s.take 6).takeWhile isHex :=
    Scan.takeWhile_take_append (hv.not_head isStop_isHex) 6
  have hle := Scan.rangeDigits_length s
  have hdrop : (s ++ v).drop ((s.take 6).takeWhile isHex).length =
      s.drop ((s.take 6).takeWhile isHex).length ++ v := List.drop_append_of_le_length hle
  unfold escape
  rw [hdigits]
  -- A stop is no digit, so the digits are the same. The space behind them may be the one cut off.
  cases hcase : (s.take 6).takeWhile isHex with
  | nil =>
    obtain ⟨p, s, rfl⟩ := List.exists_cons_of_ne_nil hs
    simp
  | cons d ds =>
    rw [hcase] at hdrop hle
    simp only [hdrop, Prod.mk.injEq, true_and]
    generalize (d :: ds).length = m at hle
    cases htail : s.drop m with
    | nil =>
      have hlength := List.drop_eq_nil_iff.1 htail
      simp only [Nat.add_zero]
      omega
    | cons p tail =>
      have hlength := congrArg List.length htail
      rw [List.length_drop, List.length_cons] at hlength
      simp only [List.cons_append]
      split <;> omega

theorem startsEscape_cut {s v : Text} (hv : Stops v)
    (h : startsEscape (s ++ v) = false → s ≠ [.char '\\']) :
    startsEscape s = startsEscape (s ++ v) := by
  match s with
  | [] => exact (startsEscape_stops hv).symm
  | [p] =>
    by_cases hp : p = '\\'
    · subst hp
      cases hafter : startsEscape ([.char '\\'] ++ v) with
      | true => rfl
      | false => exact absurd rfl (h hafter)
    · rw [startsEscape_cons hp, List.singleton_append, startsEscape_cons hp]
  | p :: q :: s =>
    by_cases hp : p = '\\'
    · by_cases hq : q = '\n' <;> simp [startsEscape, hp, hq]
    · rw [startsEscape_cons hp, List.cons_append, startsEscape_cons hp]

theorem startsIdent_cut {s v : Text} (hv : Stops v) (h : startsIdent (s ++ v) = false → ¬ Hangs s) :
    startsIdent s = startsIdent (s ++ v) := by
  cases s with
  | nil => exact (startsIdent_stops hv).symm
  | cons p s =>
    simp only [List.cons_append, startsIdent] at h ⊢
    by_cases hstart : isStart p = true
    · simp [hstart]
    by_cases hp : p = '-'
    · subst hp
      simp only [hstart, if_true, Bool.false_eq_true, if_false] at h ⊢
      -- Behind a hyphen a name may begin with an escape.
      have hescape : startsEscape s = startsEscape (s ++ v) :=
        startsEscape_cut hv fun hfalse hs => by
          subst hs
          refine h ?_ (.inr rfl)
          rw [hfalse]
          rfl
      rw [hescape]
      cases s with
      | cons q s => rfl
      | nil =>
        cases v with
        | nil => rfl
        | cons q v =>
          have hq := isStop_isPart q (hv q rfl)
          simp only [isPart, Bool.or_eq_false_iff] at hq
          simp [hq.1.1, hq.2]
    · simp only [hstart, hp, if_false] at h ⊢
      refine startsEscape_cut (s := p :: s) hv fun hfalse hs => h hfalse (.inl hs)

/-- Before a stop there is no name, and an escape that has begun there takes the stop. -/
theorem read_stop {v : Text} (hv : Stops v) (hne : v ≠ []) {k : Nat} {name : Text} {n : Nat}
    (h : read k v = (name, n)) (hn : n ≤ 1) : name = [] := by
  obtain ⟨p, v, rfl⟩ := List.exists_cons_of_ne_nil hne
  cases k with
  | zero =>
    have hread : read 0 (p :: v) = ([], 0) := by
      simp [read, isStop_isPart p (hv p rfl), startsEscape_stops hv]
    rw [hread] at h
    exact (Prod.mk.inj h).1.symm
  | succ k =>
    simp only [read] at h
    obtain ⟨rfl, rfl⟩ := Prod.mk.inj h
    have hzero : (read k v).2 = 0 := Nat.le_zero.1 (Nat.le_of_succ_le_succ hn)
    exact read_eq_nil (Prod.ext rfl hzero : read k v = ((read k v).1, 0))

/-- A name that begins with an escape is as long as the escape at least. -/
theorem length_read_escape {t : Text} (h : startsEscape (.char '\\' :: t)) :
    (read 0 (.char '\\' :: t)).2 = (read (escape t).2 t).2 + 1 ∧
      (t ≠ [] → 2 ≤ (read 0 (.char '\\' :: t)).2) := by
  have hpart : isPart (.char '\\') = false := by decide
  have hread : (read 0 (.char '\\' :: t)).2 = (read (escape t).2 t).2 + 1 := by
    simp [read, hpart, h]
  refine ⟨hread, fun hne => ?_⟩
  have hpos := escape_pos hne
  have hpassed := min_le_read (escape t).2 t
  have hlength := List.length_pos_iff.2 hne
  omega

/-- **A name, cut off** behind it, or before the space that ends an escape at its end. -/
theorem read_cut {v : Text} (hv : Stops v) {s : Text} {k : Nat} {name : Text} {n : Nat}
    (h : read k (s ++ v) = (name, n)) (hn : n ≤ s.length + 1)
    (hback : n = s.length + 1 → s.getLast? ≠ some (.char '\\')) (hrest : s.drop n ≠ [.char '\\']) :
    read k s = (name, min n s.length) := by
  by_cases hv' : v = []
  · rw [hv', List.append_nil] at h
    have hle : (read k s).2 ≤ s.length := read_le k s
    rw [h] at hle ⊢
    rw [Nat.min_eq_left hle]
  induction s generalizing k name n with
  | nil =>
    rw [read_stop hv hv' h hn]
    simp [read]
  | cons p s ih =>
    -- What is read behind the first code point is cut off as well.
    have hnext : ∀ {k name n'}, read k (s ++ v) = (name, n') → n' + 1 = n →
        read k s = (name, min n' s.length) ∧ min n' s.length + 1 = min n (p :: s).length := by
      rintro k name n' hread rfl
      refine ⟨ih hread (Nat.le_of_succ_le_succ hn) (fun hlong hlast => ?_) (by simpa using hrest),
        by rw [List.length_cons]; omega⟩
      refine hback (by rw [hlong, List.length_cons]) ?_
      rw [List.getLast?_cons, hlast]
      rfl
    rw [List.cons_append] at h
    cases k with
    -- Still inside of an escape.
    | succ k =>
      simp only [read] at h ⊢
      obtain ⟨rfl, hlength⟩ := Prod.mk.inj h
      obtain ⟨hread, hmin⟩ := hnext (Prod.ext rfl rfl) hlength
      rw [hread, hmin]
    | zero =>
      by_cases hpart : isPart p = true
      · simp only [read, hpart, if_true] at h ⊢
        obtain ⟨rfl, hlength⟩ := Prod.mk.inj h
        obtain ⟨hread, hmin⟩ := hnext (Prod.ext rfl rfl) hlength
        rw [hread, hmin]
      by_cases hescape : startsEscape (p :: (s ++ v)) = true
      · obtain rfl := eq_backslash_of_startsEscape hescape
        -- A backslash at the very end would have taken the stop into the name.
        have hs : s ≠ [] := by
          rintro rfl
          have hlong := (length_read_escape hescape).2 hv'
          rw [List.nil_append] at h hlong
          rw [h] at hlong
          exact hback (Nat.le_antisymm hn hlong) rfl
        have hself : startsEscape (.char '\\' :: s) = true :=
          (startsEscape_cut (s := .char '\\' :: s) hv fun _ he => hs (List.cons.inj he).2).trans
            hescape
        simp only [read, hpart, hescape, hself, Bool.false_eq_true, if_true, if_false] at h ⊢
        obtain ⟨rfl, hlength⟩ := Prod.mk.inj h
        obtain ⟨hread, hmin⟩ := hnext (Prod.ext rfl rfl) hlength
        rw [escape_cut hv hs]
        simp only [read_min, hread, hmin]
      · simp only [read, hpart, hescape, Bool.false_eq_true, if_false] at h
        obtain ⟨rfl, rfl⟩ := Prod.mk.inj h
        have hself : startsEscape (p :: s) = false := by
          rw [startsEscape_cut (s := p :: s) hv fun _ => hrest]
          simpa using hescape
        simp only [read, hpart, hself, Bool.false_eq_true, if_false]
        rfl

end Name

namespace Scan

/-! ## Strings, addresses, comments -/

/-- A reading that goes on after a code point ends as it goes on. -/
theorem eq_of_push {f : Text → Text} {a : Text × Nat × Ending} {text : Text} {n : Nat}
    {ending : Ending} (h : (f a.1, a.2.1 + 1, a.2.2) = (text, n, ending)) :
    ∃ text' n', a = (text', n', ending) ∧ text = f text' ∧ n = n' + 1 := by
  obtain ⟨text', n', ending'⟩ := a
  simp only [Prod.mk.injEq] at h
  obtain ⟨rfl, rfl, rfl⟩ := h
  exact ⟨text', n', rfl, rfl, rfl⟩

/-- Of two readings that go on after a code point the second ends as the first. -/
theorem push_cut {f : Text → Text} {a b : Text × Nat × Ending} {text : Text} {n : Nat}
    {ending : Ending} (h : (f a.1, a.2.1 + 1, a.2.2) = (text, n, ending))
    (hab : ∀ text' n', n = n' + 1 → a = (text', n', ending) → b = (text', n', ending)) :
    (f b.1, b.2.1 + 1, b.2.2) = (text, n, ending) := by
  obtain ⟨text', n', ha, rfl, rfl⟩ := eq_of_push h
  rw [hab text' n' rfl ha]

theorem push_ne {f : Text → Text} {a : Text × Nat × Ending} {text : Text} {n : Nat}
    {ending : Ending} (ha : ∀ text' n', n = n' + 1 → a ≠ (text', n', ending)) :
    (f a.1, a.2.1 + 1, a.2.2) ≠ (text, n, ending) := by
  intro h
  obtain ⟨text', n', ha', -, hn⟩ := eq_of_push h
  exact ha text' n' hn ha'

theorem string_of_length_le (quote : CodePoint) {t : Text} {k : Nat} (h : t.length ≤ k) :
    string quote k t = ([], t.length, .cut) := by
  induction t generalizing k with
  | nil => rfl
  | cons p t ih =>
    obtain ⟨k, rfl⟩ : ∃ k', k = k' + 1 := ⟨k - 1, by simp at h; omega⟩
    simp only [string, ih (Nat.le_of_succ_le_succ h), List.length_cons]

theorem string_min (quote : CodePoint) (k : Nat) (t : Text) :
    string quote (min k t.length) t = string quote k t :=
  skip_min (f := fun k => string quote k t) (fun _ hle => by
    rw [string_of_length_le quote hle, string_of_length_le quote (Nat.le_refl _)]) k

theorem string_stop {quote : CodePoint} (hquote : isStop quote = false) {v : Text} (hv : Stops v)
    {skip : Nat} {text : Text} {n : Nat} (hn : n ≤ 1) :
    string quote skip v ≠ (text, n, .closed) := by
  cases v with
  | nil =>
    intro h
    cases h
  | cons c v =>
    have hc : isStop c := hv c rfl
    have hnext : ∀ {skip text' n'}, n = n' + 1 → string quote skip v ≠ (text', n', .closed) := by
      rintro skip text' n' rfl
      obtain rfl : n' = 0 := Nat.le_zero.1 (Nat.le_of_succ_le_succ hn)
      exact string_ne_closed_zero quote skip v text'
    cases skip with
    | succ skip => exact push_ne (f := id) fun _ _ => hnext
    | zero =>
      -- The first code point is no quote, and what comes after it is too far away.
      have hself : c ≠ quote := by
        rintro rfl
        rw [hc] at hquote
        cases hquote
      simp only [string, hself, Name.isStop_ne_backslash hc, if_false]
      split
      · intro h
        cases h
      · exact push_ne (f := fun t => c :: t) fun _ _ => hnext

/-- A string that is closed within the first part, cut off behind that. -/
theorem string_cut {quote : CodePoint} (hquote : isStop quote = false) {s v : Text} (hv : Stops v)
    {skip : Nat} {text : Text} {n : Nat} (h : string quote skip (s ++ v) = (text, n, .closed))
    (hn : n ≤ s.length + 1) : string quote skip s = (text, n, .closed) := by
  induction s generalizing skip text n with
  | nil => exact absurd h (string_stop hquote hv hn)
  | cons c s ih =>
    -- What is read behind the first code point is closed within the first part as well.
    have hnext : ∀ {skip text' n'}, n = n' + 1 →
        string quote skip (s ++ v) = (text', n', .closed) →
        string quote skip s = (text', n', .closed) := by
      rintro skip text' n' rfl hread
      exact ih hread (Nat.le_of_succ_le_succ hn)
    rw [List.cons_append] at h
    cases skip with
    | succ skip => exact push_cut (f := id) h fun _ _ => hnext
    | zero =>
      simp only [string] at h ⊢
      split at h
      · rename_i hc
        rw [if_pos hc]
        exact h
      rename_i hc
      split at h
      · cases h
      rename_i hend
      rw [if_neg hc, if_neg hend]
      split at h
      · rename_i hback
        rw [if_pos hback]
        cases s with
        | nil =>
          -- The backslash is the last code point, and it cannot carry the string over the stop.
          have hstop : ∀ {skip text' n'}, n = n' + 1 →
              string quote skip v ≠ (text', n', .closed) := by
            rintro skip text' n' rfl
            exact string_stop hquote hv (Nat.le_of_succ_le_succ hn)
          rw [List.nil_append] at h
          split at h
          · cases h
          · exact absurd h (push_ne (f := id) fun _ _ => hstop)
          · exact absurd h (push_ne (f := fun t => _ :: t) fun _ _ => hstop)
        | cons d s =>
          -- A line end behind the backslash is left out, anything else is an escape.
          by_cases hd : d = '\n'
          · subst hd
            exact push_cut (f := id) h fun _ _ => hnext
          · have hescape := Name.escape_cut hv (List.cons_ne_nil d s)
            simp only [List.cons_append, hescape, string_min] at h hnext ⊢
            exact push_cut (f := fun t => (Name.escape (d :: (s ++ v))).1 :: t) h fun _ _ => hnext
      · rename_i hback
        rw [if_neg hback]
        exact push_cut (f := fun t => c :: t) h fun _ _ => hnext

theorem urlEnd_stop {v : Text} (hv : Stops v) {n : Nat} (hn : n ≤ 1) : urlEnd v ≠ (n, .closed) := by
  intro h
  cases v with
  | nil => cases h
  | cons c v =>
    by_cases hc : Name.isSpace c
    · rw [urlEnd_cons_space hc] at h
      obtain ⟨rfl, hclosed⟩ := Prod.mk.inj h
      have hzero : (urlEnd v).1 = 0 := by omega
      exact urlEnd_ne_closed_zero v (Prod.ext hzero hclosed)
    · rw [urlEnd_cons (by simpa using hc)] at h
      split at h
      · rename_i hend
        subst hend
        exact absurd (hv _ rfl) (by decide)
      · cases (Prod.mk.inj h).2

theorem urlEnd_cut {s v : Text} (hv : Stops v) {n : Nat} (h : urlEnd (s ++ v) = (n, .closed))
    (hn : n ≤ s.length + 1) : urlEnd s = (n, .closed) := by
  induction s generalizing n with
  | nil => exact absurd h (urlEnd_stop hv hn)
  | cons c s ih =>
    rw [List.cons_append] at h
    by_cases hc : Name.isSpace c
    · rw [urlEnd_cons_space hc] at h ⊢
      obtain ⟨rfl, hclosed⟩ := Prod.mk.inj h
      rw [ih (Prod.ext rfl hclosed) (Nat.le_of_succ_le_succ hn)]
    · rw [urlEnd_cons (by simpa using hc)] at h ⊢
      split at h
      · rename_i hend
        rw [if_pos hend]
        exact h
      · cases (Prod.mk.inj h).2

theorem urlBody_of_length_le {t : Text} {k : Nat} (h : t.length ≤ k) :
    urlBody k t = ([], t.length, .cut) := by
  induction t generalizing k with
  | nil => rfl
  | cons p t ih =>
    obtain ⟨k, rfl⟩ : ∃ k', k = k' + 1 := ⟨k - 1, by simp at h; omega⟩
    simp only [urlBody, ih (Nat.le_of_succ_le_succ h), List.length_cons]

theorem urlBody_min (k : Nat) (t : Text) : urlBody (min k t.length) t = urlBody k t :=
  skip_min (f := fun k => urlBody k t) (fun _ hle => by
    rw [urlBody_of_length_le hle, urlBody_of_length_le (Nat.le_refl _)]) k

theorem urlBody_stop {v : Text} (hv : Stops v) {skip : Nat} {text : Text} {n : Nat} (hn : n ≤ 1) :
    urlBody skip v ≠ (text, n, .closed) := by
  cases v with
  | nil =>
    intro h
    cases h
  | cons c v =>
    have hc : isStop c := hv c rfl
    have hnext : ∀ {skip text' n'}, n = n' + 1 → urlBody skip v ≠ (text', n', .closed) := by
      rintro skip text' n' rfl
      obtain rfl : n' = 0 := Nat.le_zero.1 (Nat.le_of_succ_le_succ hn)
      exact urlBody_ne_closed_zero skip v text'
    cases skip with
    | succ skip => exact push_ne (f := id) fun _ _ => hnext
    | zero =>
      -- A stop is neither the bracket nor the beginning of an escape.
      have hself : c ≠ ')' := by
        rintro rfl
        cases hc
      have hescape : Name.startsEscape (c :: v) = false :=
        Name.startsEscape_cons (Name.isStop_ne_backslash hc) v
      simp only [urlBody, hself, hescape, Bool.false_eq_true, if_false]
      split
      · intro h
        simp only [Prod.mk.injEq] at h
        have hzero : (urlEnd v).1 = 0 := by omega
        exact urlEnd_ne_closed_zero v (Prod.ext hzero h.2.2)
      split
      · intro h
        cases h
      · exact push_ne (f := fun t => c :: t) fun _ _ => hnext

theorem urlBody_cut {s v : Text} (hv : Stops v) {skip : Nat} {text : Text} {n : Nat}
    (h : urlBody skip (s ++ v) = (text, n, .closed)) (hn : n ≤ s.length + 1) :
    urlBody skip s = (text, n, .closed) := by
  induction s generalizing skip text n with
  | nil => exact absurd h (urlBody_stop hv hn)
  | cons c s ih =>
    -- What is read behind the first code point is closed within the first part as well.
    have hnext : ∀ {skip text' n'}, n = n' + 1 → urlBody skip (s ++ v) = (text', n', .closed) →
        urlBody skip s = (text', n', .closed) := by
      rintro skip text' n' rfl hread
      exact ih hread (Nat.le_of_succ_le_succ hn)
    rw [List.cons_append] at h
    cases skip with
    | succ skip => exact push_cut (f := id) h fun _ _ => hnext
    | zero =>
      simp only [urlBody] at h ⊢
      split at h
      · rename_i hc
        rw [if_pos hc]
        exact h
      rename_i hc
      rw [if_neg hc]
      split at h
      · rename_i hspace
        rw [if_pos hspace]
        simp only [Prod.mk.injEq] at h
        obtain ⟨rfl, rfl, hclosed⟩ := h
        rw [urlEnd_cut hv (Prod.ext rfl hclosed) (Nat.le_of_succ_le_succ hn)]
      rename_i hspace
      rw [if_neg hspace]
      cases s with
      | nil =>
        -- Nothing is left of the first part to close the address in.
        have hstop : ∀ {skip text' n'}, n = n' + 1 → urlBody skip v ≠ (text', n', .closed) := by
          rintro skip text' n' rfl
          exact urlBody_stop hv (Nat.le_of_succ_le_succ hn)
        rw [List.nil_append] at h
        split at h
        · exact absurd h (push_ne (f := fun t => _ :: t) fun _ _ => hstop)
        split at h
        · cases h
        · exact absurd h (push_ne (f := fun t => _ :: t) fun _ _ => hstop)
      | cons d s =>
        have hstarts : Name.startsEscape (c :: d :: s) = Name.startsEscape (c :: (d :: s ++ v)) :=
          Name.startsEscape_cut (s := c :: d :: s) hv fun _ he => by simp at he
        rw [hstarts]
        split at h
        · rename_i hescape
          rw [if_pos hescape, Name.escape_cut hv (List.cons_ne_nil d s), urlBody_min]
          exact push_cut (f := fun t => _ :: t) h fun _ _ => hnext
        rename_i hescape
        rw [if_neg hescape]
        split at h
        · cases h
        · rename_i hbreaks
          rw [if_neg hbreaks]
          exact push_cut (f := fun t => c :: t) h fun _ _ => hnext

theorem comment_cut {s v : Text} (hv : Stops v) {text : Text} {n : Nat}
    (h : comment (s ++ v) = (text, n, true)) (hn : n ≤ s.length + 1) :
    comment s = (text, n, true) := by
  induction s generalizing text n with
  | nil => exact absurd (two_le_of_comment_closed h) (by simp at hn; omega)
  | cons c s ih =>
    by_cases hmark : c = '*' ∧ (s ++ v).head? = some (.char '/')
    -- The slash that closes it is no stop, so it stands in the first part.
    · obtain ⟨rfl, hslash⟩ := hmark
      rw [head?_append_iff hv (by decide)] at hslash
      obtain ⟨s, rfl⟩ : ∃ s', s = .char '/' :: s' := by
        cases s with
        | nil => cases hslash
        | cons d s => exact ⟨s, by rw [Option.some.inj hslash]⟩
      exact h
    · have hmark' : ¬ (c = '*' ∧ s.head? = some (.char '/')) := by
        rwa [head?_append_iff hv (by decide)] at hmark
      rw [List.cons_append, comment_cons hmark] at h
      rw [comment_cons hmark']
      simp only [Prod.mk.injEq] at h
      obtain ⟨rfl, rfl, hclosed⟩ := h
      have hread : comment (s ++ v) = ((comment (s ++ v)).1, (comment (s ++ v)).2.1, true) := by
        rw [← hclosed]
      rw [ih hread (Nat.le_of_succ_le_succ hn)]

/-! ## Names, calls and numbers -/

/-- A token of `n` code points ends within a text, or it is one longer, and what it has more is the
space that ends the escape at the end of the text. -/
def Reaches (s : Text) (n : Nat) : Prop :=
  n ≤ s.length ∨ n = s.length + 1 ∧ ∃ d ∈ s.getLast?, Name.isHex d = true

theorem Reaches.le {s : Text} {n : Nat} (h : Reaches s n) : n ≤ s.length + 1 := by
  rcases h with h | h <;> omega

theorem Reaches.getLast? {s : Text} {n : Nat} (h : Reaches s n) (hn : n = s.length + 1)
    {p : CodePoint} (hp : Name.isHex p = false) : s.getLast? ≠ some p := by
  rcases h with h | ⟨-, d, hd, hhex⟩
  · omega
  · intro hlast
    obtain rfl := Option.some.inj (hlast.symm.trans hd)
    rw [hp] at hhex
    cases hhex

theorem Reaches.tail {c : CodePoint} {s : Text} {n : Nat} (h : Reaches (c :: s) (n + 1))
    (hc : Name.isHex c = false) : Reaches s n := by
  rcases h with h | ⟨h, d, hd, hhex⟩
  · exact .inl (Nat.le_of_succ_le_succ h)
  · refine .inr ⟨Nat.succ.inj h, d, ?_, hhex⟩
    cases s with
    | cons e s => exact hd
    | nil =>
      rw [List.getLast?_singleton, Option.mem_some_iff] at hd
      rw [← hd, hc] at hhex
      cases hhex

theorem getLast?_drop {s : Text} {n : Nat} (h : s.drop n ≠ []) :
    (s.drop n).getLast? = s.getLast? := by
  have hlength := List.length_pos_iff.2 h
  rw [List.length_drop] at hlength
  rw [List.getLast?_drop, if_neg (by omega)]

/-- What does not end in a space does not end in a space after an opening bracket. -/
theorem exists_of_getLast? {s : Text} (h : ∃ p ∈ s.getLast?, Name.isSpace p = false) {n : Nat}
    (hdrop : s.drop n ≠ []) : ∃ p ∈ s.drop n, Name.isSpace p = false := by
  obtain ⟨p, hp, hspace⟩ := h
  rw [← getLast?_drop hdrop] at hp
  exact ⟨p, List.mem_of_getLast? hp, hspace⟩

theorem url_cut {s v : Text} (hv : Stops v) (hspace : ∃ p ∈ s, Name.isSpace p = false) {t : Token}
    {n : Nat} (hwhole : t.Whole) (h : url (s ++ v) = (t, n)) (hn : n ≤ s.length + 1) :
    url s = (t, n) := by
  obtain ⟨p, hp, hspace⟩ := hspace
  rw [url_eq_iff hwhole, takeWhile_append_of_mem hp hspace, drop_length_takeWhile_append] at h
  obtain ⟨text, k, hbody, htoken, hk⟩ := h
  refine (url_eq_iff hwhole).2 ⟨text, k, urlBody_cut hv hbody ?_, htoken, hk⟩
  rw [List.length_drop]
  omega

theorem quoted_cut {quote : CodePoint} (hquote : isStop quote = false) {s v : Text} (hv : Stops v)
    {t : Token} {n : Nat} (hwhole : t.Whole) (h : quoted quote (s ++ v) = (t, n))
    (hn : n ≤ s.length + 2) : quoted quote s = (t, n) := by
  rw [quoted_eq_iff hwhole] at h ⊢
  obtain ⟨text, k, hread, htoken, hk⟩ := h
  exact ⟨text, k, string_cut hquote hv hread (by omega), htoken, hk⟩

theorem identLike_call {s name tail : Text} {m : Nat} (hread : Name.read 0 s = (name, m))
    (hdrop : s.drop m = .char '(' :: tail) :
    identLike s = if name.map CodePoint.toLower = "url" ∧ startsUrl tail then
      ((url tail).1, m + 1 + (url tail).2) else (.function name, m + 1) := by
  simp only [identLike, hread, hdrop]

theorem identLike_ident {s name : Text} {m : Nat} (hread : Name.read 0 s = (name, m))
    (hdrop : ∀ tail, s.drop m ≠ .char '(' :: tail) : identLike s = (.leaf (.ident name), m) := by
  simp only [identLike, hread]

theorem url_pos {t : Text} (hwhole : (url t).1.Whole) : 0 < (url t).2 := by
  have hself : url t = ((url t).1, (url t).2) := rfl
  obtain ⟨text, k, hbody, -, hk⟩ := (url_eq_iff hwhole).1 hself
  cases k with
  | zero => exact absurd hbody (urlBody_ne_closed_zero _ _ _)
  | succ k => omega

/-- A bracket is in the first part, for it is no stop. -/
theorem exists_drop_call {s v rest : Text} (hv : Stops v) {m : Nat} (hm : m ≤ s.length)
    (hdrop : (s ++ v).drop m = .char '(' :: rest) :
    ∃ tail, s.drop m = .char '(' :: tail ∧ rest = tail ++ v := by
  rw [List.drop_append_of_le_length hm] at hdrop
  cases hself : s.drop m with
  | nil =>
    rw [hself, List.nil_append] at hdrop
    have := hv (.char '(') (by rw [hdrop]; rfl)
    cases this
  | cons p tail =>
    rw [hself, List.cons_append] at hdrop
    obtain ⟨rfl, rfl⟩ := List.cons.inj hdrop
    exact ⟨tail, rfl, rfl⟩

/-- Something follows the bracket of a call in the first part. -/
theorem tail_ne_nil {s v tail name : Text} {m n : Nat} {t : Token} (hwhole : t.Whole)
    (hself : s.drop m = .char '(' :: tail)
    (h : (if name.map CodePoint.toLower = "url" ∧ startsUrl (tail ++ v) then
      ((url (tail ++ v)).1, m + 1 + (url (tail ++ v)).2) else (.function name, m + 1)) = (t, n))
    (hn : Reaches s n) (hopen : ∀ name, t = .function name → n < s.length) : tail ≠ [] := by
  rintro rfl
  have hlength := congrArg List.length hself
  rw [List.length_drop, List.length_singleton] at hlength
  rcases hn with hn | ⟨-, d, hd, hhex⟩
  · -- The bracket is the last code point, so nothing is left for an address.
    split at h
    · obtain ⟨rfl, rfl⟩ := Prod.mk.inj h
      have := url_pos hwhole
      simp only [List.nil_append] at hn this
      omega
    · obtain ⟨rfl, rfl⟩ := Prod.mk.inj h
      have := hopen name rfl
      omega
  · rw [← getLast?_drop (n := m) (by rw [hself]; simp), hself] at hd
    obtain rfl := Option.some.inj hd
    cases hhex

/-- An opened call or an address, cut off. -/
theorem identLike_call_cut {s v name rest : Text} (hv : Stops v) {m n : Nat} {t : Token}
    (hwhole : t.Whole) (hread : Name.read 0 (s ++ v) = (name, m))
    (hdrop : (s ++ v).drop m = .char '(' :: rest) (h : identLike (s ++ v) = (t, n))
    (hn : Reaches s n) (hlast : ∃ p ∈ s.getLast?, Name.isSpace p = false)
    (hopen : ∀ name, t = .function name → n < s.length) :
    identLike s = (t, min n s.length) := by
  rw [identLike_call hread hdrop] at h
  have hlong := hn.le
  -- The bracket is read, so it lies in the first part.
  have hm : m + 1 ≤ n := by
    split at h <;> obtain ⟨-, rfl⟩ := Prod.mk.inj h <;> omega
  obtain ⟨tail, hself, rfl⟩ := exists_drop_call hv (by omega) hdrop
  have htail := tail_ne_nil hwhole hself h hn hopen
  have hlength := congrArg List.length hself
  rw [List.length_drop, List.length_cons] at hlength
  have hread' : Name.read 0 s = (name, m) := by
    rw [Name.read_cut hv hread (by omega) (by omega) (by rw [hself]; simp),
      Nat.min_eq_left (by omega)]
  -- With spaces alone behind the bracket, a quote behind the stop could make it a call.
  have hspace : ∃ p ∈ tail, Name.isSpace p = false := by
    have hsucc : s.drop (m + 1) = tail := by
      rw [← List.drop_drop, hself]
      rfl
    rw [← hsucc] at htail ⊢
    exact exists_of_getLast? hlast htail
  rw [identLike_call hread' hself]
  rw [startsUrl_append v hspace] at h
  split at h
  · rename_i hurl
    rw [if_pos hurl]
    obtain ⟨rfl, rfl⟩ := Prod.mk.inj h
    have hafter : url (tail ++ v) = ((url (tail ++ v)).1, (url (tail ++ v)).2) := rfl
    have hcut := url_cut hv hspace hwhole hafter (by omega)
    have hfits := url_le tail
    simp only [hcut] at hfits ⊢
    rw [Nat.min_eq_left (by omega)]
  · rename_i hurl
    rw [if_neg hurl]
    obtain ⟨rfl, rfl⟩ := Prod.mk.inj h
    rw [Nat.min_eq_left (by omega)]

theorem identLike_cut {s v : Text} (hv : Stops v) {t : Token} {n : Nat} (hwhole : t.Whole)
    (h : identLike (s ++ v) = (t, n)) (hn : Reaches s n) (hrest : ¬ Hangs (s.drop n))
    (hlast : ∃ p ∈ s.getLast?, Name.isSpace p = false)
    (hopen : ∀ name, t = .function name → n < s.length) :
    identLike s = (t, min n s.length) := by
  obtain ⟨⟨name, m⟩, hread⟩ : ∃ read, Name.read 0 (s ++ v) = read := ⟨_, rfl⟩
  by_cases hcall : ∃ rest, (s ++ v).drop m = .char '(' :: rest
  · obtain ⟨rest, hdrop⟩ := hcall
    exact identLike_call_cut hv hwhole hread hdrop h hn hlast hopen
  · rw [identLike_ident hread (fun rest he => hcall ⟨rest, he⟩)] at h
    obtain ⟨rfl, rfl⟩ := Prod.mk.inj h
    have hread' := Name.read_cut hv hread hn.le (fun he => hn.getLast? he (by decide))
      fun he => hrest (.inl he)
    refine identLike_ident hread' fun tail he => hcall ⟨tail ++ v, ?_⟩
    rcases Nat.lt_or_ge m s.length with hm | hm
    · rw [Nat.min_eq_left hm.le] at he
      rw [List.drop_append_of_le_length hm.le, he, List.cons_append]
    · rw [Nat.min_eq_right hm, List.drop_length] at he
      cases he

/-- A number, with what makes it a percentage or a dimension, cut off. -/
theorem numeric_cut {s v : Text} (hv : Stops v) {k : Nat} (hk : k ≤ s.length) {t : Token} {n : Nat}
    (h : numeric (s ++ v) k = (t, n)) (hn : Reaches s n) (hrest : ¬ Hangs (s.drop n)) :
    numeric s k = (t, min n s.length) := by
  have hdrop : (s ++ v).drop k = s.drop k ++ v := List.drop_append_of_le_length hk
  have htake : (s ++ v).take k = s.take k := List.take_append_of_le_length hk
  simp only [numeric, hdrop, htake] at h ⊢
  by_cases hident : Name.startsIdent (s.drop k ++ v) = true
  · rw [Name.startsIdent_cut hv (by simp [hident]), hident]
    rw [if_pos hident] at h
    obtain ⟨rfl, rfl⟩ := Prod.mk.inj h
    -- A stop does not begin a unit.
    have hne : s.drop k ≠ [] := by
      intro hnil
      rw [hnil, List.nil_append, Name.startsIdent_stops hv] at hident
      cases hident
    have hlength := List.length_pos_iff.2 hne
    have hlong := hn.le
    rw [List.length_drop] at hlength
    obtain ⟨⟨unit, m⟩, hread⟩ : ∃ read, Name.read 0 (s.drop k ++ v) = read := ⟨_, rfl⟩
    simp only [hread] at hn hrest hlong ⊢
    have hcut := Name.read_cut hv hread (by rw [List.length_drop]; omega)
      (fun he => by
        rw [getLast?_drop hne]
        rw [List.length_drop] at he
        exact hn.getLast? (by omega) (by decide))
      (fun he => hrest (.inl (by rw [← List.drop_drop, he])))
    simp only [hcut, if_true, List.length_drop, Prod.mk.injEq, true_and]
    omega
  · have hfalse : Name.startsIdent (s.drop k ++ v) = false := by simpa using hident
    rw [if_neg hident] at h
    have hhead : (s.drop k ++ v).head? = some (.char '%') ↔ (s.drop k).head? = some (.char '%') :=
      head?_append_iff hv (by decide)
    simp only [hhead] at h
    -- A backslash at the end would be left over, unless a percent sign stands there.
    have hself : Name.startsIdent (s.drop k) = false := by
      rw [Name.startsIdent_cut hv fun _ hhangs => ?_, hfalse]
      split at h
      · rename_i hpercent
        rcases hhangs with he | he <;> simp [he] at hpercent
      · rw [← (Prod.mk.inj h).2] at hrest
        exact hrest hhangs
    rw [hself]
    simp only [Bool.false_eq_true, if_false]
    split at h
    · rename_i hpercent
      have hne : s.drop k ≠ [] := fun he => by simp [he] at hpercent
      have hlength := List.length_pos_iff.2 hne
      rw [List.length_drop] at hlength
      obtain ⟨rfl, rfl⟩ := Prod.mk.inj h
      rw [if_pos hpercent, Nat.min_eq_left (by omega)]
    · rename_i hpercent
      obtain ⟨rfl, rfl⟩ := Prod.mk.inj h
      rw [if_neg hpercent, Nat.min_eq_left hk]

theorem min_of_eq {s : Text} {read : Token × Nat} {t : Token} {n : Nat} (h : read = (t, n))
    (hle : read.2 ≤ s.length) : read = (t, min n s.length) := by
  rw [h] at hle ⊢
  rw [Nat.min_eq_left hle]

theorem marked_cut {c : CodePoint} (hc : Name.isHex c = false) {s v : Text} (hv : Stops v)
    {name : Text} {m : Nat} (hread : Name.read 0 (s ++ v) = (name, m))
    (hn : Reaches (c :: s) (m + 1))
    (hrest : ¬ Hangs ((c :: s).drop (m + 1))) : Name.read 0 s = (name, min m s.length) :=
  Name.read_cut hv hread (hn.tail hc).le (fun he => (hn.tail hc).getLast? he (by decide))
    fun he => hrest (.inl he)

theorem punctuation_at_cut {s v : Text} (hv : Stops v) {t : Token} {n : Nat}
    (h : punctuation '@' (s ++ v) = (t, n)) (hn : Reaches (.char '@' :: s) n)
    (hrest : ¬ Hangs ((.char '@' :: s).drop n)) :
    punctuation '@' s = (t, min n (s.length + 1)) := by
  simp only [punctuation] at h ⊢
  by_cases hident : Name.startsIdent (s ++ v) = true
  · rw [Name.startsIdent_cut hv (by simp [hident]), if_pos hident]
    rw [if_pos hident] at h
    obtain ⟨rfl, rfl⟩ := Prod.mk.inj h
    obtain ⟨⟨name, m⟩, hread⟩ : ∃ read, Name.read 0 (s ++ v) = read := ⟨_, rfl⟩
    simp only [hread] at hn hrest ⊢
    rw [marked_cut (by decide) hv hread hn hrest]
    simp only [Nat.add_min_add_right]
  · rw [if_neg hident] at h
    obtain ⟨rfl, rfl⟩ := Prod.mk.inj h
    rw [Name.startsIdent_cut (s := s) hv fun _ => hrest, if_neg hident, Nat.min_eq_left (by omega)]

theorem punctuation_hash_cut {s v : Text} (hv : Stops v) {t : Token} {n : Nat}
    (h : punctuation '#' (s ++ v) = (t, n)) (hn : Reaches (.char '#' :: s) n)
    (hrest : ¬ Hangs ((.char '#' :: s).drop n)) :
    punctuation '#' s = (t, min n (s.length + 1)) := by
  rw [punctuation_hash, head?_any_isPart_append s hv] at h
  rw [punctuation_hash]
  by_cases hname : (s.head?.any Name.isPart || Name.startsEscape (s ++ v)) = true
  · rw [if_pos hname] at h
    obtain ⟨rfl, rfl⟩ := Prod.mk.inj h
    obtain ⟨⟨name, m⟩, hread⟩ : ∃ read, Name.read 0 (s ++ v) = read := ⟨_, rfl⟩
    simp only [hread] at hn hrest ⊢
    -- A lone backslash begins no escape before the stop, with or without a hyphen in front.
    have hident : Name.startsIdent s = Name.startsIdent (s ++ v) := by
      refine Name.startsIdent_cut hv fun hfalse hhangs => ?_
      rcases hhangs with rfl | rfl
      · have hescape : Name.startsEscape (.char '\\' :: v) = false := hfalse
        simp only [List.cons_append, List.nil_append, hescape] at hname
        cases hname
      · have hescape : Name.startsEscape (.char '\\' :: v) = false := by
          have hor : (Name.startsEscape (.char '\\' :: v) || false) = false := hfalse
          rwa [Bool.or_false] at hor
        have hshort : Name.read 0 (.char '-' :: .char '\\' :: v) = ([.char '-'], 1) := by
          have hhyphen : Name.isPart (.char '-') = true := by decide
          have hback : Name.isPart (.char '\\') = false := by decide
          simp [Name.read, hescape, hhyphen, hback]
        rw [List.cons_append, List.singleton_append, hshort] at hread
        obtain ⟨rfl, rfl⟩ := Prod.mk.inj hread
        exact hrest (.inl rfl)
    have hself : (s.head?.any Name.isPart || Name.startsEscape s) = true := by
      cases hescape : Name.startsEscape (s ++ v) with
      | true => rw [Name.startsEscape_cut hv (by simp [hescape]), hescape, Bool.or_true]
      | false =>
        rw [hescape, Bool.or_false] at hname
        rw [hname, Bool.true_or]
    rw [if_pos hself, marked_cut (by decide) hv hread hn hrest, hident]
    simp only [Nat.add_min_add_right]
  · rw [if_neg hname] at h
    obtain ⟨rfl, rfl⟩ := Prod.mk.inj h
    rw [Name.startsEscape_cut (s := s) hv fun _ he => hrest (.inl he), if_neg hname,
      Nat.min_eq_left (by omega)]

/-- A string, an at-keyword, a hash, a comment or a mark, cut off. -/
theorem punctuation_cut {c : CodePoint} {s v : Text} (hv : Stops v) {t : Token} {n : Nat}
    (hwhole : t.Whole) (h : punctuation c (s ++ v) = (t, n)) (hn : Reaches (c :: s) n)
    (hrest : ¬ Hangs ((c :: s).drop n)) :
    punctuation c s = (t, min n (c :: s).length) := by
  have hself : punctuation c s = (t, n) → punctuation c s = (t, min n (c :: s).length) :=
    fun he => min_of_eq he (punctuation_length c s).2
  have hlong : n ≤ s.length + 2 := hn.le
  rcases isMark_or c with ⟨b, rfl | rfl⟩ | (rfl | rfl) | rfl | rfl | rfl | rfl | rfl | hmark
  · rw [punctuation_opening] at h
    exact hself ((punctuation_opening b s).trans h)
  · rw [punctuation_closing] at h
    exact hself ((punctuation_closing b s).trans h)
  iterate 2 exact hself (quoted_cut (by decide) hv hwhole h hlong)
  · exact punctuation_at_cut hv h hn hrest
  · exact punctuation_hash_cut hv h hn hrest
  all_goals refine hself ?_
  -- A slash opens a comment if a star follows, which is no stop.
  · by_cases hstar : s.head? = some (.char '*')
    · obtain ⟨s, rfl⟩ := List.head?_eq_some_iff.1 hstar
      rw [List.cons_append, punctuation_comment_iff hwhole] at h
      obtain ⟨text, k, hread, htoken, hk⟩ := h
      rw [List.length_cons] at hlong
      exact (punctuation_comment_iff hwhole).2
        ⟨text, k, comment_cut hv hread (by omega), htoken, hk⟩
    · have hstar' : (s ++ v).head? ≠ some (.char '*') := by
        rwa [Ne, head?_append_iff hv (by decide)]
      rw [punctuation_slash hstar]
      rwa [punctuation_slash hstar'] at h
  · rwa [punctuation_angle, isPrefixOf_append (by decide) hv, ← punctuation_angle] at h
  · simpa only [punctuation_bar, head?_append_iff hv (by decide : isStop (.char '|') = false),
      head?_append_iff hv (by decide : isStop (.char '=') = false)] using h
  · simpa only [fun t => punctuation_mark t hmark,
      head?_append_iff hv (by decide : isStop (.char '=') = false)] using h

/-! ## Tokens -/

/-- A backslash that might begin an escape, and begins no name. -/
theorem not_hangs_of_mark {c : CodePoint} {s v : Text} (hv : Stops v) {t : Token} {n : Nat}
    (h : (match numberLength (c :: s) with
      | 0 => punctuation c (s ++ v)
      | k + 1 => numeric (c :: (s ++ v)) (k + 1)) = (t, n))
    (hrest : ¬ Hangs ((c :: s).drop n)) (hleads : t.Leads → n ≤ s.length) : ¬ Hangs (c :: s) := by
  have hmark : ∀ {c : CodePoint} {t' : Text}, c = '\\' ∨ c = '-' → t'.head? ≠ some (.char '=') →
      punctuation c t' = (literal [c], 1) := by
    rintro c t' (rfl | rfl) hhead <;>
      rw [punctuation_mark t' (by decide), if_neg fun he => hhead he.1]
  rintro (he | he)
  -- Alone at the end it is a mark of its own, which has to be followed by something.
  · obtain ⟨rfl, rfl⟩ := List.cons.inj he
    have hequals : v.head? ≠ some (.char '=') := fun hhead => by
      have := hv _ hhead
      cases this
    have hnumber : numberLength [CodePoint.char '\\'] = 0 := rfl
    rw [hnumber] at h
    simp only [List.nil_append, hmark (.inl rfl) hequals] at h
    obtain ⟨rfl, rfl⟩ := Prod.mk.inj h
    exact absurd (hleads (.inr rfl)) (by decide)
  -- Behind a hyphen it would be left over as the rest.
  · obtain ⟨rfl, rfl⟩ := List.cons.inj he
    have hequals : ([CodePoint.char '\\'] ++ v).head? ≠ some (.char '=') := by simp
    have hnumber : numberLength [CodePoint.char '-', .char '\\'] = 0 := rfl
    rw [hnumber] at h
    simp only [hmark (.inr rfl) hequals] at h
    rw [← (Prod.mk.inj h).2] at hrest
    exact hrest (.inl rfl)

/-- **A token, cut off** behind it or behind a later one, or before the space that ends it. -/
theorem token_cut {c : CodePoint} {s v : Text} (hv : Stops v) {t : Token} {n : Nat}
    (hwhole : t.Whole) (h : token c (s ++ v) = (t, n)) (hn : Reaches (c :: s) n)
    (hrest : ¬ Hangs ((c :: s).drop n))
    (hlast : ∃ p ∈ (c :: s).getLast?, Name.isSpace p = false) (hleads : t.Leads → n ≤ s.length) :
    token c s = (t, min n (s.length + 1)) := by
  obtain ⟨p, hp, hspace⟩ := hlast
  have hself : token c s = (t, n) → token c s = (t, min n (s.length + 1)) :=
    fun he => min_of_eq (s := c :: s) he (token_length c s).2
  have hspaces : (c :: (s ++ v)).takeWhile Name.isSpace = (c :: s).takeWhile Name.isSpace :=
    takeWhile_append_of_mem (List.mem_of_getLast? hp) hspace
  have hnumber : numberLength (c :: (s ++ v)) = numberLength (c :: s) :=
    numberLength_append (s := c :: s) hv
  have harrow : (c :: (s ++ v)).take 3 = ("-->" : Text) ↔ (c :: s).take 3 = ("-->" : Text) :=
    arrow_append (c :: s) hv
  unfold token at h hself ⊢
  simp only [hspaces, startsRange_append c hv, hnumber, harrow] at h
  -- The kinds of tokens in the order in which they are tried. Each test has the same answer without
  -- what is cut off.
  by_cases hspace : Name.isSpace c = true
  · rw [if_pos hspace] at h hself ⊢
    exact hself h
  rw [if_neg hspace] at h hself ⊢
  by_cases hrange : startsRange (c :: s) = true
  · rw [if_pos hrange] at h hself ⊢
    have hplus : (s ++ v).drop 1 = s.drop 1 ++ v := by
      cases s with
      | nil => simp [startsRange] at hrange
      | cons d s => rfl
    rw [hplus, range_append hv] at h
    exact hself h
  rw [if_neg hrange] at h hself ⊢
  by_cases hthree : (c :: s).take 3 = ("-->" : Text)
  · rw [if_pos hthree] at h hself ⊢
    exact hself h
  rw [if_neg hthree] at h hself ⊢
  -- Only a backslash at the end could begin a name with what is cut off.
  have hident : Name.startsIdent (c :: s) = Name.startsIdent (c :: (s ++ v)) :=
    Name.startsIdent_cut (s := c :: s) hv fun hfalse => by
      rw [List.cons_append] at hfalse
      rw [if_neg (by simp [hfalse])] at h
      exact not_hangs_of_mark hv h hrest hleads
  rw [hident]
  split at h
  · rename_i hstarts
    rw [if_pos hstarts]
    exact identLike_cut hv hwhole h hn hrest ⟨p, hp, ‹_›⟩ fun name hname =>
      Nat.lt_succ_of_le (hleads (.inl ⟨name, hname⟩))
  rename_i hstarts
  rw [if_neg hstarts]
  cases hlength : numberLength (c :: s) with
  | zero =>
    rw [hlength] at h
    exact punctuation_cut hv hwhole h hn hrest
  | succ k =>
    rw [hlength] at h
    exact numeric_cut hv (hlength ▸ numberLength_le (c :: s)) h hn hrest

/-- A name that begins with an escape goes on behind it. -/
theorem length_lt_read {s v : Text} (hne : v ≠ []) (hs : Hangs s)
    (hident : Name.startsIdent (s ++ v)) : s.length < (Name.read 0 (s ++ v)).2 := by
  rcases hs with rfl | rfl
  · exact (Name.length_read_escape hident).2 hne
  · have hstarts : Name.startsEscape (.char '\\' :: v) = true := by
      have hor : (Name.startsEscape (.char '\\' :: v) || false) = true := hident
      rwa [Bool.or_false] at hor
    have hhyphen : Name.isPart (.char '-') = true := by decide
    have hread : (Name.read 0 (.char '-' :: .char '\\' :: v)).2 =
        (Name.read 0 (.char '\\' :: v)).2 + 1 := by
      simp only [Name.read, hhyphen, if_true]
    have hlong := (Name.length_read_escape hstarts).2 hne
    rw [List.cons_append, List.singleton_append, hread]
    exact Nat.succ_lt_succ hlong

theorem read_le_identLike (t : Text) : (Name.read 0 t).2 ≤ (identLike t).2 := by
  simp only [identLike]
  split
  · split <;> simp only <;> omega
  · exact Nat.le_refl _

/-- A token that ends within a text before a stop leaves no escape open. -/
theorem not_hangs_of_token {c : CodePoint} {s v : Text} (hv : Stops v) (hne : v ≠ []) {t : Token}
    {n : Nat} (h : token c (s ++ v) = (t, n)) (hn : n ≤ s.length + 1)
    (hrest : ¬ Hangs ((c :: s).drop n)) (hleads : t.Leads → n ≤ s.length) : ¬ Hangs (c :: s) := by
  intro hs
  have hclosed : Name.isSpace c = false ∧ startsRange (c :: s) = false ∧
      ¬ (c :: s).take 3 = ("-->" : Text) := by
    rcases hs with he | he <;> obtain ⟨rfl, rfl⟩ := List.cons.inj he <;> decide
  have harrow : (c :: (s ++ v)).take 3 = ("-->" : Text) ↔ (c :: s).take 3 = ("-->" : Text) :=
    arrow_append (c :: s) hv
  have hnumber : numberLength (c :: (s ++ v)) = numberLength (c :: s) :=
    numberLength_append (s := c :: s) hv
  unfold token at h
  simp only [startsRange_append c hv, harrow, hclosed, hnumber, Bool.false_eq_true, if_false] at h
  split at h
  -- A name would reach over the stop.
  · rename_i hident
    have hlong := length_lt_read hne hs hident
    have hread := read_le_identLike (c :: s ++ v)
    rw [List.cons_append, h] at hread
    rw [List.cons_append, List.length_cons] at hlong
    simp only at hread
    omega
  · exact not_hangs_of_mark hv h hrest hleads hs

end Scan

/-! ## Rows of pieces -/

namespace Piece

/-- A piece of a text, cut off behind it or behind a later piece. No escape stays open. -/
theorem ReadsIn.cut {p : Piece} {tail v : Text} (hv : Stops v) (hne : v ≠ [])
    (h : p.ReadsIn (tail ++ v)) (hwhole : p.token.Whole) (hrest : ¬ Hangs tail)
    (hlast : ∃ q ∈ (p.text ++ tail).getLast?, Name.isSpace q = false)
    (hleads : p.token.Leads → tail ≠ []) : p.ReadsIn tail ∧ ¬ Hangs (p.text ++ tail) := by
  obtain ⟨c, cs, htext, htoken⟩ := h
  rw [← List.append_assoc] at htoken
  rw [htext] at htoken hlast ⊢
  have hfits : (c :: cs).length ≤ (cs ++ tail).length + 1 := by simp
  have hleads : p.token.Leads → (c :: cs).length ≤ (cs ++ tail).length := fun hl => by
    have := List.length_pos_iff.2 (hleads hl)
    rw [List.length_append, List.length_cons]
    omega
  have hrest : ¬ Hangs ((c :: (cs ++ tail)).drop (c :: cs).length) := by simpa using hrest
  have hcut := Scan.token_cut hv hwhole htoken (.inl hfits) hrest hlast hleads
  rw [Nat.min_eq_left hfits] at hcut
  exact ⟨⟨c, cs, htext, by rw [hcut, htext]⟩,
    Scan.not_hangs_of_token hv hne htoken hfits hrest hleads⟩

/-- A piece that loses the space after an escape by its number. -/
theorem ReadsIn.cut_space {text after : Text} {token : Token} {c : CodePoint}
    (h : ReadsIn ⟨text ++ [c], token⟩ after) (hc : Name.isSpace c) (hwhole : token.Whole)
    (hleads : ¬ token.Leads) {d : CodePoint} (hd : d ∈ text.getLast?) (hhex : Name.isHex d) :
    ReadsIn ⟨text, token⟩ [] ∧ ¬ Hangs text := by
  obtain ⟨e, cs, rfl⟩ : ∃ e cs, text = e :: cs :=
    List.exists_cons_of_ne_nil fun he => by simp [he] at hd
  obtain ⟨e', cs', htext, htoken⟩ := h
  obtain ⟨rfl, rfl⟩ := List.cons.inj htext
  have hstops : Stops (c :: after) := stops_cons (by simp [isStop, hc]) after
  have htoken : Scan.token e (cs ++ c :: after) = (token, (e :: cs).length + 1) := by
    simpa using htoken
  -- The number of the escape takes the space with it, and nothing else.
  have hreaches : Scan.Reaches (e :: cs) ((e :: cs).length + 1) := .inr ⟨rfl, d, hd, hhex⟩
  have hlast : Name.isSpace d = false := Name.isSpace_eq_false_of_isHex hhex
  have hrest : ¬ Hangs ((e :: cs).drop ((e :: cs).length + 1)) := by
    rw [List.drop_eq_nil_of_le (Nat.le_succ _)]
    exact not_hangs_nil
  have hcut := Scan.token_cut hstops hwhole htoken hreaches hrest ⟨d, hd, hlast⟩
    fun hl => absurd hl hleads
  have hlength : min ((e :: cs).length + 1) (cs.length + 1) = (e :: cs).length := by simp
  refine ⟨⟨e, cs, rfl, by rw [List.append_nil, hcut, hlength]⟩, fun hhangs => ?_⟩
  rw [hhangs.getLast?, Option.mem_some_iff] at hd
  rw [← hd] at hhex
  cases hhex

/-- **A row of whole tokens, cut off** behind its last one, or before the space that ends an escape
at the end of that. -/
theorem Spelled.cut {ps : List Piece} {text rest after : Text} {token : Token}
    (h : Spelled (ps ++ [⟨text ++ rest, token⟩]) after)
    (hwhole : ∀ p ∈ ps ++ [⟨text ++ rest, token⟩], p.token.Whole) (hafter : Stops after)
    (hlast : ∃ p ∈ text.getLast?, Name.isSpace p = false) (hleads : ¬ token.Leads)
    (hrest : rest = [] ∨ ∃ c, rest = [c] ∧ Name.isSpace c ∧ ∃ d ∈ text.getLast?, Name.isHex d) :
    Spelled (ps ++ [⟨text, token⟩]) [] := by
  by_cases hne : rest ++ after = []
  · obtain ⟨rfl, rfl⟩ := List.append_eq_nil_iff.1 hne
    rwa [List.append_nil] at h
  have hstops : Stops (rest ++ after) := by
    rcases hrest with rfl | ⟨c, rfl, hc, -⟩
    · exact hafter
    · exact stops_cons (by simp [isStop, hc]) after
  -- The induction needs to know as well that no escape stays open where it was cut.
  suffices hboth : Spelled (ps ++ [⟨text, token⟩]) [] ∧
    ¬ Hangs (textOf (ps ++ [⟨text, token⟩])) from
    hboth.1
  induction ps with
  | nil =>
    have hself : ReadsIn ⟨text, token⟩ [] ∧ ¬ Hangs text := by
      obtain ⟨hreads, -⟩ := h
      rcases hrest with rfl | ⟨c, rfl, hc, d, hd, hhex⟩
      · rw [List.append_nil] at hreads hwhole
        have := hreads.cut hafter hne (hwhole _ List.mem_cons_self) not_hangs_nil
          (by simpa using hlast) fun hl => absurd hl hleads
        simpa using this
      · exact hreads.cut_space hc (hwhole _ List.mem_cons_self) hleads hd hhex
    exact ⟨⟨hself.1, trivial⟩, by simpa using hself.2⟩
  | cons p ps ih =>
    rw [List.cons_append] at h hwhole ⊢
    obtain ⟨hreads, hps⟩ := h
    obtain ⟨hspelled, hnone⟩ := ih hps fun q hq => hwhole q (List.mem_cons_of_mem p hq)
    have htail : textOf (ps ++ [⟨text ++ rest, token⟩]) ++ after =
        textOf (ps ++ [⟨text, token⟩]) ++ (rest ++ after) := by simp
    rw [htail] at hreads
    obtain ⟨q, hq, hspace⟩ := hlast
    have hlast : q ∈ (p.text ++ textOf (ps ++ [⟨text, token⟩])).getLast? := by
      simp [List.getLast?_append, Option.mem_def.1 hq]
    have hself := hreads.cut hstops hne (hwhole p List.mem_cons_self) hnone ⟨q, hlast, hspace⟩
      fun _ => textOf_ne_nil hspelled (by simp)
    exact ⟨⟨by simpa using hself.1, hspelled⟩, hself.2⟩

end Piece

end FluidCss
