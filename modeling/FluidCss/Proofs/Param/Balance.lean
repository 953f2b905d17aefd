import FluidCss.Proofs.Param.Parsing

/-!
# Brackets that are closed

In the symbols of a text every bracket is closed by its own closing bracket. Reading such symbols
never comes to their end: at every point the brackets that are open are still to be closed, and the
reader stops at the last of these at the latest.

* `IsNested`: brackets that are closed, innermost first.
* `Owes`: what is left of such symbols, with the closing brackets that are due.
* `failsOnly_readCall_of_isNested`: a call in such symbols is read without coming to their end.

The reader does not keep the brackets apart in one place. A round bracket at the beginning of a
value is a mark like any other, so that the closing bracket that it asks for stands where the reader
expects none. The invariant `leaves_contents` counts these brackets: they are due before the closing
bracket of the object or the list, which cannot be reached while there are any. -/

namespace FluidCss.Param

open Value

/-! ## Nested symbols -/

/-- The closing bracket that a symbol asks for. -/
def Symbol.closing? (t : Symbol) : Option Text :=
  match t.kind with
  | .function => some ")"
  | .punctuation =>
    if t.text = "(" then some ")"
    else if t.text = "[" then some "]"
    else if t.text = "\x7b" then some "\x7d"
    else none
  | _ => none

/-- A symbol that neither opens nor closes a bracket. -/
def Value.IsPlain (t : Symbol) : Prop := opens t = false ∧ t.isCloser = false

/-- Every function name and opening bracket is closed by its own closing bracket, and nothing else
is closed. -/
inductive IsNested : List Symbol → Prop
  | nil : IsNested []
  | plain {t : Symbol} {ts : List Symbol} (ht : IsPlain t) (hrest : IsNested ts) :
      IsNested (t :: ts)
  | enclosed {t u : Symbol} {closer : Text} {inside rest : List Symbol}
    (hopens : t.closing? = some closer) (hcloses : u.isPunctuation closer)
    (hinside : IsNested inside) (hrest : IsNested rest) : IsNested (t :: (inside ++ u :: rest))

theorem IsNested.append {ts us : List Symbol} (hts : IsNested ts) (hus : IsNested us) :
    IsNested (ts ++ us) := by
  induction hts with
  | nil => exact hus
  | plain ht _ ih => exact .plain ht ih
  | enclosed hopens hcloses hinside _ _ ih =>
    rw [List.cons_append, List.append_assoc, List.cons_append]
    exact .enclosed hopens hcloses hinside ih

namespace Value

variable {t u : Symbol} {ts us rest : List Symbol} {closer : Text} {due : List Text}

/-! ## Single symbols -/

theorem closing?_of_function (h : t.kind = .function) : t.closing? = some (")" : Text) := by
  rw [Symbol.closing?, h]

theorem closing?_of_punctuation {text : Text} (h : t.isPunctuation text) :
    t.closing? = (⟨.punctuation, text, false⟩ : Symbol).closing? := by
  obtain ⟨hkind, htext⟩ := isPunctuation_iff.1 h
  rw [Symbol.closing?, Symbol.closing?, hkind, htext]

theorem closing?_cases (h : t.closing? = some closer) :
    (t.kind = .function ∧ closer = ")") ∨ (t.isPunctuation "(" ∧ closer = ")") ∨
      (t.isPunctuation "[" ∧ closer = "]") ∨ (t.isPunctuation "\x7b" ∧ closer = "\x7d") := by
  unfold Symbol.closing? at h
  split at h
  · rename_i hkind
    exact .inl ⟨hkind, (Option.some.inj h).symm⟩
  · rename_i hkind
    refine .inr ?_
    split at h
    · rename_i htext
      exact .inl ⟨isPunctuation_iff.2 ⟨hkind, htext⟩, (Option.some.inj h).symm⟩
    split at h
    · rename_i htext
      exact .inr (.inl ⟨isPunctuation_iff.2 ⟨hkind, htext⟩, (Option.some.inj h).symm⟩)
    split at h
    · rename_i htext
      exact .inr (.inr ⟨isPunctuation_iff.2 ⟨hkind, htext⟩, (Option.some.inj h).symm⟩)
    · cases h
  · cases h

theorem opens_of_closing? (h : t.closing? = some closer) : opens t = true := by
  rcases closing?_cases h with ⟨ht, -⟩ | ⟨ht, -⟩ | ⟨ht, -⟩ | ⟨ht, -⟩ <;>
    simp [opens, Symbol.isOpener, ht]

theorem closing?_of_opens (h : opens t = true) : ∃ closer, t.closing? = some closer := by
  rw [opens, Bool.or_eq_true, beq_iff_eq, isOpener_iff] at h
  rcases h with hfunction | ⟨hkind, htext⟩
  · exact ⟨_, closing?_of_function hfunction⟩
  · rw [Symbol.closing?, hkind]
    rcases htext with htext | htext | htext <;> rw [htext] <;> exact ⟨_, rfl⟩

theorem isCloser_of_closing? (h : t.closing? = some closer) (hu : u.isPunctuation closer) :
    u.isCloser = true ∧ u.text = closer := by
  refine ⟨?_, (isPunctuation_iff.1 hu).2⟩
  rcases closing?_cases h with ⟨-, rfl⟩ | ⟨-, rfl⟩ | ⟨-, rfl⟩ | ⟨-, rfl⟩ <;>
    simp [Symbol.isCloser, hu]

theorem isPlain_of_kind (hfunction : t.kind ≠ .function) (hpunctuation : t.kind ≠ .punctuation) :
    IsPlain t := by
  simp [IsPlain, opens, Symbol.isOpener, Symbol.isCloser, Symbol.isPunctuation, hfunction,
    hpunctuation]

theorem IsKey.isPlain (h : IsKey t) : IsPlain t := by
  rcases h with hkind | hkind <;> exact isPlain_of_kind (by simp [hkind]) (by simp [hkind])

theorem isPlain_of_continues (h : continues t u = true) : IsPlain u := by
  simp only [continues, Bool.or_eq_true, Bool.and_eq_true, beq_iff_eq, Bool.not_eq_true'] at h
  rcases h with ⟨⟨hkind, hopener⟩, hcloser⟩ | ⟨⟨hkind, -⟩, -⟩
  · exact ⟨by simp [opens, hkind, hopener], hcloser⟩
  · exact isPlain_of_kind (by simp [hkind]) (by simp [hkind])

/-! ## Brackets that are due -/

/-- The symbols close the brackets that are due, innermost first, and all that they open. -/
inductive Owes : List Text → List Symbol → Prop
  | nil : Owes [] []
  | plain {due : List Text} {t : Symbol} {ts : List Symbol} (ht : IsPlain t) (hrest : Owes due ts) :
    Owes due (t :: ts)
  | opening {due : List Text} {t : Symbol} {ts : List Symbol} {closer : Text}
    (hopens : t.closing? = some closer) (hrest : Owes (closer :: due) ts) : Owes due (t :: ts)
  | closing {due : List Text} {t : Symbol} {ts : List Symbol} (hcloser : t.isCloser)
    (hrest : Owes due ts) : Owes (t.text :: due) (t :: ts)

theorem Owes.append (hts : IsNested ts) (hus : Owes due us) : Owes due (ts ++ us) := by
  induction hts generalizing due us with
  | nil => exact hus
  | plain ht _ ih => exact .plain ht (ih hus)
  | enclosed hopens hcloses _ _ ihinside ihrest =>
    rw [List.cons_append, List.append_assoc, List.cons_append]
    obtain ⟨hcloser, rfl⟩ := isCloser_of_closing? hopens hcloses
    exact .opening hopens (ihinside (.closing hcloser (ihrest hus)))

namespace Owes

theorem ne_nil (h : Owes (closer :: due) ts) : ts ≠ [] := by
  rintro rfl
  cases h

theorem of_plain (h : Owes due (t :: ts)) (ht : IsPlain t) : Owes due ts := by
  cases h with
  | plain _ hrest => exact hrest
  | opening hopens _ => simp [opens_of_closing? hopens, IsPlain] at ht
  | closing hcloser _ => simp [hcloser, IsPlain] at ht

theorem of_opens (h : Owes due (t :: ts)) (ht : t.closing? = some closer) :
    Owes (closer :: due) ts := by
  have hopens := opens_of_closing? ht
  cases h with
  | plain hplain _ => simp [hopens, IsPlain] at hplain
  | opening hcloser hrest =>
    rw [ht] at hcloser
    rwa [Option.some.inj hcloser]
  | closing hcloser _ => simp [opens_of_isCloser hcloser] at hopens

/-- A closing bracket is the one that is due. -/
theorem of_isCloser (h : Owes due (t :: ts)) (ht : t.isCloser = true) :
    ∃ due', due = t.text :: due' ∧ Owes due' ts := by
  have hnone := opens_of_isCloser ht
  cases h with
  | plain hplain _ => simp [ht, IsPlain] at hplain
  | opening hopens _ =>
    rw [opens_of_closing? hopens] at hnone
    cases hnone
  | closing _ hrest => exact ⟨_, rfl, hrest⟩

end Owes

/-! ## What is passed over -/

theorem owes_skipDividers (h : Owes due ts) : Owes due (skipDividers ts) := by
  induction ts with
  | nil => exact h
  | cons t ts ih =>
    by_cases hkind : t.kind = .divider
    · have hplain : IsPlain t := isPlain_of_kind (by simp [hkind]) (by simp [hkind])
      have hrest := ih (h.of_plain hplain)
      simpa [skipDividers, hkind] using hrest
    · rwa [skipDividers_cons hkind]

theorem owes_splitRun (last : Symbol) (h : Owes due ts) : Owes due (splitRun last ts).2 := by
  induction ts generalizing last with
  | nil => exact h
  | cons t ts ih =>
    unfold splitRun
    split
    · rename_i hgoes
      exact ih t (h.of_plain (isPlain_of_continues hgoes))
    · exact h

/-- A call is passed over to its closing bracket, and what was due around it still is. The brackets
that are open in it, and its own, are due before. -/
theorem exists_afterCall {inner : List Text} (h : Owes (inner ++ closer :: due) ts) :
    ∃ rest, afterCall inner.length ts = .ok rest ∧ Owes due rest := by
  -- The brackets that are open within the call count as its depth, so the induction is for every
  -- row of them.
  induction ts generalizing inner with
  | nil =>
    cases inner <;> exact absurd rfl h.ne_nil
  | cons t ts ih =>
    unfold afterCall
    by_cases hopens : opens t = true
    · obtain ⟨closer', hcloser'⟩ := closing?_of_opens hopens
      have hinside : Owes (closer' :: inner ++ closer :: due) ts := h.of_opens hcloser'
      simpa only [hopens, if_true, List.length_cons] using ih hinside
    by_cases hcloser : t.isCloser = true
    · obtain ⟨due', hdue, hrest⟩ := h.of_isCloser hcloser
      -- The closing bracket is the call's own, or that of a bracket within the call.
      cases inner with
      | nil =>
        obtain ⟨-, rfl⟩ := List.cons.inj hdue
        exact ⟨ts, by simp [hopens, hcloser], hrest⟩
      | cons _ inner =>
        obtain ⟨-, rfl⟩ := List.cons.inj hdue
        simpa only [hopens, hcloser, if_true, Bool.false_eq_true, if_false, List.length_cons]
          using ih hrest
    · rw [Bool.not_eq_true] at hopens hcloser
      have hrest := ih (h.of_plain ⟨hopens, hcloser⟩)
      simpa only [hopens, hcloser, Bool.false_eq_true, if_false] using hrest

/-! ## Objects and lists -/

/-- What is read does not come to the end of the symbols, and what follows it is as told. -/
inductive Leaves (P : List Symbol → Prop) : Except Error (Value × List Symbol) → Prop
  | ok {v : Value} {rest : List Symbol} (h : P rest) : Leaves P (.ok (v, rest))
  | error {e : Error} (h : e ≠ .paramsEnd) : Leaves P (.error e)

theorem Leaves.bind {P Q : List Symbol → Prop} {x : Except Error (Value × List Symbol)}
    {f : Value × List Symbol → Except Error (Value × List Symbol)} (hx : Leaves P x)
    (hf : ∀ v rest, x = .ok (v, rest) → P rest → Leaves Q (f (v, rest))) : Leaves Q (x >>= f) := by
  cases hx with
  | ok h => exact hf _ _ rfl h
  | error h => exact .error h

theorem Leaves.mono {P Q : List Symbol → Prop} {x : Except Error (Value × List Symbol)}
    (h : Leaves P x) (hPQ : ∀ rest, P rest → Q rest) : Leaves Q x := by
  cases h with
  | ok h => exact .ok (hPQ _ h)
  | error h => exact .error h

theorem Leaves.failsOnly {P : List Symbol → Prop} {x : Except Error (Value × List Symbol)}
    (h : Leaves P x) : FailsOnly (· ≠ .paramsEnd) x := by
  cases h with
  | ok _ => exact .ok _
  | error h => exact .error h

theorem Leaves.of_ok {P : List Symbol → Prop} {v : Value} (h : Leaves P (.ok (v, rest))) :
    P rest := by
  cases h with
  | ok h => exact h

/-- The bracket that closes an object or a list. -/
def Unfinished.ending : Unfinished → Text
  | .object _ => "\x7d"
  | .list _ => "]"

/-- What is due inside an object or a list: the round brackets that stand there as marks, and its
own closing bracket. -/
def dueIn (marks : Nat) (part : Unfinished) (due : List Text) : List Text :=
  List.replicate marks (")" : Text) ++ part.ending :: due

variable {part : Unfinished} {marks bound : Nat}

theorem ne_nil_of_dueIn (h : Owes (dueIn marks part due) ts) : ts ≠ [] := by
  cases marks <;> exact h.ne_nil

/-- An object or a list is closed only where no other bracket is due. -/
theorem owes_of_ending (h : Owes (dueIn marks part due) (t :: ts))
    (ht : t.isPunctuation part.ending) : Owes due ts := by
  obtain ⟨hkind, htext⟩ := isPunctuation_iff.1 ht
  have hcloser : t.isCloser = true := by
    refine isCloser_iff.2 ⟨hkind, ?_⟩
    rw [htext]
    cases part with
    | object _ => exact .inr (.inr rfl)
    | list _ => exact .inr (.inl rfl)
  obtain ⟨due', hdue, hrest⟩ := h.of_isCloser hcloser
  -- With round brackets due before it, the ending would have to be a round bracket itself.
  cases marks with
  | zero =>
    obtain ⟨-, rfl⟩ := List.cons.inj hdue
    exact hrest
  | succ marks =>
    have hround : part.ending = ")" := htext.symm.trans (List.cons.inj hdue).1.symm
    have hdiffer : ("\x7d" : Text) ≠ ")" ∧ ("]" : Text) ≠ ")" := by decide
    cases part with
    | object _ => exact absurd hround hdiffer.1
    | list _ => exact absurd hround hdiffer.2

/-- Reading a value leaves what was due, and one more bracket if it begins with a round one. -/
theorem leaves_readWith
    (hcontents : ∀ {marks part due ts}, ts.length ≤ bound → Owes (dueIn marks part due) ts →
      Leaves (Owes due) (contents bound part ts))
    (key : Option Text) (hts : ts.length ≤ bound) (h : Owes due (t :: ts)) :
    Leaves (fun rest => Owes due rest ∨ Owes ((")" : Text) :: due) rest)
      (readWith (contents bound) key t ts) := by
  unfold readWith
  by_cases hcurly : t.isPunctuation "\x7b" = true
  · rw [if_pos hcurly]
    have hinside : Owes (dueIn 0 (.object []) due) ts := h.of_opens (closing?_of_punctuation hcurly)
    exact (hcontents hts hinside).mono fun _ => .inl
  rw [if_neg hcurly]
  by_cases hsquare : t.isPunctuation "[" = true
  · rw [if_pos hsquare]
    have hinside : Owes (dueIn 0 (.list []) due) ts := h.of_opens (closing?_of_punctuation hsquare)
    exact (hcontents hts hinside).mono fun _ => .inl
  rw [if_neg hsquare]
  by_cases hfunction : t.kind = .function
  · rw [if_pos hfunction]
    have hinside : Owes ([] ++ (")" : Text) :: due) ts :=
      h.of_opens (closing?_of_function hfunction)
    -- A call is passed over with its own bracket, and no other is open in it yet.
    obtain ⟨rest, hafter, hrest⟩ := exists_afterCall hinside
    rw [show afterCall 0 ts = .ok rest from hafter]
    exact .ok (.inl hrest)
  rw [if_neg hfunction]
  by_cases hstring : t.kind = .string
  · rw [if_pos hstring]
    have hplain : IsPlain t := isPlain_of_kind (by simp [hstring]) (by simp [hstring])
    exact .ok (.inl (h.of_plain hplain))
  rw [if_neg hstring]
  by_cases hcloser : t.isCloser = true
  · rw [if_pos hcloser]
    exact .error (by simp)
  rw [if_neg hcloser]
  refine .ok ?_
  -- A bare value that begins with a bracket begins with a round one, for the others were read
  -- above.
  by_cases hopens : opens t = true
  · obtain ⟨closer, hclosing⟩ := closing?_of_opens hopens
    have hround : closer = ")" := by
      rcases closing?_cases hclosing with ⟨-, h⟩ | ⟨-, h⟩ | ⟨h, -⟩ | ⟨h, -⟩
      · exact h
      · exact h
      · exact absurd h hsquare
      · exact absurd h hcurly
    exact .inr (owes_splitRun t (h.of_opens (hround ▸ hclosing)))
  · rw [Bool.not_eq_true] at hopens hcloser
    exact .inl (owes_splitRun t (h.of_plain ⟨hopens, hcloser⟩))

theorem length_skipDividers_le (ts : List Symbol) : (skipDividers ts).length ≤ ts.length := by
  obtain ⟨ds, -, hds⟩ := exists_dividers ts
  conv_rhs => rw [hds, List.length_append]
  exact Nat.le_add_left _ _

/-- A value in an object or a list is followed by the rest of it, in which there may be one more
round bracket to be closed. -/
theorem leaves_readWith_bind
    (hcontents : ∀ {marks part due ts}, ts.length ≤ bound → Owes (dueIn marks part due) ts →
      Leaves (Owes due) (contents bound part ts))
    (key : Option Text) (hdivider : t.kind ≠ .divider) (hts : ts.length ≤ bound)
    (h : Owes (dueIn marks part due) (t :: ts)) (next : Value → Unfinished)
    (hnext : ∀ v, (next v).ending = part.ending) :
    Leaves (Owes due)
      (readWith (contents bound) key t ts >>= fun (v, rest) => contents bound (next v) rest) := by
  refine (leaves_readWith hcontents key hts h).bind fun v rest hok howes => ?_
  have hrest : rest.length ≤ bound := by
    have hshorter := (isValue_of_readWith (isReadAs_of_contents bound) hdivider hok).length_lt
    exact (Nat.le_of_lt_succ hshorter).trans hts
  have hdue : ∀ marks, dueIn marks part due = dueIn marks (next v) due := by
    intro marks
    rw [dueIn, dueIn, hnext]
  rw [hdue] at howes
  -- A round bracket that the value has left open is one more mark that is due before the ending.
  rcases howes with howes | howes
  · exact hcontents hrest howes
  · have hmore : Owes (dueIn (marks + 1) (next v) due) rest := howes
    exact hcontents hrest hmore

/-- **An object or a list is read to its closing bracket.** -/
theorem leaves_contents : ∀ (bound : Nat) {marks : Nat} {part : Unfinished} {due : List Text}
    {ts : List Symbol}, ts.length ≤ bound → Owes (dueIn marks part due) ts →
      Leaves (Owes due) (contents bound part ts)
  -- Induction on the bound on the turns.
  | 0, _, _, _, ts, hts, h =>
    absurd (List.length_eq_zero_iff.1 (Nat.le_zero.1 hts)) (ne_nil_of_dueIn h)
  | bound + 1, marks, part, due, ts, hts, h => by
    have hlength := (length_skipDividers_le ts).trans hts
    have hrest := owes_skipDividers h
    unfold contents
    split
    · rename_i bound' t ts' hbound hskip
      obtain rfl : bound = bound' := Nat.succ.inj hbound
      have hdivider := kind_of_skipDividers hskip
      rw [hskip] at hrest hlength
      have hts' : ts'.length ≤ bound := Nat.le_of_succ_le_succ hlength
      cases part with
      | object fields =>
        simp only
        split
        · rename_i hclose
          exact .ok (owes_of_ending hrest hclose)
        split
        · rename_i hkey
          have hvalue := owes_skipDividers (hrest.of_plain (IsKey.isPlain hkey))
          split
          · rename_i hskip'
            -- The ending is still due after a key, so the symbols cannot be over.
            exact absurd hskip' (ne_nil_of_dueIn hvalue)
          · rename_i u us hskip'
            have hus := (length_skipDividers_le ts').trans hts'
            rw [hskip'] at hvalue hus
            exact leaves_readWith_bind (leaves_contents bound) _ (kind_of_skipDividers hskip')
              (Nat.le_of_succ_le hus) hvalue (fun v => .object (Ordered.put t.text v fields))
              fun _ => rfl
        · exact .error (by simp)
      | list items =>
        simp only
        split
        · rename_i hclose
          exact .ok (owes_of_ending hrest hclose)
        · exact leaves_readWith_bind (leaves_contents bound) none hdivider hts' hrest
            (fun v => .list (items ++ [v])) fun _ => rfl
    -- The turns last as long as the symbols, and the symbols are not over before the ending.
    · rename_i hstuck
      obtain ⟨t, ts', hskip⟩ := List.exists_cons_of_ne_nil (ne_nil_of_dueIn hrest)
      exact absurd hskip (hstuck bound t ts' rfl)

/-! ## Calls -/

theorem failsOnly_expect_of_owes (bracket : Text) (h : Owes (closer :: due) ts) :
    FailsOnly (· ≠ .paramsEnd) (expect bracket ts) := by
  unfold expect
  split
  · exact absurd rfl h.ne_nil
  split
  · exact .ok _
  · exact .error (by simp)

theorem failsOnly_readArgument_of_owes (h : Owes (closer :: due) ts) :
    FailsOnly (· ≠ .paramsEnd) (readArgument ts) := by
  refine (failsOnly_expect_of_owes "\x7b" h).bind fun inside hopen => ?_
  obtain ⟨t, rfl, hcurly⟩ := expect_eq_ok_iff.1 hopen
  have hinside : Owes (dueIn 0 (.object []) (closer :: due)) inside :=
    h.of_opens (closing?_of_punctuation hcurly)
  have hread := leaves_contents inside.length (Nat.le_refl _) hinside
  refine hread.failsOnly.bind fun (v, rest) hok => ?_
  rw [hok] at hread
  exact (failsOnly_expect_of_owes ")" (owes_skipDividers hread.of_ok)).bind fun _ _ => .ok _

/-- **A call in nested symbols is read without coming to their end**, unless there are none. -/
theorem failsOnly_readCall_of_isNested (name : Text) (h : IsNested ts) (hne : ts ≠ []) :
    FailsOnly (· ≠ .paramsEnd) (readCall name ts) := by
  obtain ⟨t, ts, rfl⟩ := List.exists_cons_of_ne_nil hne
  have howes : Owes [] (t :: ts) := by
    have happend := Owes.append h .nil
    rwa [List.append_nil] at happend
  unfold readCall
  split
  · contradiction
  split
  · rename_i t ts heq hname
    obtain ⟨rfl, rfl⟩ := List.cons.inj heq
    have hargument := howes.of_opens (closing?_of_function hname.1)
    split
    · split
      · exact .ok _
      · exact failsOnly_readArgument_of_owes hargument
    · exact failsOnly_readArgument_of_owes hargument
  · exact .error (by simp)

end Value

end FluidCss.Param
