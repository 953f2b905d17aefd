import FluidCss.Proofs.Param.Grammar
import FluidCss.Proofs.Param.Reading
import FluidCss.Proofs.Result

/-!
# Parameters are read by their grammar

The reader is complete and sound for the grammar: it gives exactly the value of the phrase that the
symbols begin with, and where they begin with none it fails with an error of the configuration. The
grammar knows no bound on the turns; that the number of symbols bounds them is part of completeness.

* `IsValue.readFirst_eq`, `IsItems.contents_eq`, `IsEntries.contents_eq`: a phrase is read.
* `isValue_of_readWith`, `isReadAs_of_contents`: what is read is a phrase.
* `readCall_follows_grammar`: a call is read exactly if the grammar has it.
-/

namespace FluidCss.Param.Value

/-! ## Phrases are read -/

theorem StartsBare.isCloser_eq_false {t : Symbol} (h : StartsBare t) : t.isCloser = false := by
  rw [← Bool.not_eq_true, isCloser_iff]
  rintro ⟨hkind, htext⟩
  rcases h with hword | ⟨-, -, -, hround, hsquare, hcurly⟩
  · rw [hword] at hkind
    cases hkind
  · rcases htext with htext | htext | htext <;> contradiction

/-- A value begins with no divider and no closing bracket. -/
theorem IsValue.exists_cons {ts rest : List Symbol} {v : Value} (h : IsValue ts v rest) :
    ∃ t us, ts = t :: us ∧ t.kind ≠ .divider ∧ t.isCloser = false := by
  -- The first symbol is an opening bracket, a string, a call or the beginning of a bare value.
  have hopener : ∀ {t : Symbol} {text : Text}, t.isPunctuation text = true →
      text ≠ ")" ∧ text ≠ "]" ∧ text ≠ "\x7d" → t.kind ≠ .divider ∧ t.isCloser = false := by
    intro t text ht htext
    obtain ⟨hkind, rfl⟩ := isPunctuation_iff.1 ht
    refine ⟨by simp [hkind], ?_⟩
    rw [← Bool.not_eq_true, isCloser_iff]
    tauto
  have hkind : ∀ {t : Symbol}, t.kind = .string ∨ t.kind = .function →
      t.kind ≠ .divider ∧ t.isCloser = false := by
    rintro t (hkind | hkind) <;> simp [hkind, Symbol.isCloser, Symbol.isPunctuation]
  have hbare : ∀ {t : Symbol}, StartsBare t → t.kind ≠ .divider ∧ t.isCloser = false :=
    fun ht => ⟨by rcases ht with hword | ⟨hmark, -⟩ <;> simp [*], ht.isCloser_eq_false⟩
  cases h with
  | object hopen => exact ⟨_, _, rfl, hopener hopen (by decide)⟩
  | list hopen => exact ⟨_, _, rfl, hopener hopen (by decide)⟩
  | string hstring => exact ⟨_, _, rfl, hkind (.inl hstring)⟩
  | call hfunction => exact ⟨_, _, rfl, hkind (.inr hfunction)⟩
  | single hstart => exact ⟨_, _, rfl, hbare hstart⟩
  | run hstart => exact ⟨_, _, rfl, hbare hstart⟩

/-- A bare value is read as the symbol that its run is joined to. -/
theorem readWith_bare {contents : Unfinished → List Symbol → Except Error (Value × List Symbol)}
    {t : Symbol} {run rest : List Symbol} (hstart : StartsBare t) (hrun : IsLongestRun t run rest)
    (key : Option Text) :
    readWith contents key t (run ++ rest) = .ok (.symbol (join t run), rest) := by
  have hsplit := splitRun_eq_iff.2 ⟨rfl, hrun⟩
  have hcloser := hstart.isCloser_eq_false
  rcases hstart with hword | ⟨hmark, hcurly, hsquare, -⟩
  · simp [readWith, Symbol.isPunctuation, hword, hcloser, hsplit]
  · simp [readWith, Symbol.isPunctuation, hmark, hcurly, hsquare, hcloser, hsplit]

/-- Reads the value that the symbols begin with. -/
def readFirst (contents : Unfinished → List Symbol → Except Error (Value × List Symbol))
    (key : Option Text) : List Symbol → Except Error (Value × List Symbol)
  | [] => .error .paramsEnd
  | t :: ts => readWith contents key t ts

/-- Sets the values of entries one after the other. -/
def putAll (entries fields : List (Text × Value)) : List (Text × Value) :=
  entries.foldl (fun m e => Ordered.put e.1 e.2 m) fields

mutual

/-- **A value is read as the grammar has it.** -/
theorem IsValue.readFirst_eq {ts rest : List Symbol} {v : Value} (key : Option Text) (bound : Nat) :
    IsValue ts v rest → ts.length ≤ bound + 1 →
      readFirst (contents bound) key ts = .ok (v, rest)
  -- Induction on how the grammar has it.
  | .object hopen hentries hfields, hbound => by
    have hread := hentries.contents_eq [] bound (Nat.le_of_succ_le_succ hbound)
    simp only [readFirst, readWith, hopen, if_true, hread, Ordered.isDictionary_iff.1 hfields]
    rfl
  | .list (t := t) hopen hitems, hbound => by
    have hcurly : t.isPunctuation "\x7b" = false := by
      rw [← Bool.not_eq_true, isPunctuation_iff, (isPunctuation_iff.1 hopen).2]
      exact fun h => absurd h.2 (by decide)
    have hread := hitems.contents_eq [] bound (Nat.le_of_succ_le_succ hbound)
    simp only [readFirst, readWith, hopen, hcurly, Bool.false_eq_true, if_false, if_true, hread,
      List.nil_append]
  | .string hkind, _ => by simp [readFirst, readWith, Symbol.isPunctuation, hkind]
  | @IsValue.call t inside rest hkind hbalanced, _ => by
    have hafter : afterCall 0 (inside ++ rest) = .ok rest :=
      afterCall_eq_ok_iff.2 ⟨inside, rfl, (isBalanced_call hkind).1 hbalanced⟩
    simp [readFirst, readWith, Symbol.isPunctuation, hkind, hafter, bind, Except.bind, pure,
      Except.pure]
  | .single hstart hrun, _ => readWith_bare hstart hrun key
  | .run hstart hrun, _ => (readWith_bare hstart hrun key).trans (by rw [join_cons])

theorem IsItems.contents_eq {ts rest : List Symbol} {vs : List Value} (items : List Value)
    (bound : Nat) : IsItems ts vs rest → ts.length ≤ bound →
      contents bound (.list items) ts = .ok (.list (items ++ vs), rest)
  | .close hds hclose, hbound => by
    rw [List.length_append, List.length_cons] at hbound
    obtain ⟨bound, rfl⟩ := Nat.exists_eq_add_of_le' (Nat.le_trans (Nat.le_add_left 1 _) hbound)
    rw [contents_dividers hds, List.append_nil]
    exact contents_list_close hclose
  | .item hds hvalue hitems, hbound => by
    -- The value takes a symbol at least, so the turns are enough for the rest.
    have hshorter := hvalue.length_lt
    have hread := hvalue.readFirst_eq none
    obtain ⟨t, us, rfl, hdivider, hcloser⟩ := hvalue.exists_cons
    have hsquare : t.isPunctuation "]" = false := by
      simp only [Symbol.isCloser, Bool.or_eq_false_iff] at hcloser
      exact hcloser.1.2
    simp only [List.length_append, List.length_cons] at hbound hshorter
    obtain ⟨bound, rfl⟩ := Nat.exists_eq_add_of_le' (show 1 ≤ bound by omega)
    rw [contents_dividers hds, contents_list_cons hdivider hsquare
      (hread bound (by simp only [List.length_cons]; omega)), hitems.contents_eq _ _ (by omega),
      List.append_assoc, List.singleton_append]

theorem IsEntries.contents_eq {ts rest : List Symbol} {entries : List (Text × Value)}
    (fields : List (Text × Value)) (bound : Nat) : IsEntries ts entries rest → ts.length ≤ bound →
      contents bound (.object fields) ts = .ok (.object (putAll entries fields), rest)
  | .close hds hclose, hbound => by
    rw [List.length_append, List.length_cons] at hbound
    obtain ⟨bound, rfl⟩ := Nat.exists_eq_add_of_le' (Nat.le_trans (Nat.le_add_left 1 _) hbound)
    rw [contents_dividers hds]
    exact contents_object_close hclose
  | .entry (k := k) hds hkey hes hvalue hentries, hbound => by
    have hshorter := hvalue.length_lt
    have hread := hvalue.readFirst_eq (some k.text)
    obtain ⟨t, us, rfl, hdivider, -⟩ := hvalue.exists_cons
    simp only [List.length_append, List.length_cons] at hbound hshorter
    obtain ⟨bound, rfl⟩ := Nat.exists_eq_add_of_le' (show 1 ≤ bound by omega)
    rw [contents_dividers hds, contents_entry hkey hes hdivider
      (hread bound (by simp only [List.length_cons]; omega)), hentries.contents_eq _ _ (by omega)]
    rfl

end

/-! ## What is read is a phrase -/

/-- What is read of a part of an object or a list is the rest of it, as the grammar has it. -/
def Unfinished.IsReadAs : Unfinished → List Symbol → Value → List Symbol → Prop
  | .object fields, ts, v, rest =>
    ∃ entries, IsEntries ts entries rest ∧ v = .object (putAll entries fields)
  | .list items, ts, v, rest => ∃ vs, IsItems ts vs rest ∧ v = .list (items ++ vs)

theorem startsBare_of_not {t : Symbol} (hdivider : t.kind ≠ .divider)
    (hfunction : t.kind ≠ .function) (hstring : t.kind ≠ .string)
    (hcurly : ¬t.isPunctuation "\x7b" = true) (hsquare : ¬t.isPunctuation "[" = true)
    (hcloser : ¬t.isCloser = true) : StartsBare t := by
  rw [isPunctuation_iff] at hcurly hsquare
  rw [isCloser_iff] at hcloser
  cases hkind : t.kind with
  | word => exact .inl hkind
  | punctuation => exact .inr ⟨hkind, by tauto⟩
  | divider | function | string => contradiction

/-- **What is read as a value is one**, if this is so for what stands in brackets. -/
theorem isValue_of_readWith
    {contents : Unfinished → List Symbol → Except Error (Value × List Symbol)}
    (h : ∀ {part ts v rest}, contents part ts = .ok (v, rest) → part.IsReadAs ts v rest)
    {key : Option Text} {t : Symbol} {ts rest : List Symbol} {v : Value}
    (hdivider : t.kind ≠ .divider) (hread : readWith contents key t ts = .ok (v, rest)) :
    IsValue (t :: ts) v rest := by
  unfold readWith at hread
  split at hread
  · rename_i hopen
    obtain ⟨entries, hentries, rfl⟩ := h hread
    exact .object hopen hentries (Ordered.isDictionary_ofList entries)
  rename_i hcurly
  split at hread
  · rename_i hopen
    obtain ⟨items, hitems, rfl⟩ := h hread
    exact .list hopen hitems
  rename_i hsquare
  split at hread
  · rename_i hkind
    obtain ⟨rest', hafter, hread⟩ := bind_eq_ok.1 hread
    obtain ⟨rfl, rfl⟩ := Prod.mk.inj (pure_eq_ok.1 hread)
    obtain ⟨inside, rfl, hclosing⟩ := afterCall_eq_ok_iff.1 hafter
    exact .call hkind ((isBalanced_call hkind).2 hclosing)
  rename_i hfunction
  split at hread
  · rename_i hkind
    obtain ⟨rfl, rfl⟩ := Prod.mk.inj (Except.ok.inj hread)
    exact .string hkind
  rename_i hstring
  split at hread
  · cases hread
  -- No other kind of value is left, so the symbol begins a bare one.
  rename_i hcloser
  have hstart := startsBare_of_not hdivider hfunction hstring hcurly hsquare hcloser
  obtain ⟨rfl, rfl⟩ := Prod.mk.inj (Except.ok.inj hread)
  obtain ⟨happend, hrun⟩ := isLongestRun_splitRun t ts
  cases hsplit : (splitRun t ts).1 with
  | nil =>
    rw [hsplit] at happend hrun
    rw [List.nil_append] at happend
    rw [happend] at hrun ⊢
    exact .single hstart hrun
  | cons u us =>
    rw [hsplit] at happend hrun
    have hvalue := IsValue.run hstart hrun
    rw [← join_cons, happend] at hvalue
    exact hvalue

/-- **What is read of an object or a list is its rest.** -/
theorem isReadAs_of_contents : ∀ (bound : Nat) {part : Unfinished} {ts rest : List Symbol}
    {v : Value}, contents bound part ts = .ok (v, rest) → part.IsReadAs ts v rest
  -- Induction on the bound on the turns.
  | 0, part, ts, rest, v, h => by
    unfold contents at h
    split at h
    · rename_i hbound _
      cases hbound
    · cases h
  | bound + 1, part, ts, rest, v, h => by
    have ih : ∀ {part ts v rest}, contents bound part ts = .ok (v, rest) →
        part.IsReadAs ts v rest := isReadAs_of_contents bound
    obtain ⟨ds, hds, hts⟩ := exists_dividers ts
    unfold contents at h
    split at h
    · rename_i bound' t ts' hbound hskip
      obtain rfl : bound = bound' := Nat.succ.inj hbound
      rw [hts, hskip]
      cases part with
      | object fields =>
        simp only at h
        split at h
        · rename_i hclose
          obtain ⟨rfl, rfl⟩ := Prod.mk.inj (Except.ok.inj h)
          exact ⟨[], .close hds hclose, rfl⟩
        split at h
        · rename_i hkey
          split at h
          · cases h
          · rename_i u us hskip'
            obtain ⟨⟨w, rest'⟩, hread, h⟩ := bind_eq_ok.1 h
            obtain ⟨entries, hentries, rfl⟩ := ih h
            obtain ⟨es, hes, hts'⟩ := exists_dividers ts'
            have hvalue := isValue_of_readWith ih (kind_of_skipDividers hskip') hread
            rw [hts', hskip']
            exact ⟨(t.text, w) :: entries, .entry hds hkey hes hvalue hentries, rfl⟩
        · cases h
      | list items =>
        simp only at h
        split at h
        · rename_i hclose
          obtain ⟨rfl, rfl⟩ := Prod.mk.inj (Except.ok.inj h)
          exact ⟨[], .close hds hclose, by rw [List.append_nil]⟩
        · obtain ⟨⟨w, rest'⟩, hread, h⟩ := bind_eq_ok.1 h
          obtain ⟨vs, hitems, rfl⟩ := ih h
          have hvalue := isValue_of_readWith ih (kind_of_skipDividers hskip) hread
          exact ⟨w :: vs, .item hds hvalue hitems, by rw [List.append_assoc]; rfl⟩
    · cases h

/-! ## Calls -/

theorem expect_eq_ok_iff {bracket : Text} {ts rest : List Symbol} :
    expect bracket ts = .ok rest ↔ ∃ t, ts = t :: rest ∧ t.isPunctuation bracket := by
  cases ts with
  | nil => simp [expect]
  | cons t ts =>
    by_cases h : t.isPunctuation bracket = true
    · simp [expect, h]
    · simp only [expect, h, Bool.false_eq_true, if_false, reduceCtorEq, false_iff]
      rintro ⟨u, hts, hu⟩
      exact h ((List.cons.inj hts).1 ▸ hu)

theorem isValue_object_iff {ts rest : List Symbol} {fields : List (Text × Value)} :
    IsValue ts (.object fields) rest ↔ ∃ t inside entries, ts = t :: inside ∧
      t.isPunctuation "\x7b" ∧ IsEntries inside entries rest ∧ IsDictionary entries fields := by
  constructor
  · rintro ⟨hopen, hentries, hfields⟩
    exact ⟨_, _, _, rfl, hopen, hentries, hfields⟩
  · rintro ⟨t, inside, entries, rfl, hopen, hentries, hfields⟩
    exact .object hopen hentries hfields

/-- **An argument is read exactly if it is an object before a closing bracket.** -/
theorem readArgument_eq_ok_iff {ts : List Symbol} {fields : List (Text × Value)} :
    readArgument ts = .ok fields ↔ ∃ ds u rest, AreDividers ds ∧ u.isPunctuation ")" ∧
      IsValue ts (.object fields) (ds ++ u :: rest) := by
  constructor
  · intro h
    obtain ⟨inside, hopen, h⟩ := bind_eq_ok.1 h
    obtain ⟨⟨v, rest⟩, hread, h⟩ := bind_eq_ok.1 h
    obtain ⟨rest', hclose, h⟩ := bind_eq_ok.1 h
    obtain ⟨t, rfl, hcurly⟩ := expect_eq_ok_iff.1 hopen
    obtain ⟨entries, hentries, rfl⟩ := isReadAs_of_contents _ hread
    obtain ⟨u, hskip, hu⟩ := expect_eq_ok_iff.1 hclose
    obtain ⟨ds, hds, hrest⟩ := exists_dividers rest
    obtain rfl := pure_eq_ok.1 h
    refine ⟨ds, u, rest', hds, hu, ?_⟩
    rw [← hskip, ← hrest]
    exact .object hcurly hentries (Ordered.isDictionary_ofList entries)
  · rintro ⟨ds, u, rest, hds, hu, hvalue⟩
    obtain ⟨t, inside, entries, rfl, hopen, hentries, hfields⟩ := isValue_object_iff.1 hvalue
    have hread := hentries.contents_eq [] _ (Nat.le_refl _)
    have hkind : u.kind ≠ .divider := by simp [(isPunctuation_iff.1 hu).1]
    have hskip : skipDividers (ds ++ u :: rest) = u :: rest :=
      (skipDividers_append hds _).trans (skipDividers_cons hkind rest)
    refine bind_eq_ok.2 ⟨inside, expect_eq_ok_iff.2 ⟨t, rfl, hopen⟩, bind_eq_ok.2 ⟨_, hread, ?_⟩⟩
    refine bind_eq_ok.2 ⟨rest, expect_eq_ok_iff.2 ⟨u, hskip, hu⟩, pure_eq_ok.2 ?_⟩
    exact (Ordered.isDictionary_iff.1 hfields).symm

theorem readCall_eq_ok_iff {name : Text} {ts : List Symbol} {fields : List (Text × Value)} :
    readCall name ts = .ok fields ↔ IsCallOf name ts fields := by
  constructor
  · intro h
    unfold readCall at h
    split at h
    · cases h
    split at h
    · rename_i t ts hname
      split at h
      · rename_i u rest
        split at h
        · rename_i hclose
          obtain rfl := Except.ok.inj h
          exact .empty hname.1 hname.2 hclose
        · obtain ⟨ds, v, rest, hds, hv, hvalue⟩ := readArgument_eq_ok_iff.1 h
          exact .object hname.1 hname.2 hvalue hds hv
      · obtain ⟨ds, v, rest, hds, hv, hvalue⟩ := readArgument_eq_ok_iff.1 h
        exact .object hname.1 hname.2 hvalue hds hv
    · cases h
  · intro h
    cases h with
    | empty hkind hname hclose => simp [readCall, hkind, hname, hclose]
    | object hkind hname hobject hds hclose =>
      have hread := readArgument_eq_ok_iff.2 ⟨_, _, _, hds, hclose, hobject⟩
      obtain ⟨t, inside, entries, rfl, hopen, -, -⟩ := isValue_object_iff.1 hobject
      have hround : t.isPunctuation ")" = false := by
        rw [← Bool.not_eq_true, isPunctuation_iff, (isPunctuation_iff.1 hopen).2]
        exact fun h => absurd h.2 (by decide)
      simp [readCall, hkind, hname, hround, hread]

/-! ## Failures -/

def IsConfiguration (e : Error) : Prop := e.kind = .configuration

/-- An error about what stands in the brackets of a call. -/
inductive IsArgumentError : Error → Prop
  | paramsEnd : IsArgumentError .paramsEnd
  | bracketExpected (bracket found : Text) : IsArgumentError (.bracketExpected bracket found)
  | keyExpected (found : Text) : IsArgumentError (.keyExpected found)
  | valueMissing (key : Option Text) (closer : Text) : IsArgumentError (.valueMissing key closer)

theorem IsArgumentError.isConfiguration {e : Error} (h : IsArgumentError e) :
    IsConfiguration e := by
  cases h <;> rfl

theorem failsOnly_expect (bracket : Text) (ts : List Symbol) :
    FailsOnly IsArgumentError (expect bracket ts) := by
  unfold expect
  split
  · exact .error .paramsEnd
  · split
    · exact .ok _
    · exact .error (.bracketExpected _ _)

theorem failsOnly_afterCall (depth : Nat) (ts : List Symbol) :
    FailsOnly IsArgumentError (afterCall depth ts) := by
  fun_induction afterCall depth ts with
  | case1 => exact .error .paramsEnd
  | case3 => exact .ok _
  | case2 _ _ _ _ ih => exact ih
  | case4 _ _ _ _ _ ih => exact ih
  | case5 _ _ _ _ _ ih => exact ih

theorem failsOnly_readWith
    {contents : Unfinished → List Symbol → Except Error (Value × List Symbol)}
    (h : ∀ part ts, FailsOnly IsArgumentError (contents part ts)) (key : Option Text) (t : Symbol)
    (ts : List Symbol) : FailsOnly IsArgumentError (readWith contents key t ts) := by
  unfold readWith
  split
  · exact h _ _
  split
  · exact h _ _
  split
  · exact (failsOnly_afterCall 0 ts).bind fun _ _ => .ok _
  split
  · exact .ok _
  split
  · exact .error (.valueMissing _ _)
  · exact .ok _

theorem failsOnly_contents : ∀ (bound : Nat) (part : Unfinished) (ts : List Symbol),
    FailsOnly IsArgumentError (contents bound part ts)
  | 0, part, ts => by
    unfold contents
    split
    · rename_i hbound _
      cases hbound
    · exact .error .paramsEnd
  | bound + 1, part, ts => by
    have hread := failsOnly_readWith (failsOnly_contents bound)
    unfold contents
    split
    · rename_i bound' t ts' hbound _
      obtain rfl : bound = bound' := Nat.succ.inj hbound
      cases part with
      | object fields =>
        simp only
        split
        · exact .ok _
        split
        · split
          · exact .error .paramsEnd
          · exact (hread _ _ _).bind fun _ _ => failsOnly_contents bound _ _
        · exact .error (.keyExpected _)
      | list items =>
        simp only
        split
        · exact .ok _
        · exact (hread _ _ _).bind fun _ _ => failsOnly_contents bound _ _
    · exact .error .paramsEnd

theorem failsOnly_readArgument (ts : List Symbol) : FailsOnly IsArgumentError (readArgument ts) :=
  (failsOnly_expect _ _).bind fun _ _ => (failsOnly_contents _ _ _).bind fun _ _ =>
    (failsOnly_expect _ _).bind fun _ _ => .ok _

theorem failsOnly_readCall_cons {name : Text} {t : Symbol} (hkind : t.kind = .function)
    (hname : t.text = name) (ts : List Symbol) :
    FailsOnly IsArgumentError (readCall name (t :: ts)) := by
  unfold readCall
  simp only [hkind, hname, and_self, if_true]
  split
  · split
    · exact .ok _
    · exact failsOnly_readArgument _
  · exact failsOnly_readArgument _

theorem failsOnly_readCall (name : Text) (ts : List Symbol) :
    FailsOnly IsConfiguration (readCall name ts) := by
  cases ts with
  | nil => exact .error rfl
  | cons t ts =>
    by_cases hname : t.kind = .function ∧ t.text = name
    · exact (failsOnly_readCall_cons hname.1 hname.2 ts).mono fun _ =>
        IsArgumentError.isConfiguration
    · unfold readCall
      simp only [hname, if_false]
      exact .error rfl

/-- **A call is read exactly if the grammar has it, as the fields that the grammar gives; all else
is an error of the configuration.** -/
theorem readCall_follows_grammar (name : Text) (ts : List Symbol) :
    (∀ fields, readCall name ts = .ok fields ↔ IsCallOf name ts fields) ∧
      ((∃ fields, IsCallOf name ts fields) ∨
        ∃ e, readCall name ts = .error e ∧ e.kind = .configuration) := by
  refine ⟨fun fields => readCall_eq_ok_iff, ?_⟩
  cases h : readCall name ts with
  | ok fields => exact .inl ⟨fields, readCall_eq_ok_iff.1 h⟩
  | error e => exact .inr ⟨e, rfl, failsOnly_readCall name ts e h⟩

end FluidCss.Param.Value
