import FluidCss.Param.Value
import FluidCss.Proofs.Ordered
import Mathlib.Data.List.Infix
import Mathlib.Data.List.TakeWhile
import Mathlib.Tactic.Tauto

/-!
# The grammar of parameters

A declarative grammar of calls, objects, lists and values, with the value that each of them stands
for. A phrase is given together with what follows it, since a bare value takes as much as it can.
Brackets and runs are counted and measured here, without reading; that the reader finds the same
ends is shown for each of them.

* `IsValue`, `IsItems`, `IsEntries`, `IsCallOf`: the grammar.
* `afterCall_eq_ok_iff`: a call is passed over to the first point where its brackets are closed.
* `splitRun_eq_iff`: a run is divided off where it is longest.
-/

namespace FluidCss.Param.Value

/-! ## The grammar -/

def AreDividers (ds : List Symbol) : Prop := ∀ d ∈ ds, d.kind = .divider

/-- A symbol that the keys of objects are written with. -/
def IsKey (t : Symbol) : Prop := t.kind = .word ∨ t.kind = .string

/-- A bare value begins with a word or with a mark that is no brace, no square bracket and closes
nothing; a round bracket is a mark here. -/
def StartsBare (t : Symbol) : Prop :=
  t.kind = .word ∨ t.kind = .punctuation ∧
    t.text ≠ "\x7b" ∧ t.text ≠ "[" ∧ t.text ≠ ")" ∧ t.text ≠ "]" ∧ t.text ≠ "\x7d"

/-- A bare value goes on after a symbol with any mark that is no bracket, and after a mark with a
word that touches it. -/
def GoesOn (t u : Symbol) : Prop :=
  (u.kind = .punctuation ∧ u.text ≠ "(" ∧ u.text ≠ "[" ∧ u.text ≠ "\x7b" ∧
    u.text ≠ ")" ∧ u.text ≠ "]" ∧ u.text ≠ "\x7d") ∨
  (u.kind = .word ∧ u.spaced = false ∧ t.kind = .punctuation)

/-- Of the symbols `run ++ rest` after `t`, as many as possible go on with it. -/
structure IsLongestRun (t : Symbol) (run rest : List Symbol) : Prop where
  chain : List.IsChain GoesOn (t :: run)
  longest : ∀ run' rest', run ++ rest = run' ++ rest' → List.IsChain GoesOn (t :: run') →
    run'.length ≤ run.length

/-- The text of a symbol in a run, with a blank if a space precedes it. -/
def runText (t : Symbol) : Text := if t.spaced then " " ++ t.text else t.text

/-- The first point where as many brackets are closed as are opened, the name of a function opening
one. -/
structure IsBalanced (ts : List Symbol) : Prop where
  balance : ts.countP opens = ts.countP Symbol.isCloser
  first : ∀ p, p <+: ts → p ≠ [] → p.countP opens = p.countP Symbol.isCloser → p = ts

mutual

/-- The symbols begin with a value and go on with others after it. -/
inductive IsValue : List Symbol → Value → List Symbol → Prop where
  | object {t : Symbol} {ts rest : List Symbol} {entries fields : List (Text × Value)}
      (hopen : t.isPunctuation "\x7b") (hentries : IsEntries ts entries rest)
      (hfields : IsDictionary entries fields) : IsValue (t :: ts) (.object fields) rest
  | list {t : Symbol} {ts rest : List Symbol} {items : List Value}
      (hopen : t.isPunctuation "[") (hitems : IsItems ts items rest) :
      IsValue (t :: ts) (.list items) rest
  | string {t : Symbol} {rest : List Symbol} (hkind : t.kind = .string) :
      IsValue (t :: rest) (.symbol t) rest
  | call {t : Symbol} {inside rest : List Symbol} (hkind : t.kind = .function)
      (hbalanced : IsBalanced (t :: inside)) :
      IsValue (t :: (inside ++ rest)) (.symbol ⟨.function, t.text, false⟩) rest
  | single {t : Symbol} {rest : List Symbol} (hstart : StartsBare t)
      (hrun : IsLongestRun t [] rest) : IsValue (t :: rest) (.symbol t) rest
  | run {t u : Symbol} {us rest : List Symbol} (hstart : StartsBare t)
      (hrun : IsLongestRun t (u :: us) rest) :
      IsValue (t :: (u :: us ++ rest))
        (.symbol ⟨.word, t.text ++ (u :: us).flatMap runText, t.spaced⟩) rest

/-- The symbols begin with the values of a list and its closing bracket. -/
inductive IsItems : List Symbol → List Value → List Symbol → Prop where
  | close {ds rest : List Symbol} {t : Symbol} (hds : AreDividers ds)
      (hclose : t.isPunctuation "]") : IsItems (ds ++ t :: rest) [] rest
  | item {ds ts rest rest' : List Symbol} {v : Value} {vs : List Value} (hds : AreDividers ds)
      (hvalue : IsValue ts v rest) (hitems : IsItems rest vs rest') :
      IsItems (ds ++ ts) (v :: vs) rest'

/-- The symbols begin with the entries of an object and its closing bracket. -/
inductive IsEntries : List Symbol → List (Text × Value) → List Symbol → Prop where
  | close {ds rest : List Symbol} {t : Symbol} (hds : AreDividers ds)
      (hclose : t.isPunctuation "\x7d") : IsEntries (ds ++ t :: rest) [] rest
  | entry {ds es ts rest rest' : List Symbol} {k : Symbol} {v : Value}
      {entries : List (Text × Value)} (hds : AreDividers ds) (hkey : IsKey k)
      (hes : AreDividers es) (hvalue : IsValue ts v rest)
        (hentries : IsEntries rest entries rest') :
      IsEntries (ds ++ k :: (es ++ ts)) ((k.text, v) :: entries) rest'

end

/-- The symbols begin with a call of the name, with nothing or an object as its argument. -/
inductive IsCallOf (name : Text) : List Symbol → List (Text × Value) → Prop where
  | empty {t u : Symbol} {rest : List Symbol} (hkind : t.kind = .function) (hname : t.text = name)
      (hclose : u.isPunctuation ")") : IsCallOf name (t :: u :: rest) []
  | object {t u : Symbol} {ts ds rest : List Symbol} {fields : List (Text × Value)}
      (hkind : t.kind = .function) (hname : t.text = name)
      (hobject : IsValue ts (.object fields) (ds ++ u :: rest)) (hds : AreDividers ds)
      (hclose : u.isPunctuation ")") : IsCallOf name (t :: ts) fields

/-! ## Dividers -/

theorem skipDividers_append {ds : List Symbol} (h : AreDividers ds) (ts : List Symbol) :
    skipDividers (ds ++ ts) = skipDividers ts := by
  unfold skipDividers
  exact List.dropWhile_append_of_pos fun d hd => by simp [h d hd]

theorem exists_dividers (ts : List Symbol) : ∃ ds, AreDividers ds ∧ ts = ds ++ skipDividers ts :=
  ⟨ts.takeWhile (·.kind == .divider), fun d hd => by simpa using List.mem_takeWhile_imp hd,
    (List.takeWhile_append_dropWhile ..).symm⟩

theorem kind_of_skipDividers {t : Symbol} {ts us : List Symbol} (h : skipDividers ts = t :: us) :
    t.kind ≠ .divider := by
  have hnot := List.head?_dropWhile_not (fun u : Symbol => u.kind == .divider) ts
  rw [show ts.dropWhile (fun u : Symbol => u.kind == .divider) = t :: us from h] at hnot
  simpa using hnot

/-! ## Brackets -/

theorem isPunctuation_iff {t : Symbol} {text : Text} :
    t.isPunctuation text = true ↔ t.kind = .punctuation ∧ t.text = text := by
  simp [Symbol.isPunctuation]

theorem isCloser_iff {t : Symbol} : t.isCloser = true ↔
    t.kind = .punctuation ∧ (t.text = ")" ∨ t.text = "]" ∨ t.text = "\x7d") := by
  simp [Symbol.isCloser, isPunctuation_iff, and_or_left, or_assoc]

theorem isOpener_iff {t : Symbol} : t.isOpener = true ↔
    t.kind = .punctuation ∧ (t.text = "(" ∨ t.text = "[" ∨ t.text = "\x7b") := by
  simp [Symbol.isOpener, isPunctuation_iff, and_or_left, or_assoc]

theorem opens_of_isCloser {t : Symbol} (h : t.isCloser) : opens t = false := by
  obtain ⟨hkind, htext⟩ := isCloser_iff.1 h
  have hopener : t.isOpener = false := by
    rw [← Bool.not_eq_true, isOpener_iff]
    rintro ⟨-, hopen⟩
    rcases htext with htext | htext | htext <;> rw [htext] at hopen <;> revert hopen <;> decide
  simp [opens, hkind, hopener]

/-- How many more brackets are closed than are opened. -/
def excess (ts : List Symbol) : Int := ts.countP Symbol.isCloser - ts.countP opens

theorem excess_cons (t : Symbol) (ts : List Symbol) :
    excess (t :: ts) = excess [t] + excess ts := by
  simp only [excess, List.countP_cons, List.countP_nil]
  omega

theorem excess_of_opens {t : Symbol} (h : opens t) : excess [t] = -1 := by
  have hcloser : t.isCloser = false := by
    by_contra hcloser
    simp [opens_of_isCloser (Bool.not_eq_false _ ▸ hcloser)] at h
  simp [excess, h, hcloser]

/-- The first point where `depth` more brackets are closed than are opened. -/
structure IsClosing (depth : Int) (ts : List Symbol) : Prop where
  balance : excess ts = depth
  first : ∀ p, p <+: ts → p ≠ [] → excess p = depth → p = ts

theorem isBalanced_iff {ts : List Symbol} : IsBalanced ts ↔ IsClosing 0 ts := by
  have hexcess : ∀ p, excess p = 0 ↔ p.countP opens = p.countP Symbol.isCloser := by
    intro p
    simp only [excess]
    omega
  constructor
  · exact fun h =>
      ⟨(hexcess ts).2 h.balance, fun p hp hne he => h.first p hp hne ((hexcess p).1 he)⟩
  · exact fun h =>
      ⟨(hexcess ts).1 h.balance, fun p hp hne he => h.first p hp hne ((hexcess p).2 he)⟩

/-- A symbol that does not close the last bracket leaves the others to be closed. -/
theorem isClosing_cons {t : Symbol} {depth : Int} (h : excess [t] ≠ depth) (ts : List Symbol) :
    IsClosing depth (t :: ts) ↔ IsClosing (depth - excess [t]) ts := by
  have hcons := fun p => excess_cons t p
  constructor
  -- A first point in the rest is one in the row with the symbol before it, and the other way round.
  · refine fun hts => ⟨by have := hts.balance; rw [hcons] at this; omega, fun p hp _ he => ?_⟩
    have hfirst := hts.first (t :: p) ((List.cons_prefix_cons ..).2 ⟨rfl, hp⟩) nofun (by
      rw [hcons]; omega)
    exact (List.cons.inj hfirst).2
  · refine fun hts => ⟨by have := hts.balance; rw [hcons]; omega, fun p hp hne he => ?_⟩
    obtain ⟨u, p, rfl⟩ := List.exists_cons_of_ne_nil hne
    obtain ⟨rfl, htail⟩ := (List.cons_prefix_cons ..).1 hp
    rw [hcons] at he
    rcases eq_or_ne p [] with rfl | hnil
    · simp [excess] at he h
      omega
    · rw [hts.first p htail hnil (by omega)]

/-- A call ends where the bracket that its name opens is closed. -/
theorem isBalanced_call {t : Symbol} (h : t.kind = .function) {inside : List Symbol} :
    IsBalanced (t :: inside) ↔ IsClosing ((0 : Nat) + 1) inside := by
  have hexcess := excess_of_opens (show opens t by simp [opens, h])
  rw [isBalanced_iff, isClosing_cons (by omega), hexcess]
  rfl

theorem isClosing_cons_last {t : Symbol} {depth : Int} (h : excess [t] = depth) (ts : List Symbol) :
    IsClosing depth (t :: ts) ↔ ts = [] := by
  constructor
  · intro hts
    have hprefix : [t] <+: t :: ts := (List.cons_prefix_cons ..).2 ⟨rfl, List.nil_prefix⟩
    exact (List.cons.inj (hts.first [t] hprefix nofun h)).2.symm
  · rintro rfl
    refine ⟨h, fun p hp hne _ => ?_⟩
    obtain ⟨u, p, rfl⟩ := List.exists_cons_of_ne_nil hne
    obtain ⟨rfl, htail⟩ := (List.cons_prefix_cons ..).1 hp
    rw [List.prefix_nil.1 htail]

/-- **A call is passed over to the first point where its brackets are closed.** -/
theorem afterCall_eq_ok_iff {depth : Nat} {ts rest : List Symbol} :
    afterCall depth ts = .ok rest ↔
    ∃ inside, ts = inside ++ rest ∧ IsClosing (depth + 1) inside := by
  -- Induction on the symbols.
  induction ts generalizing depth with
  | nil =>
    refine ⟨nofun, ?_⟩
    rintro ⟨inside, hnil, hclosing⟩
    obtain ⟨rfl, -⟩ := List.append_eq_nil_iff.1 hnil.symm
    have := hclosing.balance
    simp only [excess, List.countP_nil] at this
    omega
  | cons t ts ih =>
    -- The brackets are never closed by no symbols, so the first one belongs to the call.
    have hcons : (∃ inside, t :: ts = inside ++ rest ∧ IsClosing (depth + 1) inside) ↔
        ∃ inside, ts = inside ++ rest ∧ IsClosing (depth + 1) (t :: inside) := by
      constructor
      · rintro ⟨inside, hts, hclosing⟩
        cases inside with
        | nil =>
          have := hclosing.balance
          simp only [excess, List.countP_nil] at this
          omega
        | cons u inside =>
          obtain ⟨rfl, htail⟩ := List.cons.inj hts
          exact ⟨inside, htail, hclosing⟩
      · rintro ⟨inside, rfl, hclosing⟩
        exact ⟨t :: inside, rfl, hclosing⟩
    rw [hcons]
    unfold afterCall
    -- The symbol opens a bracket, closes one, or leaves the depth as it is.
    by_cases hopens : opens t = true
    · have hexcess := excess_of_opens hopens
      simp only [hopens, if_true, ih, isClosing_cons (show excess [t] ≠ (depth + 1 : Int) by omega),
        hexcess]
      simp
    · by_cases hcloser : t.isCloser = true
      · have hexcess : excess [t] = 1 := by simp [excess, hcloser, hopens]
        cases depth with
        | zero =>
          simp only [hopens, hcloser, if_true, Bool.false_eq_true, if_false, Except.ok.injEq,
            isClosing_cons_last (show excess [t] = ((0 : Nat) + 1 : Int) by omega)]
          simp
        | succ depth =>
          simp only [hopens, hcloser, if_true, Bool.false_eq_true, if_false, ih,
            isClosing_cons (show excess [t] ≠ ((depth + 1 : Nat) + 1 : Int) by omega), hexcess]
          simp
      · have hexcess : excess [t] = 0 := by simp [excess, hcloser, hopens]
        simp only [hopens, hcloser, Bool.false_eq_true, if_false, ih,
          isClosing_cons (show excess [t] ≠ (depth + 1 : Int) by omega), hexcess, Int.sub_zero]

/-! ## Runs -/

theorem continues_iff {t u : Symbol} : continues t u = true ↔ GoesOn t u := by
  simp only [continues, Bool.or_eq_true, Bool.and_eq_true, beq_iff_eq, Bool.not_eq_true', GoesOn,
    ← Bool.not_eq_true, isOpener_iff, isCloser_iff]
  tauto

/-- **A run is divided off where it is longest.** -/
theorem isLongestRun_splitRun (t : Symbol) (ts : List Symbol) :
    (splitRun t ts).1 ++ (splitRun t ts).2 = ts ∧
      IsLongestRun t (splitRun t ts).1 (splitRun t ts).2 := by
  -- Induction on the symbols.
  induction ts generalizing t with
  | nil =>
    refine ⟨rfl, List.IsChain.singleton t, fun run' rest' h _ => ?_⟩
    obtain ⟨rfl, -⟩ := List.append_eq_nil_iff.1 h.symm
    exact Nat.zero_le _
  | cons u ts ih =>
    obtain ⟨happend, hrun⟩ := ih u
    by_cases hgoes : continues t u = true
    · simp only [splitRun, hgoes, if_true, List.cons_append, happend, true_and]
      refine ⟨List.isChain_cons_cons.2 ⟨continues_iff.1 hgoes, hrun.chain⟩,
        fun run' rest' h hchain => ?_⟩
      -- Any other run that goes on begins with the same symbol.
      cases run' with
      | nil => exact Nat.zero_le _
      | cons u' run' =>
        obtain ⟨rfl, htail⟩ := List.cons.inj h
        exact Nat.succ_le_succ (hrun.longest run' rest' htail (List.isChain_cons_cons.1 hchain).2)
    · simp only [splitRun, hgoes, Bool.false_eq_true, if_false, List.nil_append, true_and]
      refine ⟨List.IsChain.singleton t, fun run' rest' h hchain => ?_⟩
      -- Where this run stops no other goes on either.
      cases run' with
      | nil => exact Nat.le_refl _
      | cons u' run' =>
        obtain ⟨rfl, -⟩ := List.cons.inj h
        exact absurd (continues_iff.2 (List.isChain_cons_cons.1 hchain).1) hgoes

theorem splitRun_eq_iff {t : Symbol} {ts run rest : List Symbol} :
    splitRun t ts = (run, rest) ↔ ts = run ++ rest ∧ IsLongestRun t run rest := by
  obtain ⟨happend, hsplit⟩ := isLongestRun_splitRun t ts
  constructor
  · intro h
    rw [h] at happend hsplit
    exact ⟨happend.symm, hsplit⟩
  · rintro ⟨rfl, hrun⟩
    -- Each of the two runs is at least as long as the other one.
    have hlength : (splitRun t (run ++ rest)).1.length = run.length :=
      Nat.le_antisymm (hrun.longest _ _ happend.symm hsplit.chain)
        (hsplit.longest _ _ happend hrun.chain)
    obtain ⟨hfirst, hsecond⟩ := List.append_inj happend hlength
    exact Prod.ext hfirst hsecond

theorem join_cons (t u : Symbol) (us : List Symbol) :
    join t (u :: us) = ⟨.word, t.text ++ (u :: us).flatMap runText, t.spaced⟩ := by
  have htext : runText = fun u : Symbol => (if u.spaced then " " else [] : Text) ++ u.text := by
    funext u
    unfold runText
    split <;> rfl
  rw [htext]
  rfl

/-! ## Progress -/

mutual

theorem IsValue.length_lt {ts rest : List Symbol} {v : Value} :
    IsValue ts v rest → rest.length < ts.length
  | .object _ hentries _ => Nat.lt_succ_of_lt hentries.length_lt
  | .list _ hitems => Nat.lt_succ_of_lt hitems.length_lt
  | .string _ | .single .. => Nat.lt_succ_self _
  | .call .. => by simp only [List.length_cons, List.length_append]; omega
  | .run .. => by simp only [List.length_cons, List.length_append]; omega

theorem IsItems.length_lt {ts rest : List Symbol} {vs : List Value} :
    IsItems ts vs rest → rest.length < ts.length
  | .close .. => by simp only [List.length_append, List.length_cons]; omega
  | .item _ hvalue hitems => by
    have hfirst := hvalue.length_lt
    have hothers := hitems.length_lt
    simp only [List.length_append]
    omega

theorem IsEntries.length_lt {ts rest : List Symbol} {entries : List (Text × Value)} :
    IsEntries ts entries rest → rest.length < ts.length
  | .close .. => by simp only [List.length_append, List.length_cons]; omega
  | .entry _ _ _ hvalue hentries => by
    have hfirst := hvalue.length_lt
    have hothers := hentries.length_lt
    simp only [List.length_append, List.length_cons]
    omega

end

end FluidCss.Param.Value
