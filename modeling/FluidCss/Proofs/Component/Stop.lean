import FluidCss.Proofs.Component.Length
import Mathlib.Data.List.TakeWhile

/-!
# Names and numbers that come to an end

A space, a semicolon, a colon or a curly bracket ends every name, number and range of code points
before it. What is read of a text is therefore the same whether such a code point or the end of the
text follows it. The one exception is an escape at the end of the text, which a space ends or which
takes the code point itself; a text without it is sealed.

* `Name.read_append`, `Scan.numberLength_append`, `Scan.range_append`: what follows does not matter.
-/

namespace FluidCss

/-- A code point that ends names and numbers. -/
def isStop (p : CodePoint) : Bool :=
  Name.isSpace p || p == ';' || p == ':' || p == '\x7b' || p == '\x7d'

/-- Nothing follows, or a code point that ends names and numbers. -/
def Stops (t : Text) : Prop := ∀ p ∈ t.head?, isStop p

theorem isStop_iff {p : CodePoint} : isStop p ↔
    p = ' ' ∨ p = '\n' ∨ p = '\t' ∨ p = ';' ∨ p = ':' ∨ p = '\x7b' ∨ p = '\x7d' := by
  simp [isStop, Name.isSpace, or_assoc]

theorem stops_nil : Stops [] := fun _ h => by cases h

theorem stops_cons {p : CodePoint} (h : isStop p) (t : Text) : Stops (p :: t) := by
  intro q hq
  obtain rfl := Option.some.inj hq
  exact h

/-- A test that no stop passes. -/
theorem Stops.not_head {t : Text} (h : Stops t) {test : CodePoint → Bool}
    (htest : ∀ p, isStop p → test p = false) : ∀ p ∈ t.head?, test p = false := fun p hp =>
  htest p (h p hp)

/-! ## Rows of code points -/

section Rows

variable {α : Type} {test : α → Bool}

theorem takeWhile_append_of_head {s v : List α} (hv : ∀ a ∈ v.head?, test a = false) :
    (s ++ v).takeWhile test = s.takeWhile test := by
  induction s with
  | nil =>
    cases v with
    | nil => rfl
    | cons a v => simp [hv a rfl]
  | cons a s ih => by_cases ha : test a <;> simp [ha, ih]

theorem takeWhile_append_of_mem {s v : List α} {a : α} (ha : a ∈ s) (hn : test a = false) :
    (s ++ v).takeWhile test = s.takeWhile test := by
  induction s with
  | nil => cases ha
  | cons b s ih =>
    by_cases hb : test b
    · rcases List.mem_cons.1 ha with rfl | ha
      · simp [hn] at hb
      · simp [hb, ih ha]
    · simp [hb]

theorem drop_length_takeWhile_append (s v : List α) :
    (s ++ v).drop (s.takeWhile test).length = s.drop (s.takeWhile test).length ++ v :=
  List.drop_append_of_le_length (Scan.length_takeWhile_le test s)

end Rows

/-! ## Names -/

namespace Name

theorem isStop_isPart (p : CodePoint) (h : isStop p) : isPart p = false := by
  rcases isStop_iff.1 h with rfl | rfl | rfl | rfl | rfl | rfl | rfl <;> decide

theorem isStop_isHex (p : CodePoint) (h : isStop p) : isHex p = false := by
  rcases isStop_iff.1 h with rfl | rfl | rfl | rfl | rfl | rfl | rfl <;> decide

theorem isSpace_eq_false_of_isPart {p : CodePoint} (h : isPart p) : isSpace p = false := by
  cases hspace : isSpace p with
  | false => rfl
  | true => cases (isStop_isPart p (by simp [isStop, hspace])).symm.trans h

theorem isSpace_eq_false_of_isHex {p : CodePoint} (h : isHex p) : isSpace p = false := by
  cases hspace : isSpace p with
  | false => rfl
  | true => cases (isStop_isHex p (by simp [isStop, hspace])).symm.trans h

/-- Without escapes a name is a row of the code points that names are made of. -/
theorem read_eq_takeWhile {t : Text} (h : ∀ p ∈ (t.dropWhile isPart).head?, p ≠ '\\') :
    read 0 t = (t.takeWhile isPart, (t.takeWhile isPart).length) := by
  induction t with
  | nil => rfl
  | cons p t ih =>
    by_cases hp : isPart p
    · simp only [List.dropWhile_cons, hp, if_true] at h
      simp [read, hp, ih h]
    · have hne : p ≠ '\\' := h p (by simp [hp])
      have hescape : startsEscape (p :: t) = false := by
        unfold startsEscape
        split <;> simp_all
      simp [read, hp, hescape]

theorem read_eq {s : Text} (hs : ('\\' : CodePoint) ∉ s) :
    read 0 s = (s.takeWhile isPart, (s.takeWhile isPart).length) :=
  read_eq_takeWhile fun _ hp he =>
    hs (he ▸ (List.dropWhile_sublist isPart).mem (List.mem_of_mem_head? hp))

theorem startsEscape_eq_false {t : Text} (h : ∀ p ∈ t.head?, p ≠ '\\') :
    startsEscape t = false := by
  unfold startsEscape
  split
  · rfl
  · exact absurd rfl (h _ rfl)
  · rfl

theorem startsEscape_cons {p : CodePoint} (h : p ≠ '\\') (t : Text) :
    startsEscape (p :: t) = false :=
  startsEscape_eq_false fun q hq => by
    obtain rfl := Option.some.inj hq
    exact h

theorem eq_backslash_of_startsEscape {p : CodePoint} {t : Text} (h : startsEscape (p :: t)) :
    p = '\\' := by
  by_contra hp
  rw [startsEscape_cons hp] at h
  cases h

theorem isStop_ne_backslash {p : CodePoint} (h : isStop p) : p ≠ '\\' := by
  rintro rfl
  simp [isStop, isSpace] at h

theorem startsEscape_stops {v : Text} (hv : Stops v) : startsEscape v = false :=
  startsEscape_eq_false fun p hp => isStop_ne_backslash (hv p hp)

theorem startsIdent_stops {v : Text} (hv : Stops v) : startsIdent v = false := by
  cases v with
  | nil => rfl
  | cons p v =>
    rcases isStop_iff.1 (hv p rfl) with rfl | rfl | rfl | rfl | rfl | rfl | rfl <;> rfl

/-! ### Escapes -/

/-- An escape of what stands here ends here: there is more than the hexadecimal digits that it can
take. -/
def endsEscape (t : Text) : Bool := decide (6 < t.length) || t.any fun p => !isHex p

theorem endsEscape_iff {t : Text} :
    endsEscape t ↔ 6 < t.length ∨ ∃ p ∈ t, isHex p = false := by
  simp [endsEscape]

/-- The digits of an escape that ends, and the code point behind them. -/
theorem exists_escapeDigits {t : Text} (h : endsEscape t) (v : Text) :
    ((t ++ v).take 6).takeWhile isHex = (t.take 6).takeWhile isHex ∧
      ∃ p tail, t.drop ((t.take 6).takeWhile isHex).length = p :: tail := by
  have hprefix : (t.take 6).takeWhile isHex <+: t.take 6 := List.takeWhile_prefix isHex
  -- It is enough that the digits are not all of the text.
  have hdrop (hlength : ((t.take 6).takeWhile isHex).length < t.length) :
      ∃ p tail, t.drop ((t.take 6).takeWhile isHex).length = p :: tail :=
    List.exists_cons_of_ne_nil fun he => by
      rw [List.drop_eq_nil_iff] at he
      omega
  -- With more than six code points the digits end by number, else one of the code points is no
  -- digit.
  by_cases hlong : 6 < t.length
  · rw [List.take_append_of_le_length (Nat.le_of_lt hlong)]
    refine ⟨rfl, hdrop ?_⟩
    have hle := hprefix.length_le
    rw [List.length_take] at hle
    omega
  · obtain ⟨p, hp, hhex⟩ := (endsEscape_iff.1 h).resolve_left hlong
    have htake : t.take 6 = t := List.take_of_length_le (by omega)
    rw [List.take_append, htake, takeWhile_append_of_mem hp hhex]
    rw [htake] at hdrop hprefix
    refine ⟨rfl, hdrop (Nat.lt_of_not_le fun hle => ?_)⟩
    rw [← hprefix.eq_of_length_le hle] at hp
    rw [List.mem_takeWhile_imp hp] at hhex
    cases hhex

theorem escape_append {t : Text} (h : endsEscape t) (v : Text) : escape (t ++ v) = escape t := by
  obtain ⟨hdigits, p, tail, hdrop⟩ := exists_escapeDigits h v
  have hdrop' : (t ++ v).drop ((t.take 6).takeWhile isHex).length = p :: (tail ++ v) := by
    rw [List.drop_append_of_le_length, hdrop, List.cons_append]
    exact Nat.le_trans (List.takeWhile_sublist isHex).length_le (List.length_take_le' 6 t)
  unfold escape
  rw [hdigits]
  cases hcase : (t.take 6).takeWhile isHex with
  | nil =>
    cases t with
    | nil => cases h
    | cons => rfl
  | cons d ds =>
    rw [hcase] at hdrop hdrop'
    simp only [hdrop, hdrop']

/-- The number of code points that an escape which ends takes. -/
theorem escape_le {t : Text} (h : endsEscape t) : (escape t).2 ≤ t.length := by
  obtain ⟨-, p, tail, hdrop⟩ := exists_escapeDigits h []
  have hlength := congrArg List.length hdrop
  rw [List.length_drop, List.length_cons] at hlength
  unfold escape
  cases hcase : (t.take 6).takeWhile isHex with
  | nil =>
    cases t with
    | nil => cases h
    | cons => simp
  | cons d ds =>
    rw [hcase] at hdrop hlength
    simp only [hdrop]
    split <;> omega

end Name

/-- No escape at the end of a text is left open, to go on with what follows it. -/
def isSealed : Text → Bool
  | [] => true
  | p :: t => (p != '\\' || Name.endsEscape t) && isSealed t

theorem isSealed_cons {p : CodePoint} {t : Text} :
    isSealed (p :: t) ↔ (p = '\\' → Name.endsEscape t) ∧ isSealed t := by
  simp [isSealed, ← imp_iff_not_or]

theorem isSealed_of_notMem {t : Text} (h : ('\\' : CodePoint) ∉ t) : isSealed t := by
  induction t with
  | nil => rfl
  | cons p t ih =>
    rw [List.mem_cons, not_or] at h
    exact isSealed_cons.2 ⟨fun hp => absurd hp.symm h.1, ih h.2⟩

theorem isSealed_of_append {s t : Text} (h : isSealed (s ++ t)) : isSealed t := by
  induction s with
  | nil => exact h
  | cons p s ih => exact ih (isSealed_cons.1 h).2

theorem isSealed_drop {t : Text} (h : isSealed t) (n : Nat) : isSealed (t.drop n) := by
  rw [← List.take_append_drop n t] at h
  exact isSealed_of_append h

namespace Name

/-- Whether an escape begins does not depend on what follows what it escapes. -/
theorem startsEscape_cons_append {p : CodePoint} {s : Text} (h : p = '\\' → endsEscape s)
    (v : Text) :
    startsEscape (p :: (s ++ v)) = startsEscape (p :: s) := by
  by_cases hp : p = '\\'
  · cases s with
    | nil => cases h hp
    | cons q s => by_cases hq : q = '\n' <;> simp [startsEscape, hp, hq]
  · rw [startsEscape_cons hp, startsEscape_cons hp]

theorem startsEscape_append {s v : Text} (hs : isSealed s) (hv : Stops v) :
    startsEscape (s ++ v) = startsEscape s := by
  cases s with
  | nil => exact startsEscape_stops hv
  | cons p s => exact startsEscape_cons_append (isSealed_cons.1 hs).1 v

theorem startsIdent_append {s v : Text} (hs : isSealed s) (hv : Stops v) :
    startsIdent (s ++ v) = startsIdent s := by
  cases s with
  | nil => exact startsIdent_stops hv
  | cons p s =>
    have hself := startsEscape_append hs hv
    have htail := startsEscape_append (isSealed_cons.1 hs).2 hv
    rw [List.cons_append] at hself ⊢
    simp only [startsIdent, hself, htail]
    cases s with
    | cons q s => rfl
    | nil =>
      cases v with
      | nil => rfl
      | cons q v =>
        have hq := isStop_isPart q (hv q rfl)
        simp only [isPart, Bool.or_eq_false_iff] at hq
        simp [hq.1.1, hq.2]

/-- **What follows a name does not matter.** -/
theorem read_append {s v : Text} (hs : isSealed s) (hv : Stops v) {k : Nat} (hk : k ≤ s.length) :
    read k (s ++ v) = read k s := by
  induction s generalizing k with
  | nil =>
    obtain rfl : k = 0 := Nat.le_zero.1 hk
    cases v with
    | nil => rfl
    | cons p v =>
      -- A stop is no part of a name, and begins no escape.
      simp [read, isStop_isPart p (hv p rfl), startsEscape_stops hv]
  | cons p s ih =>
    obtain ⟨hescape, hs'⟩ := isSealed_cons.1 hs
    cases k with
    | succ k => simp only [List.cons_append, read, ih hs' (Nat.le_of_succ_le_succ hk)]
    | zero =>
      simp only [List.cons_append, read, startsEscape_cons_append hescape v, ih hs' (Nat.zero_le _)]
      split
      · rfl
      split
      · rename_i hstarts
        have hends : endsEscape s := hescape (eq_backslash_of_startsEscape hstarts)
        rw [escape_append hends, ih hs' (escape_le hends)]
      · rfl

end Name

/-! ## Numbers -/

namespace Scan

theorem isStop_isDigit (p : CodePoint) (h : isStop p) : p.isDigit = false := by
  have := Name.isStop_isPart p h
  simp only [Name.isPart, Bool.or_eq_false_iff] at this
  exact this.1.2

theorem digitsLength_append {s v : Text} (hv : Stops v) :
    digitsLength (s ++ v) = digitsLength s := by
  rw [digitsLength, takeWhile_append_of_head (hv.not_head isStop_isDigit), digitsLength]

theorem signLength_append {s v : Text} (hv : Stops v) : signLength (s ++ v) = signLength s := by
  cases s with
  | cons c s => rfl
  | nil =>
    cases v with
    | nil => rfl
    | cons c v =>
      rcases isStop_iff.1 (hv c rfl) with rfl | rfl | rfl | rfl | rfl | rfl | rfl <;> rfl

theorem drop_digitsLength (s v : Text) :
    (s ++ v).drop (digitsLength s) = s.drop (digitsLength s) ++ v :=
  List.drop_append_of_le_length (digitsLength_le s)

theorem exponentLength_append {s v : Text} (hv : Stops v) :
    exponentLength (s ++ v) = exponentLength s := by
  cases s with
  | nil =>
    cases v with
    | nil => rfl
    | cons c v =>
      rcases isStop_iff.1 (hv c rfl) with rfl | rfl | rfl | rfl | rfl | rfl | rfl <;> rfl
  | cons c s =>
    have hdrop : (s ++ v).drop (signLength s) = s.drop (signLength s) ++ v :=
      List.drop_append_of_le_length (signLength_le s)
    simp only [List.cons_append, exponentLength, signLength_append hv, hdrop,
      digitsLength_append hv]

theorem magnitudeLength_append {s v : Text} (hv : Stops v) :
    magnitudeLength (s ++ v) = magnitudeLength s := by
  simp only [magnitudeLength, digitsLength_append hv, drop_digitsLength]
  cases hdrop : s.drop (digitsLength s) with
  | nil =>
    cases v with
    | nil => rfl
    | cons c v =>
      rcases isStop_iff.1 (hv c rfl) with rfl | rfl | rfl | rfl | rfl | rfl | rfl <;> rfl
  | cons c tail =>
    by_cases hc : c = '.'
    · subst hc
      simp only [List.cons_append, digitsLength_append hv]
    · simp [hc]

/-- **What follows a number does not matter.** -/
theorem numberLength_append {s v : Text} (hv : Stops v) :
    numberLength (s ++ v) = numberLength s := by
  have hsign : (s ++ v).drop (signLength s) = s.drop (signLength s) ++ v :=
    List.drop_append_of_le_length (signLength_le s)
  simp only [numberLength, signLength_append hv, hsign, magnitudeLength_append hv]
  cases hm : magnitudeLength (s.drop (signLength s)) with
  | zero => rfl
  | succ n =>
    have hle := magnitudeLength_le (s.drop (signLength s))
    rw [hm, List.length_drop] at hle
    have hdrop : (s ++ v).drop (signLength s + (n + 1)) = s.drop (signLength s + (n + 1)) ++ v :=
      List.drop_append_of_le_length (by omega)
    simp only [hdrop, exponentLength_append hv]

/-! ## Ranges of code points -/

theorem isStop_isMark (p : CodePoint) (h : isStop p) : (p == CodePoint.char '?') = false := by
  rcases isStop_iff.1 h with rfl | rfl | rfl | rfl | rfl | rfl | rfl <;> decide

theorem startsRange_append (c : CodePoint) {s v : Text} (hv : Stops v) :
    startsRange (c :: (s ++ v)) = startsRange (c :: s) := by
  match s with
  | [] =>
    cases v with
    | nil => rfl
    | cons d v =>
      -- No stop is a plus sign.
      rcases isStop_iff.1 (hv d rfl) with rfl | rfl | rfl | rfl | rfl | rfl | rfl <;> rfl
  | [e] =>
    cases v with
    | nil => rfl
    | cons d v =>
      by_cases he : e = '+'
      · subst he
        have hhex := Name.isStop_isHex d (hv d rfl)
        have hmark := isStop_isMark d (hv d rfl)
        simp only [beq_eq_false_iff_ne] at hmark
        simp [startsRange, hhex, hmark]
      · simp [startsRange, he]
  | e :: d :: s =>
    by_cases he : e = '+'
    · subst he
      rfl
    · simp [startsRange, he]

/-- A row of bounded length that ends before what follows. -/
theorem takeWhile_take_append {test : CodePoint → Bool} {s v : Text}
    (hv : ∀ p ∈ v.head?, test p = false) (n : Nat) :
    ((s ++ v).take n).takeWhile test = (s.take n).takeWhile test := by
  rw [← List.take_takeWhile, ← List.take_takeWhile, takeWhile_append_of_head hv]

theorem rangeDigits_length (s : Text) :
    ((s.take 6).takeWhile Name.isHex).length ≤ s.length :=
  Nat.le_trans (length_takeWhile_le _ _) (List.length_take_le' 6 s)

/-- The question marks of a range, up to which place it reaches. -/
theorem rangeMarks_append {s v : Text} (hv : Stops v) {d : Nat} (hd : d ≤ s.length) :
    (((s ++ v).take 6).drop d).takeWhile (· == CodePoint.char '?') =
      ((s.take 6).drop d).takeWhile (· == CodePoint.char '?') := by
  rw [List.drop_take, List.drop_take, List.drop_append_of_le_length hd]
  exact takeWhile_take_append (hv.not_head isStop_isMark) _

theorem rangeMarks_length (s : Text) {d : Nat} (hd : d ≤ s.length) :
    d + (((s.take 6).drop d).takeWhile (· == CodePoint.char '?')).length ≤ s.length := by
  have h₁ := length_takeWhile_le (· == CodePoint.char '?') ((s.take 6).drop d)
  have h₂ : (s.take 6).length ≤ s.length := List.length_take_le' 6 s
  rw [List.length_drop] at h₁
  omega

/-- **What follows a range does not matter.** -/
theorem range_append {s v : Text} (hv : Stops v) : range (s ++ v) = range s := by
  have hhex := hv.not_head Name.isStop_isHex
  have hd := rangeDigits_length s
  have hdrop : ∀ {n}, n ≤ s.length → (s ++ v).drop n = s.drop n ++ v := fun hn =>
    List.drop_append_of_le_length hn
  simp only [range, takeWhile_take_append hhex, rangeMarks_append hv hd,
    hdrop (rangeMarks_length s hd)]
  split
  · rfl
  · cases htail : s.drop (((s.take 6).takeWhile Name.isHex).length +
        (((s.take 6).drop ((s.take 6).takeWhile Name.isHex).length).takeWhile
          (· == CodePoint.char '?')).length) with
    | nil =>
      cases v with
      | nil => rfl
      | cons p v =>
        -- Nor a hyphen, so no second bound follows.
        rcases isStop_iff.1 (hv p rfl) with rfl | rfl | rfl | rfl | rfl | rfl | rfl <;> rfl
    | cons p tail =>
      by_cases hp : p = '-'
      · subst hp
        simp only [List.cons_append, takeWhile_take_append hhex]
      · simp [hp]

end Scan

end FluidCss
