import FluidCss.Proofs.Number.Numeral

/-!
# Numerals with something behind them

**Theorem (`Numeral.double?_isSome_iff`).** The scanner's number, with a text behind it, is read as
a double exactly if the text makes the number longer: by digits of any script, which single
underscores may precede, then by an exponent, if the number has none, and then by blanks.

A row of digits ends at one place only (`exists_moreDigits`, `digitRow_append`). With that, each
part of a numeral is read to the place where the text behind it stops being digits, so that only
what follows there has to be looked at. -/

namespace FluidCss

open Text

namespace Numeral

/-! ## Rows of digits -/

/-- Digits of any script, each of which a single underscore may precede. -/
inductive MoreDigits : Text → Prop
  | nil : MoreDigits []
  | digit {c : CodePoint} {t : Text} (hc : isDigit c) (ht : MoreDigits t) : MoreDigits (c :: t)
  | underscore {c : CodePoint} {t : Text} (hc : isDigit c) (ht : MoreDigits t) :
    MoreDigits (.char '_' :: c :: t)

/-- A row of digits would go on with the text. -/
inductive GoesOn : Text → Prop
  | digit {c : CodePoint} {t : Text} (hc : isDigit c) : GoesOn (c :: t)
  | underscore {c : CodePoint} {t : Text} (hc : isDigit c) : GoesOn (.char '_' :: c :: t)

theorem not_goesOn_nil : ¬GoesOn [] := by
  intro h
  cases h

theorem MoreDigits.append {x y : Text} (hx : MoreDigits x) (hy : MoreDigits y) :
    MoreDigits (x ++ y) := by
  induction hx with
  | nil => exact hy
  | digit hc _ ih => exact .digit hc ih
  | underscore hc _ ih => exact .underscore hc ih

theorem MoreDigits.mem {x : Text} (h : MoreDigits x) {p : CodePoint} (hp : p ∈ x) :
    isDigit p ∨ p = '_' := by
  induction h with
  | nil => cases hp
  | digit hc _ ih =>
    rcases List.mem_cons.1 hp with rfl | hp
    · exact .inl hc
    · exact ih hp
  | underscore hc _ ih =>
    rcases List.mem_cons.1 hp with rfl | hp
    · exact .inr rfl
    · rcases List.mem_cons.1 hp with rfl | hp
      · exact .inl hc
      · exact ih hp

theorem MoreDigits.getLast? {x : Text} (h : MoreDigits x) : ∀ p ∈ x.getLast?, isDigit p := by
  induction h with
  | nil => exact fun p hp => nomatch hp
  | @digit c t hc _ ih =>
    cases t with
    | nil => simpa using hc
    | cons d t => simpa using ih
  | @underscore c t hc _ ih =>
    cases t with
    | nil => simpa using hc
    | cons d t => simpa using ih

theorem isDigit_of_ascii {p : CodePoint} (h : p.isDigit) : isDigit p := by
  rw [isDigit, digitValue?_of_isDigit h]
  rfl

theorem moreDigits_of_ascii {t : Text} (h : ∀ p ∈ t, p.isDigit) : MoreDigits t := by
  induction t with
  | nil => exact .nil
  | cons c t ih =>
    obtain ⟨hc, ht⟩ := List.forall_mem_cons.1 h
    exact .digit (isDigit_of_ascii hc) (ih ht)

/-- **Every text begins with digits as far as they go.** -/
theorem exists_moreDigits : ∀ t : Text, ∃ x r, t = x ++ r ∧ MoreDigits x ∧ ¬GoesOn r
  | [] => ⟨[], [], rfl, .nil, not_goesOn_nil⟩
  | c :: t => by
    by_cases hc : isDigit c = true
    · obtain ⟨x, r, rfl, hx, hr⟩ := exists_moreDigits t
      exact ⟨c :: x, r, rfl, .digit hc hx, hr⟩
    by_cases hgo : GoesOn (c :: t)
    · cases hgo with
      | digit hdigit => exact absurd hdigit hc
      | @underscore d t hd =>
        obtain ⟨x, r, rfl, hx, hr⟩ := exists_moreDigits t
        exact ⟨_ :: d :: x, r, rfl, .underscore hd hx, hr⟩
    · exact ⟨[], c :: t, rfl, .nil, hgo⟩

theorem digitRow_of_not {r : Text} (hr : ∀ c ∈ r.head?, ¬isDigit c) : digitRow r = ([], r) := by
  unfold digitRow
  split
  · rename_i c d t
    have hc : digitValue? c = none := by simpa [isDigit] using hr c rfl
    simp [hc]
  · rename_i c t _
    have hc : digitValue? c = none := by simpa [isDigit] using hr c rfl
    simp [hc]
  · rfl

theorem not_isDigit_of_not_goesOn {r : Text} (hr : ¬GoesOn r) : ∀ c ∈ r.head?, ¬isDigit c := by
  intro c hc hdigit
  cases r with
  | nil => cases hc
  | cons d r =>
    obtain rfl := Option.some.inj hc
    exact hr (.digit hdigit)

/-- **A row of digits is read as far as it goes.** -/
theorem digitRow_append {c : CodePoint} (hc : isDigit c) {x r : Text} (hx : MoreDigits x)
    (hr : ¬GoesOn r) : ∃ ds, ds ≠ [] ∧ digitRow (c :: (x ++ r)) = (ds, r) := by
  obtain ⟨d, hd⟩ := Option.isSome_iff_exists.1 (show (digitValue? c).isSome from hc)
  -- Induction on the row.
  induction hx generalizing c d with
  | nil =>
    refine ⟨[d], List.cons_ne_nil _ _, ?_⟩
    rw [List.nil_append]
    have hrest := digitRow_of_not (not_isDigit_of_not_goesOn hr)
    unfold digitRow
    split
    · rename_i c' e t heq
      obtain ⟨rfl, rfl⟩ := List.cons.inj heq
      have he : ¬isDigit e = true := fun he => hr (.underscore he)
      simp [hd, he]
    · rename_i heq
      obtain ⟨rfl, rfl⟩ := List.cons.inj heq
      simp [hd, hrest]
    · rename_i heq
      cases heq
  | @digit e t he _ ih =>
    obtain ⟨v, hv⟩ := Option.isSome_iff_exists.1 (show (digitValue? e).isSome from he)
    obtain ⟨ds, -, hds⟩ := ih he v hv
    refine ⟨d :: ds, List.cons_ne_nil _ _, ?_⟩
    rw [List.cons_append]
    unfold digitRow
    split
    · rename_i heq
      obtain ⟨rfl, htail⟩ := List.cons.inj heq
      obtain ⟨rfl, -⟩ := List.cons.inj htail
      exact absurd he (by decide)
    · rename_i heq
      obtain ⟨rfl, rfl⟩ := List.cons.inj heq
      simp [hd, hds]
    · rename_i heq
      cases heq
  | @underscore e t he _ ih =>
    obtain ⟨v, hv⟩ := Option.isSome_iff_exists.1 (show (digitValue? e).isSome from he)
    obtain ⟨ds, -, hds⟩ := ih he v hv
    refine ⟨d :: ds, List.cons_ne_nil _ _, ?_⟩
    simp [digitRow, hd, he, hds]

theorem digitRow_ascii {w : Text} (hw : IsDigits w) {x r : Text} (hx : MoreDigits x)
    (hr : ¬GoesOn r) : ∃ ds, ds ≠ [] ∧ digitRow (w ++ (x ++ r)) = (ds, r) := by
  obtain ⟨c, cs, rfl, hc⟩ := hw.exists_cons
  have hcs : MoreDigits cs :=
    moreDigits_of_ascii fun p hp => hw.isDigit p (List.mem_cons_of_mem c hp)
  have hrow := digitRow_append (isDigit_of_ascii hc) (hcs.append hx) hr
  rwa [List.append_assoc] at hrow

/-- Without a digit in front nothing is read of a row. -/
theorem exists_row_of_digitRow {t : Text} {ds : List Nat} {r : Text} (h : digitRow t = (ds, r))
    (hds : ds ≠ []) : ∃ c x, t = c :: (x ++ r) ∧ isDigit c ∧ MoreDigits x := by
  cases t with
  | nil =>
    rw [digitRow_of_not (by simp)] at h
    exact absurd (Prod.mk.inj h).1.symm hds
  | cons c t =>
    by_cases hc : isDigit c = true
    · obtain ⟨x, r', rfl, hx, hr'⟩ := exists_moreDigits t
      obtain ⟨ds', -, hrow⟩ := digitRow_append hc hx hr'
      obtain ⟨-, rfl⟩ := Prod.mk.inj (hrow.symm.trans h)
      exact ⟨c, x, rfl, hc, hx⟩
    · rw [digitRow_of_not (by simpa using hc)] at h
      exact absurd (Prod.mk.inj h).1.symm hds

/-! ## Parts of numerals -/

/-- A sign or none. -/
def IsSign (s : Text) : Prop := s = [] ∨ s = "+" ∨ s = "-"

/-- Digits of ASCII, or a point with such digits behind it and perhaps some before it. -/
inductive IsMagnitude : Text → Prop
  | whole {w : Text} (hw : IsDigits w) : IsMagnitude w
  | point {w f : Text} (hw : ∀ p ∈ w, p.isDigit) (hf : IsDigits f) :
      IsMagnitude (w ++ .char '.' :: f)

/-- The letter of an exponent with digits of any script behind it and perhaps a sign between them.
-/
inductive IsExponent : Text → Prop
  | mk {letter : CodePoint} {s : Text} {c : CodePoint} {x : Text}
    (hletter : letter = 'e' ∨ letter = 'E') (hs : IsSign s) (hc : isDigit c) (hx : MoreDigits x) :
    IsExponent (letter :: (s ++ c :: x))

theorem ne_sign_of_isDigit {c : CodePoint} (hc : isDigit c) : c ≠ '-' ∧ c ≠ '+' := by
  constructor
  · rintro rfl
    revert hc
    decide
  · rintro rfl
    revert hc
    decide

/-- A sign is taken off what does not begin with one. -/
theorem exists_sign {s t : Text} (hs : IsSign s) (ht : ∀ c ∈ t.head?, c ≠ '-' ∧ c ≠ '+') :
    ∃ negative, sign (s ++ t) = (negative, t) := by
  rcases hs with rfl | rfl | rfl
  · refine ⟨false, ?_⟩
    rw [List.nil_append]
    unfold sign
    split
    · exact absurd rfl (ht _ rfl).1
    · exact absurd rfl (ht _ rfl).2
    · rfl
  · exact ⟨false, rfl⟩
  · exact ⟨true, rfl⟩

/-- An exponent is read to the place where its digits end. -/
theorem exponent_append {e x r : Text} (he : IsExponent e) (hx : MoreDigits x) (hr : ¬GoesOn r) :
    ∃ power, exponent (e ++ (x ++ r)) = (power, r) := by
  obtain ⟨hletter, hs, hc, hy⟩ := he
  rename_i letter s c y
  obtain ⟨ds, hne, hrow⟩ := digitRow_append hc (hy.append hx) hr
  rw [List.append_assoc] at hrow
  obtain ⟨negative, hsign⟩ := @exists_sign s (c :: (y ++ (x ++ r))) hs fun d hd => by
    obtain rfl := Option.some.inj hd
    exact ne_sign_of_isDigit hc
  obtain ⟨d, ds, rfl⟩ := List.exists_cons_of_ne_nil hne
  refine ⟨if negative then -(ofDigits (d :: ds) : Int) else ofDigits (d :: ds), ?_⟩
  simp only [List.cons_append, List.append_assoc, exponent, hletter, if_true, hsign, hrow]

theorem exists_isSign (t : Text) : ∃ s negative body,
    IsSign s ∧ sign t = (negative, body) ∧ t = s ++ body := by
  unfold sign
  split
  · exact ⟨"-", true, _, .inr (.inr rfl), rfl, rfl⟩
  · exact ⟨"+", false, _, .inr (.inl rfl), rfl, rfl⟩
  · exact ⟨[], false, _, .inl rfl, rfl, rfl⟩

theorem exponent_eq_nil_iff {r : Text} : (exponent r).2 = [] ↔ r = [] ∨ IsExponent r := by
  constructor
  · intro h
    cases r with
    | nil => exact .inl rfl
    | cons letter tail =>
      by_cases hletter : letter = 'e' ∨ letter = 'E'
      · obtain ⟨s, negative, body, hs, hsign, rfl⟩ := exists_isSign tail
        simp only [exponent, hletter, if_true, hsign] at h
        cases hrow : digitRow body with
        | mk ds rest =>
          rw [hrow] at h
          cases ds with
          | nil => cases h
          | cons d ds =>
            obtain rfl : rest = [] := h
            obtain ⟨c, x, rfl, hc, hx⟩ := exists_row_of_digitRow hrow (List.cons_ne_nil d ds)
            rw [List.append_nil]
            exact .inr (.mk hletter hs hc hx)
      · simp [exponent, hletter] at h
  · rintro (rfl | he)
    · rfl
    · obtain ⟨power, hread⟩ := exponent_append he .nil not_goesOn_nil
      rw [List.append_nil, List.append_nil] at hread
      rw [hread]

theorem not_goesOn_cons {c : CodePoint} (hc : isDigit c = false) (hne : c ≠ '_') (t : Text) :
    ¬GoesOn (c :: t) := by
  intro h
  cases h with
  | digit hdigit => simp [hc] at hdigit
  | underscore => exact hne rfl

theorem IsExponent.not_goesOn {e : Text} (h : IsExponent e) (t : Text) : ¬GoesOn (e ++ t) := by
  obtain ⟨rfl | rfl, -, -, -⟩ := h <;> exact not_goesOn_cons (by decide) (by decide) _

theorem IsExponent.head? {e : Text} (h : IsExponent e) (t : Text) :
    ∀ c ∈ (e ++ t).head?, c ≠ '.' := by
  obtain ⟨rfl | rfl, -, -, -⟩ := h <;> simp

theorem fraction_of_ne {r : Text} (h : ∀ c ∈ r.head?, c ≠ '.') : fraction r = ([], r) := by
  unfold fraction
  split
  · exact absurd rfl (h _ rfl)
  · rfl

/-- A magnitude and more digits are read to the place where the digits end. -/
theorem magnitude_append {m x r : Text} (hm : IsMagnitude m) (hx : MoreDigits x) (hr : ¬GoesOn r)
    (hpoint : ∀ c ∈ r.head?, c ≠ '.') : ∃ whole rest places,
      digitRow (m ++ (x ++ r)) = (whole, rest) ∧ fraction rest = (places, r) ∧
        (whole ≠ [] ∨ places ≠ []) := by
  cases hm with
  | whole hw =>
    obtain ⟨ds, hne, hrow⟩ := digitRow_ascii hw hx hr
    exact ⟨ds, r, [], hrow, fraction_of_ne hpoint, .inl hne⟩
  | @point w f hw hf =>
    obtain ⟨places, hne, hrow⟩ := digitRow_ascii hf hx hr
    -- The point ends the whole digits, of which there may be none.
    have hpoint : ¬GoesOn (.char '.' :: (f ++ (x ++ r))) :=
      not_goesOn_cons (by decide) (by decide) _
    have hwhole : ∃ whole, digitRow (w ++ .char '.' :: (f ++ (x ++ r))) =
        (whole, .char '.' :: (f ++ (x ++ r))) := by
      by_cases hnil : w = []
      · subst hnil
        exact ⟨[], digitRow_of_not (not_isDigit_of_not_goesOn hpoint)⟩
      · obtain ⟨whole, -, hwhole⟩ := digitRow_ascii ⟨hnil, hw⟩ .nil hpoint
        exact ⟨whole, hwhole⟩
    obtain ⟨whole, hwhole⟩ := hwhole
    refine ⟨whole, .char '.' :: (f ++ (x ++ r)), places, ?_, hrow, .inr hne⟩
    rw [List.append_assoc, List.cons_append]
    exact hwhole

theorem IsMagnitude.exists_cons {m : Text} (hm : IsMagnitude m) :
    ∃ c t, m = c :: t ∧ (c.isDigit ∨ c = '.') := by
  cases hm with
  | whole hw =>
    obtain ⟨c, t, rfl, hc⟩ := hw.exists_cons
    exact ⟨c, t, rfl, .inl hc⟩
  | @point w f hw hf =>
    cases w with
    | nil => exact ⟨_, _, rfl, .inr rfl⟩
    | cons c w => exact ⟨c, _, rfl, .inl (hw c List.mem_cons_self)⟩

/-- What begins with a digit or a point is none of the words that are read as doubles. -/
theorem map_toLower_ne_of_head {c : CodePoint} (hc : c.isDigit ∨ c = '.') (t : Text) {word : Text}
    (hword : ∀ p ∈ word.head?, p.isDigit = false ∧ p ≠ '.') :
    (c :: t).map CodePoint.toLower ≠ word := by
  have hlower : c.toLower.isDigit = true ∨ c.toLower = '.' := by
    rcases hc with hc | rfl
    · rcases CodePoint.isDigit_iff.1 hc with
        rfl | rfl | rfl | rfl | rfl | rfl | rfl | rfl | rfl | rfl <;> decide
    · decide
  rintro rfl
  obtain ⟨hdigit, hpoint⟩ := hword c.toLower rfl
  rcases hlower with hlower | hlower
  · simp [hdigit] at hlower
  · exact hpoint hlower

/-- **What is left behind the digits of a magnitude decides** whether a numeral is read. -/
theorem double?_isSome_iff_rest {t s m x r : Text}
    (htrim : trimBy isNumeralBlank t = s ++ (m ++ (x ++ r))) (hs : IsSign s) (hm : IsMagnitude m)
    (hx : MoreDigits x) (hr : ¬GoesOn r) (hpoint : ∀ c ∈ r.head?, c ≠ '.') :
    (∃ d, double? t = some d) ↔ (exponent r).2 = [] := by
  obtain ⟨c, cs, hcons, hc⟩ := hm.exists_cons
  obtain ⟨whole, rest, places, hrow, hfraction, hne⟩ := magnitude_append hm hx hr hpoint
  obtain ⟨negative, hsign⟩ := @exists_sign s (m ++ (x ++ r)) hs fun p hp => by
    rw [hcons] at hp
    obtain rfl := Option.some.inj hp
    rcases hc with hc | rfl
    · exact ne_sign_of_isDigit (isDigit_of_ascii hc)
    · decide
  -- A magnitude begins with a digit or a point, so none of the words is read.
  have hword : ∀ {word : Text}, (∀ p ∈ word.head?, p.isDigit = false ∧ p ≠ '.') →
      (m ++ (x ++ r)).map CodePoint.toLower ≠ word := by
    intro word hword
    rw [hcons]
    exact map_toLower_ne_of_head hc _ hword
  have hinf : (m ++ (x ++ r)).map CodePoint.toLower ≠ "inf" := hword (by decide)
  have hinfinity : (m ++ (x ++ r)).map CodePoint.toLower ≠ "infinity" := hword (by decide)
  have hnan : (m ++ (x ++ r)).map CodePoint.toLower ≠ "nan" := hword (by decide)
  have hdigits : (whole.isEmpty && places.isEmpty) = false := by
    rcases hne with hne | hne <;> simp [hne]
  simp only [double?, htrim, hsign, hinf, hinfinity, hnan, or_self, if_false, hrow, hfraction,
    hdigits, Bool.false_or]
  cases hrest : (exponent r).2 <;> simp

/-! ## Numbers of the scanner -/

/-- A number as the scanner takes it: a sign or none, a magnitude, and perhaps an exponent. -/
inductive IsScanned : Text → Prop
  | plain {s m : Text} (hs : IsSign s) (hm : IsMagnitude m) : IsScanned (s ++ m)
  | power {s m e : Text} (hs : IsSign s) (hm : IsMagnitude m) (he : IsExponent e) :
    IsScanned (s ++ (m ++ e))

/-- A text that makes a number longer when it stands behind it: digits, an exponent if the number
has none, and blanks. -/
inductive Prolongs (n : Text) : Text → Prop
  | digits {x b : Text} (hx : MoreDigits x) (hb : ∀ p ∈ b, isNumeralBlank p) : Prolongs n (x ++ b)
  | exponent {x e b : Text} (hn : ∀ p ∈ n, p ≠ 'e' ∧ p ≠ 'E') (hx : MoreDigits x)
    (he : IsExponent e) (hb : ∀ p ∈ b, isNumeralBlank p) : Prolongs n (x ++ e ++ b)

/-- A point stands in the text only behind a backslash. -/
def PointsEscaped (w : Text) : Prop := ∀ x y, w = x ++ .char '.' :: y → ('\\' : CodePoint) ∈ x

theorem not_blank_of_isDigit {p : CodePoint} (h : isDigit p) : isNumeralBlank p = false := by
  have hzeros : ∀ z ∈ digitZeros, (32 < z ∧ z + 9 < 0x85) ∨ (0xA0 < z ∧ z + 9 < 0x1680) ∨
      (0x1680 < z ∧ z + 9 < 0x2000) ∨ 0x3000 < z := by decide
  rw [isDigit, digitValue?, Option.isSome_map, List.find?_isSome] at h
  obtain ⟨z, hz, hp⟩ := h
  have hz := hzeros z hz
  simp only [Bool.and_eq_true, decide_eq_true_eq] at hp
  rw [isNumeralBlank, Bool.and_eq_false_iff]
  left
  simp only [isBlank, Bool.or_eq_false_iff, Bool.and_eq_false_iff, decide_eq_false_iff_not,
    beq_eq_false_iff_ne]
  omega

/-! ## The end of a numeral -/

theorem IsExponent.getLast? {e : Text} (h : IsExponent e) : ∀ p ∈ e.getLast?, isDigit p := by
  obtain ⟨-, -, hc, hx⟩ := h
  rename_i letter s c x
  intro p hp
  have hrow := (MoreDigits.digit hc hx).getLast? p
  rw [← List.cons_append, List.getLast?_append] at hp
  cases hlast : (c :: x).getLast? with
  | none => simp at hlast
  | some q =>
    rw [hlast] at hp hrow
    exact hrow hp

theorem IsMagnitude.exists_digits {m : Text} (h : IsMagnitude m) :
    ∃ t f, m = t ++ f ∧ IsDigits f := by
  cases h with
  | whole hw => exact ⟨[], _, rfl, hw⟩
  | @point w f hw hf => exact ⟨w ++ [.char '.'], f, by simp, hf⟩

theorem IsMagnitude.getLast? {m : Text} (h : IsMagnitude m) : ∀ p ∈ m.getLast?, isDigit p := by
  obtain ⟨t, f, rfl, hf⟩ := h.exists_digits
  intro p hp
  rw [List.getLast?_append_of_ne_nil _ hf.ne_nil] at hp
  exact isDigit_of_ascii (hf.isDigit p (List.mem_of_mem_getLast? hp))

theorem IsScanned.getLast? {n : Text} (h : IsScanned n) : ∀ p ∈ n.getLast?, isDigit p := by
  cases h with
  | @plain s m hs hm =>
    obtain ⟨c, t, hm', -⟩ := hm.exists_cons
    rw [List.getLast?_append_of_ne_nil _ (by simp [hm'])]
    exact hm.getLast?
  | @power s m e hs hm he =>
    have hne : e ≠ [] := by
      cases he
      exact List.cons_ne_nil _ _
    rw [← List.append_assoc, List.getLast?_append_of_ne_nil _ hne]
    exact he.getLast?

theorem IsScanned.head? {n : Text} (h : IsScanned n) :
    ∃ c t, n = c :: t ∧ isNumeralBlank c = false := by
  have hstart : ∀ {s m : Text} (t : Text), IsSign s → IsMagnitude m →
      ∃ c t', s ++ (m ++ t) = c :: t' ∧ isNumeralBlank c = false := by
    intro s m t hs hm
    obtain ⟨c, m', rfl, hc⟩ := hm.exists_cons
    rcases hs with rfl | rfl | rfl
    · refine ⟨c, _, rfl, ?_⟩
      rcases hc with hc | rfl
      · exact not_blank_of_isDigit (isDigit_of_ascii hc)
      · decide
    · exact ⟨.char '+', _, rfl, by decide⟩
    · exact ⟨.char '-', _, rfl, by decide⟩
  cases h with
  | plain hs hm =>
    obtain ⟨c, t, hcons, hc⟩ := hstart [] hs hm
    exact ⟨c, t, by simpa using hcons, hc⟩
  | power hs hm => exact hstart _ hs hm

/-- The letter of an exponent does not stand in a magnitude with its sign. -/
theorem ne_letter_of_plain {s m : Text} (hs : IsSign s) (hm : IsMagnitude m) :
    ∀ p ∈ s ++ m, p ≠ 'e' ∧ p ≠ 'E' := by
  have hdigit : ∀ p : CodePoint, p.isDigit → p ≠ 'e' ∧ p ≠ 'E' := by
    intro p hp
    rcases CodePoint.isDigit_iff.1 hp with
      rfl | rfl | rfl | rfl | rfl | rfl | rfl | rfl | rfl | rfl <;> decide
  refine List.forall_mem_append.2 ⟨?_, ?_⟩
  · rcases hs with rfl | rfl | rfl <;> decide
  · cases hm with
    | whole hw => exact fun p hp => hdigit p (hw.isDigit p hp)
    | point hw hf =>
      refine List.forall_mem_append.2 ⟨fun p hp => hdigit p (hw p hp), ?_⟩
      exact List.forall_mem_cons.2 ⟨by decide, fun p hp => hdigit p (hf.isDigit p hp)⟩

theorem trimBy_append {n w b : Text} (hn : IsScanned n)
    (hw : ∀ p ∈ w.getLast?, isNumeralBlank p = false) (hb : ∀ p ∈ b, isNumeralBlank p) :
    trimBy isNumeralBlank (n ++ (w ++ b)) = n ++ w := by
  have hhead : ∀ p ∈ (n ++ w).head?, isNumeralBlank p = false := by
    obtain ⟨c, t, rfl, hc⟩ := hn.head?
    intro p hp
    obtain rfl := Option.some.inj hp
    exact hc
  have hlast : ∀ p ∈ (n ++ w).getLast?, isNumeralBlank p = false := by
    intro p hp
    by_cases hnil : w = []
    · rw [hnil, List.append_nil] at hp
      exact not_blank_of_isDigit (hn.getLast? p hp)
    · rw [List.getLast?_append_of_ne_nil _ hnil] at hp
      exact hw p hp
  have hstripped := stripped_append (List.forall_mem_nil _) hb hhead hlast
  rw [List.nil_append, List.append_assoc] at hstripped
  exact hstripped

/-- **A number with digits behind it is read if nothing follows them**, or an exponent that the
number does not have. -/
theorem IsScanned.double?_isSome_iff {n x r b : Text} (hn : IsScanned n) (hx : MoreDigits x)
    (hr : ¬GoesOn r) (hpoint : ∀ c ∈ r.head?, c ≠ '.')
    (hlast : ∀ p ∈ (x ++ r).getLast?, isNumeralBlank p = false) (hb : ∀ p ∈ b, isNumeralBlank p) :
    (∃ d, double? (n ++ (x ++ r ++ b)) = some d) ↔
      r = [] ∨ (∀ p ∈ n, p ≠ 'e' ∧ p ≠ 'E') ∧ IsExponent r := by
  have htrim := trimBy_append hn hlast hb
  cases hn with
  | @plain s m hs hm =>
    have htrim := htrim.trans (List.append_assoc s m (x ++ r))
    have hplain := ne_letter_of_plain hs hm
    rw [double?_isSome_iff_rest htrim hs hm hx hr hpoint, exponent_eq_nil_iff,
      and_iff_right hplain]
  | @power s m e hs hm he =>
    have hparts : s ++ (m ++ e) ++ (x ++ r) = s ++ (m ++ ([] ++ (e ++ (x ++ r)))) := by
      simp only [List.append_assoc, List.nil_append]
    have htrim := htrim.trans hparts
    obtain ⟨power, hread⟩ := exponent_append he hx hr
    rw [double?_isSome_iff_rest htrim hs hm .nil (he.not_goesOn _) (he.head? _), hread]
    -- The number has an exponent already, and its letter rules out another one.
    have hletter : ¬∀ p ∈ s ++ (m ++ e), p ≠ 'e' ∧ p ≠ 'E' := by
      obtain ⟨hletter, -, -, -⟩ := he
      intro h
      obtain ⟨hsmall, hbig⟩ := h _ (List.mem_append_right _ (List.mem_append_right _
        List.mem_cons_self))
      exact hletter.elim hsmall hbig
    simp only [hletter, false_and, or_false]

theorem exists_blanks (w : Text) : ∃ v b, w = v ++ b ∧
    (∀ p ∈ v.getLast?, isNumeralBlank p = false) ∧ ∀ p ∈ b, isNumeralBlank p := by
  refine ⟨w.rdropWhile isNumeralBlank, w.rtakeWhile isNumeralBlank,
    (List.rdropWhile_append_rtakeWhile ..).symm, fun p hp => ?_, fun p hp =>
      List.mem_rtakeWhile_imp hp⟩
  have hne : w.rdropWhile isNumeralBlank ≠ [] := by
    rintro hnil
    simp [hnil] at hp
  have hlast := List.rdropWhile_last_not isNumeralBlank w hne
  rw [List.getLast?_eq_some_getLast hne] at hp
  obtain rfl := Option.some.inj hp
  exact Bool.eq_false_iff.2 hlast

/-- **A number with a text behind it is read as a double exactly if the text prolongs it.** -/
theorem double?_isSome_iff {n w : Text} (hn : IsScanned n) (hw : PointsEscaped w) :
    (∃ d, double? (n ++ w) = some d) ↔ Prolongs n w := by
  constructor
  · intro hread
    -- The text behind is divided into digits, what follows them, and blanks.
    obtain ⟨v, b, rfl, hlast, hb⟩ := exists_blanks w
    obtain ⟨x, r, rfl, hx, hr⟩ := exists_moreDigits v
    have hpoint : ∀ c ∈ r.head?, c ≠ '.' := by
      rintro c hc rfl
      obtain ⟨y, rfl⟩ := List.head?_eq_some_iff.1 hc
      have hmem := hw x (y ++ b) (by simp)
      rcases hx.mem hmem with h | h <;> revert h <;> decide
    rcases (hn.double?_isSome_iff hx hr hpoint hlast hb).1 hread with rfl | ⟨hplain, he⟩
    · rw [List.append_nil]
      exact .digits hx hb
    · exact .exponent hplain hx he hb
  · intro hprolongs
    cases hprolongs with
    | @digits x b hx hb =>
      have hlast : ∀ p ∈ (x ++ []).getLast?, isNumeralBlank p = false := by
        rw [List.append_nil]
        exact fun p hp => not_blank_of_isDigit (hx.getLast? p hp)
      have hread := (hn.double?_isSome_iff hx not_goesOn_nil (by simp) hlast hb).2 (.inl rfl)
      rwa [List.append_nil] at hread
    | @exponent x e b hplain hx he hb =>
      have hne : e ≠ [] := by
        cases he
        exact List.cons_ne_nil _ _
      have hlast : ∀ p ∈ (x ++ e).getLast?, isNumeralBlank p = false := by
        rw [List.getLast?_append_of_ne_nil _ hne]
        exact fun p hp => not_blank_of_isDigit (he.getLast? p hp)
      have hgo := he.not_goesOn []
      have hpoint := he.head? []
      rw [List.append_nil] at hgo hpoint
      exact (hn.double?_isSome_iff hx hgo hpoint hlast hb).2 (.inr ⟨hplain, he⟩)

theorem number?_eq_none {t : Text} (h : ¬∃ d, double? t = some d) : number? t = none := by
  have hdouble : double? t = none := Option.eq_none_iff_forall_ne_some.2 fun d hd => h ⟨d, hd⟩
  have hinteger : integer? t = none := by
    by_contra hsome
    refine h ?_
    simp only [integer?] at hsome
    split at hsome
    · rename_i ds hrow
      have hne : ds.isEmpty = false := by
        by_contra hempty
        simp [Bool.not_eq_false _ ▸ hempty] at hsome
      simp only [double?, hrow, fraction, exponent, hne]
      split
      · exact ⟨_, rfl⟩
      split
      · exact ⟨_, rfl⟩
      · exact ⟨_, rfl⟩
    · exact absurd rfl hsome
  rw [number?, hinteger, hdouble]
  rfl

theorem exists_number? {t : Text} {d : Double} (h : double? t = some d) (hd : d.isFinite) :
    ∃ k, number? t = some k := by
  cases hinteger : integer? t with
  | some n => exact ⟨.int n, by simp only [number?, hinteger]⟩
  | none => exact ⟨.double d, by simp [number?, hinteger, h, hd]⟩

end Numeral

/-! ## What the scanner takes -/

namespace Scan

open Numeral

theorem isSign_take (t : Text) : IsSign (t.take (signLength t)) := by
  cases t with
  | nil => exact .inl rfl
  | cons c t =>
    simp only [signLength]
    split
    · rename_i h
      rcases h with rfl | rfl
      · exact .inr (.inl rfl)
      · exact .inr (.inr rfl)
    · exact .inl rfl

theorem take_digitsLength (t : Text) : t.take (digitsLength t) = t.takeWhile CodePoint.isDigit :=
  (List.prefix_iff_eq_take.1 (List.takeWhile_prefix _)).symm

theorem isDigits_take {t : Text} {n : Nat} (h : digitsLength t = n + 1) :
    IsDigits (t.take (n + 1)) := by
  have htake := take_digitsLength t
  rw [h] at htake
  rw [htake]
  refine ⟨?_, fun p hp => List.mem_takeWhile_imp hp⟩
  rintro hnil
  rw [digitsLength, hnil] at h
  cases h

theorem isMagnitude_take {t : Text} {n : Nat} (h : magnitudeLength t = n + 1) :
    IsMagnitude (t.take (n + 1)) := by
  simp only [magnitudeLength] at h
  split at h
  · rename_i tail htail
    split at h
    · exact .whole (isDigits_take h)
    · rename_i k hk
      have hcut : t.take (digitsLength t + 1 + (k + 1)) =
          t.takeWhile CodePoint.isDigit ++ .char '.' :: tail.take (k + 1) := by
        rw [Nat.add_assoc, List.take_add, take_digitsLength, htail, Nat.add_comm 1,
          List.take_succ_cons]
      rw [← h, hcut]
      exact .point (fun p hp => List.mem_takeWhile_imp hp) (isDigits_take hk)
  · exact .whole (isDigits_take h)

theorem isExponent_take (t : Text) :
    exponentLength t = 0 ∨ IsExponent (t.take (exponentLength t)) := by
  cases t with
  | nil => exact .inl rfl
  | cons c t =>
    simp only [exponentLength]
    split
    · rename_i hletter
      split
      · exact .inl rfl
      · rename_i k hk
        have hcut : (c :: t).take (1 + signLength t + (k + 1)) =
            c :: (t.take (signLength t) ++ (t.drop (signLength t)).take (k + 1)) := by
          rw [Nat.add_assoc, Nat.add_comm 1, List.take_succ_cons, List.take_add]
        obtain ⟨d, ds, hcons, hd⟩ := (isDigits_take hk).exists_cons
        have hds : ∀ p ∈ ds, p.isDigit := fun p hp =>
          (isDigits_take hk).isDigit p (hcons ▸ List.mem_cons_of_mem d hp)
        rw [hcut, hcons]
        exact .inr (.mk hletter (isSign_take t) (isDigit_of_ascii hd) (moreDigits_of_ascii hds))
    · exact .inl rfl

/-- **The scanner takes a number** with its sign, its magnitude and its exponent. -/
theorem isScanned_take {t : Text} {n : Nat} (h : numberLength t = n + 1) :
    IsScanned (t.take (n + 1)) := by
  simp only [numberLength] at h
  split at h
  · cases h
  · rename_i k hk
    have hmagnitude := isMagnitude_take hk
    rw [← h, List.take_add, List.take_add, List.append_assoc]
    rcases isExponent_take (t.drop (signLength t + (k + 1))) with hzero | hexponent
    · rw [hzero, List.take_zero, List.append_nil]
      exact .plain (isSign_take t) hmagnitude
    · exact .power (isSign_take t) hmagnitude hexponent

end Scan

end FluidCss
