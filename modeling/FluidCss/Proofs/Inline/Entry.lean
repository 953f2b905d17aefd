import FluidCss.Proofs.Clamp.Integer
import FluidCss.Proofs.Inline.Call
import FluidCss.Proofs.Number.Numeral
import FluidCss.Scale.Compile

/-!
# Inline calls and scale entries

A fluid value is written as a pair of a scale or as a call in a value. The numbers of a scale may be
integers, those of a call are always read as doubles.

**Theorem (`report_compile_eq_resolve`).** A call of nonzero integers up to `2 ^ 52` becomes the
text of the entry that the same integers give a scale with one pair, or both fail with the same
report, whatever the widths of the run.

The arguments of the call are read as the doubles next to the integers (`argument?_intText`), and
between these there is the same fluid value (`report_fluidText_ofInt`).
-/

namespace FluidCss

open Text

namespace Inline

/-! ## Arguments -/

theorem splitCommas_ne_nil : ∀ t, splitCommas t ≠ []
  | [] => List.cons_ne_nil _ _
  | c :: t => by
    unfold splitCommas
    split
    · split <;> exact List.cons_ne_nil _ _
    · exact List.cons_ne_nil _ _

theorem splitCommas_cons (c : CodePoint) (t : Text) : ∃ part parts,
    splitCommas t = part :: parts ∧
      splitCommas (c :: t) = if c = ',' then [] :: part :: parts else (c :: part) :: parts := by
  obtain ⟨part, parts, h⟩ := List.exists_cons_of_ne_nil (splitCommas_ne_nil t)
  refine ⟨part, parts, h, ?_⟩
  rw [splitCommas, h]

theorem splitCommas_of_not_mem {t : Text} (h : .char ',' ∉ t) : splitCommas t = [t] := by
  induction t with
  | nil => rfl
  | cons c t ih =>
    rw [List.mem_cons, not_or] at h
    obtain ⟨part, parts, hsplit, hcons⟩ := splitCommas_cons c t
    obtain ⟨rfl, rfl⟩ := List.cons.inj (hsplit.symm.trans (ih h.2))
    rw [hcons, if_neg (Ne.symm h.1)]

theorem splitCommas_append {t : Text} (h : .char ',' ∉ t) (rest : Text) :
    splitCommas (t ++ .char ',' :: rest) = t :: splitCommas rest := by
  induction t with
  | nil =>
    obtain ⟨part, parts, hsplit, hcons⟩ := splitCommas_cons (.char ',') rest
    rw [List.nil_append, hcons, if_pos rfl, hsplit]
  | cons c t ih =>
    rw [List.mem_cons, not_or] at h
    obtain ⟨part, parts, hsplit, hcons⟩ := splitCommas_cons c (t ++ .char ',' :: rest)
    obtain ⟨rfl, rfl⟩ := List.cons.inj (hsplit.symm.trans (ih h.2))
    rw [List.cons_append, hcons, if_neg (Ne.symm h.1)]

/-- **An integer is given as the double next to it**, blanks in front of it or not. -/
theorem argument?_intText {blanks : Text} (hblanks : ∀ p ∈ blanks, isBlank p) {n : Int}
    (hne : n ≠ 0) (h : n.natAbs ≤ 2 ^ 53) :
    argument? (blanks ++ Number.intText n) = some (.double (.ofInt n)) := by
  have hlength : (Nat.toDigits 10 n.natAbs).length ≤ 400 := by
    have hdigits : (Nat.toDigits 10 n.natAbs).length ≤ 16 :=
      (Nat.length_toDigits_le_iff (by decide) (by decide)).2 (h.trans_lt (by norm_num))
    exact hdigits.trans (by norm_num)
  have htrim : trim (blanks ++ Number.intText n) = Number.intText n := by
    rw [trim_eq_stripped, stripped_append_left hblanks,
      Numeral.stripped_intText fun _ hp => hp]
  have hfinite : (Double.ofInt n).isFinite = true :=
    Double.isFinite_of_value? (Double.value?_ofInt h)
  rw [argument?, htrim, Numeral.double?_intText hlength]
  simp [hfinite, Double.isZero_ofInt hne]

/-! ## A call of integers -/

/-- The arguments of a call in decimal digits, with a blank after each comma. -/
def integerArguments (a b w₁ w₂ : Int) : Text :=
  Number.intText a ++ ", " ++ Number.intText b ++ ", " ++ Number.intText w₁ ++ ", " ++
    Number.intText w₂

theorem separator : (", " : Text) = [.char ',', .char ' '] := rfl

/-- The text of a call of four integers. -/
def integerCall (a b w₁ w₂ : Int) : Text := opening ++ integerArguments a b w₁ w₂ ++ ")"

variable {a b w₁ w₂ : Int}

theorem splitCommas_integerArguments : splitCommas (integerArguments a b w₁ w₂) =
    [Number.intText a, " " ++ Number.intText b, " " ++ Number.intText w₁,
      " " ++ Number.intText w₂] := by
  have hcomma : ∀ n, .char ',' ∉ Number.intText n :=
    fun n hmem => (Numeral.mem_intText hmem).2.1 rfl
  have hblank : ∀ n, .char ',' ∉ .char ' ' :: Number.intText n := by
    intro n hmem
    rcases List.mem_cons.1 hmem with hblank | hmem
    · cases hblank
    · exact hcomma n hmem
  have hsplit : integerArguments a b w₁ w₂ = Number.intText a ++ .char ',' ::
      ((.char ' ' :: Number.intText b) ++ .char ',' :: ((.char ' ' :: Number.intText w₁) ++
        .char ',' :: (.char ' ' :: Number.intText w₂))) := by
    simp [integerArguments, separator]
  rw [hsplit, splitCommas_append (hcomma a), splitCommas_append (hblank b),
    splitCommas_append (hblank w₁), splitCommas_of_not_mem (hblank w₂)]
  rfl

/-- A value that is one call has the result of the call. -/
theorem resolve_call {arguments : Text} (hne : arguments ≠ []) (h : .char ')' ∉ arguments)
    (minWidth maxWidth : Number) :
    resolve minWidth maxWidth (Piece.call arguments).text =
      callText minWidth maxWidth arguments := by
  have hpieces : pieces 0 (Piece.call arguments).text = [.call arguments] := by
    simpa [pieces] using pieces_call hne h []
  rw [resolve, hpieces, resolvePieces]
  cases callText minWidth maxWidth arguments with
  | error e => rfl
  | ok text => simp [resolvePieces, Except.map]

theorem resolve_integerCall (h : ∀ n ∈ [a, b, w₁, w₂], n ≠ 0 ∧ n.natAbs ≤ 2 ^ 52)
    (minWidth maxWidth : Number) :
    resolve minWidth maxWidth (integerCall a b w₁ w₂) =
      fluidText (.double (.ofInt a)) (.double (.ofInt b)) (.double (.ofInt w₁))
        (.double (.ofInt w₂)) := by
  have hread : ∀ blanks : Text, (∀ p ∈ blanks, isBlank p) → ∀ n ∈ [a, b, w₁, w₂],
      argument? (blanks ++ Number.intText n) = some (.double (.ofInt n)) :=
    fun _ hblanks n hn => argument?_intText hblanks (h n hn).1 (le_trans (h n hn).2 (by norm_num))
  have hclosing : .char ')' ∉ integerArguments a b w₁ w₂ := by
    have hnumeral : ∀ n, .char ')' ∉ Number.intText n :=
      fun n hmem => (Numeral.mem_intText hmem).2.2 rfl
    simp [integerArguments, separator, hnumeral]
  have hne : integerArguments a b w₁ w₂ ≠ [] := by simp [integerArguments, separator]
  have hcall : integerCall a b w₁ w₂ = (Piece.call (integerArguments a b w₁ w₂)).text := rfl
  rw [hcall, resolve_call hne hclosing, callText, splitCommas_integerArguments]
  have hfirst := hread [] (by simp) a (by simp)
  have hlater := hread " " (by decide)
  rw [List.nil_append] at hfirst
  simp [hfirst, hlater b (by simp), hlater w₁ (by simp), hlater w₂ (by simp)]

end Inline

/-! ## A scale of one pair -/

theorem Scale.compile_singleton (minWidth maxWidth : Number) (name : Text) (crossPairs : Bool)
    (pair : SizePair) : compile ⟨minWidth, maxWidth, name, crossPairs, [pair]⟩ =
      (fluidText pair.least pair.greatest minWidth maxWidth).map
        fun text => [⟨pair.name, text⟩] := by
  cases h : fluidText pair.least pair.greatest minWidth maxWidth with
  | error e => simp [compile, entriesOf, pairEntry, h, bind, Except.bind, Except.map]
  | ok text =>
    cases crossPairs <;>
      simp [compile, entriesOf, pairEntry, couples, h, bind, Except.bind, Except.map, pure,
        Except.pure]

/-- **A call of nonzero integers up to `2 ^ 52` and a scale with their pair between their widths
give the same text, or errors of the same kind and message.** -/
theorem report_compile_eq_resolve {a b w₁ w₂ : Int}
    (h : ∀ n ∈ [a, b, w₁, w₂], n ≠ 0 ∧ n.natAbs ≤ 2 ^ 52) (minWidth maxWidth : Number)
    (name pair : Text) (crossPairs : Bool) :
    (Scale.compile ⟨.int w₁, .int w₂, name, crossPairs, [⟨pair, .int a, .int b⟩]⟩).mapError
        Error.report =
      ((Inline.resolve minWidth maxWidth (Inline.integerCall a b w₁ w₂)).map
        fun text => [⟨pair, text⟩]).mapError Error.report := by
  rw [Scale.compile_singleton, Inline.resolve_integerCall h, mapError_map, mapError_map,
    report_fluidText_ofInt h]

/-- Sizes that are not in order are reported alike. -/
theorem report_compile_eq_resolve_unordered :
    (∀ n ∈ [24, 16, 320, 1240], n ≠ 0 ∧ Int.natAbs n ≤ 2 ^ 52) ∧
      (Scale.compile ⟨320, 1240, "s", true, [⟨"m", 24, 16⟩]⟩).mapError Error.report =
        ((Inline.resolve 1 2 (Inline.integerCall 24 16 320 1240)).map
          fun text => [⟨"m", text⟩]).mapError Error.report := by
  have h : ∀ n ∈ [24, 16, 320, 1240], n ≠ 0 ∧ Int.natAbs n ≤ 2 ^ 52 := by decide
  exact ⟨h, report_compile_eq_resolve h 1 2 "s" "m" true⟩

end FluidCss
