import FluidCss.Inline
import FluidCss.Proofs.Clamp.Text

/-!
# Resolving leaves no call

**Theorem (`Resolved.not_hasCall`).** A value whose calls have been resolved has no call in it.

Replacing a call joins the text before it, its fluid value and the text after it, and a call could
stand across a join. The opening of a call ends with a bracket, and a fluid value begins with a
character that no opening has, so an opening in the new value was an opening in the old one
(`Resolved.exists_of_append`). It opened no call there: either a closing bracket follows at once,
and then it still does, or none follows at all, and then nothing behind it was replaced
(`Resolved.eq_of_no_closing`).
-/

namespace FluidCss.Inline

open Text

/-! ## Calls in a text -/

def StartsCall (t : Text) : Prop :=
  ∃ arguments rest : Text, arguments ≠ [] ∧ .char ')' ∉ arguments ∧
    t = ("ruler.fluid(" : Text) ++ arguments ++ (")" : Text) ++ rest

theorem startsCall_iff {t : Text} : StartsCall t ↔ ∃ arguments rest, arguments ≠ [] ∧
    .char ')' ∉ arguments ∧ t = (Piece.call arguments).text ++ rest := Iff.rfl

def HasCall (t : Text) : Prop := ∃ front rest, t = front ++ rest ∧ StartsCall rest

theorem takeWhile_closing {arguments : Text} (h : .char ')' ∉ arguments) (rest : Text) :
    (arguments ++ .char ')' :: rest).takeWhile (· != .char ')') = arguments := by
  have hall : ∀ p ∈ arguments, (p != .char ')') = true := by
    intro p hp
    simpa using fun heq : p = .char ')' => h (heq ▸ hp)
  rw [List.takeWhile_append_of_pos hall]
  simp

theorem callAt?_text_append {arguments : Text} (hne : arguments ≠ [])
    (h : .char ')' ∉ arguments) (rest : Text) :
    callAt? ((Piece.call arguments).text ++ rest) = some arguments := by
  have htext : (Piece.call arguments).text ++ rest =
      opening ++ (arguments ++ .char ')' :: rest) := by
    simp [Piece.text]
  have hopening : opening.isPrefixOf (opening ++ (arguments ++ .char ')' :: rest)) = true :=
    List.isPrefixOf_iff_prefix.2 (List.prefix_append ..)
  unfold callAt?
  simp only [htext, hopening, if_true, List.drop_left, takeWhile_closing h]
  simp [hne]

theorem closed_of_callAt? {t arguments : Text} (h : callAt? t = some arguments) :
    arguments ≠ [] ∧ .char ')' ∉ arguments := by
  unfold callAt? at h
  split at h
  · simp only at h
    split at h
    · rename_i hbody
      obtain rfl := Option.some.inj h
      simp only [Bool.and_eq_true, decide_eq_true_eq] at hbody
      refine ⟨by simpa using hbody.1, fun hmem => ?_⟩
      simpa using List.mem_takeWhile_imp hmem
    · cases h
  · cases h

theorem startsCall_of_callAt? {t arguments : Text} (h : callAt? t = some arguments) :
    StartsCall t := by
  obtain ⟨hne, hclosing⟩ := closed_of_callAt? h
  obtain ⟨rest, hrest⟩ := eq_of_callAt? h
  exact ⟨arguments, rest, hne, hclosing, hrest⟩

theorem callAt?_eq_none {t : Text} (h : ¬ StartsCall t) : callAt? t = none := by
  cases hcall : callAt? t with
  | none => rfl
  | some arguments => exact absurd (startsCall_of_callAt? hcall) h

theorem not_hasCall_nil : ¬ HasCall [] := by
  rintro ⟨front, rest, hsplit, hstart⟩
  obtain ⟨arguments, rest', -, -, rfl⟩ := startsCall_iff.1 hstart
  simp [Piece.text] at hsplit

/-- A call stands in a text if it stands at its start or further on. -/
theorem hasCall_cons {c : CodePoint} {t : Text} :
    HasCall (c :: t) ↔ StartsCall (c :: t) ∨ HasCall t := by
  constructor
  · rintro ⟨front, rest, hsplit, hstart⟩
    cases front with
    | nil => exact .inl (hsplit ▸ hstart)
    | cons d front =>
      obtain ⟨-, rfl⟩ := List.cons.inj hsplit
      exact .inr ⟨front, rest, rfl, hstart⟩
  · rintro (hstart | ⟨front, rest, rfl, hstart⟩)
    · exact ⟨[], _, rfl, hstart⟩
    · exact ⟨c :: front, rest, rfl, hstart⟩

/-! ## Pieces -/

theorem pieces_call {arguments : Text} (hne : arguments ≠ []) (h : .char ')' ∉ arguments)
    (rest : Text) :
    pieces 0 ((Piece.call arguments).text ++ rest) = .call arguments :: pieces 0 rest := by
  obtain ⟨c, t, ht⟩ : ∃ c t, (Piece.call arguments).text ++ rest = c :: t :=
    ⟨_, _, rfl⟩
  have hcall := callAt?_text_append hne h rest
  have hdrop : t.drop (opening.length + arguments.length) = rest := by
    have := congrArg (List.drop (opening.length + arguments.length + 1)) ht
    rw [List.drop_succ_cons] at this
    rw [← this]
    exact List.drop_left' (by simp [Piece.text]; omega)
  rw [ht] at hcall ⊢
  rw [pieces, hcall]
  simp only
  rw [pieces_skip, hdrop]

theorem pieces_char {c : CodePoint} {t : Text} (h : ¬ StartsCall (c :: t)) :
    pieces 0 (c :: t) = .char c :: pieces 0 t := by
  rw [pieces, callAt?_eq_none h]

theorem pieces_eq_map {t : Text} (h : ¬ HasCall t) : pieces 0 t = t.map .char := by
  induction t with
  | nil => rfl
  | cons c t ih =>
    rw [hasCall_cons, not_or] at h
    rw [pieces_char h.1, ih h.2, List.map_cons]

theorem resolvePieces_map (minWidth maxWidth : Number) (t : Text) :
    resolvePieces minWidth maxWidth (t.map .char) = ([], .ok t) := by
  induction t with
  | nil => rfl
  | cons c t ih =>
    rw [List.map_cons, resolvePieces, ih]
    rfl

/-- A value without calls stays as it is, and nothing is replaced. -/
theorem resolve_of_not_hasCall {value : Text} (h : ¬ HasCall value) (minWidth maxWidth : Number) :
    resolve minWidth maxWidth value = .ok value ∧
      replacements minWidth maxWidth value = [] := by
  unfold resolve replacements
  rw [pieces_eq_map h, resolvePieces_map]
  exact ⟨rfl, rfl⟩

/-! ## Resolving from the left -/

theorem resolve_cons {c : CodePoint} {v : Text} (h : ¬ StartsCall (c :: v))
    (minWidth maxWidth : Number) :
    resolve minWidth maxWidth (c :: v) = (resolve minWidth maxWidth v).map (c :: ·) := by
  rw [resolve, pieces_char h]
  rfl

/-- A call is replaced by its value. -/
theorem resolve_call_append {arguments : Text} (hne : arguments ≠ []) (h : .char ')' ∉ arguments)
    (v : Text) (minWidth maxWidth : Number) :
    resolve minWidth maxWidth ((Piece.call arguments).text ++ v) =
      (callText minWidth maxWidth arguments).bind fun text =>
        (resolve minWidth maxWidth v).map (text ++ ·) := by
  rw [resolve, pieces_call hne h, resolvePieces]
  cases callText minWidth maxWidth arguments <;> rfl

/-- What holds of a value and its resolved value if a code point or a call in front keeps it. -/
theorem resolve_induction {minWidth maxWidth : Number} {motive : Text → Text → Prop}
    (nil : motive [] [])
    (char : ∀ {c v w}, ¬ StartsCall (c :: v) → motive v w → motive (c :: v) (c :: w))
    (call : ∀ {arguments v text w}, arguments ≠ [] → .char ')' ∉ arguments →
      callText minWidth maxWidth arguments = .ok text → motive v w →
      motive ((Piece.call arguments).text ++ v) (text ++ w))
    {value new : Text} (h : resolve minWidth maxWidth value = .ok new) : motive value new := by
  -- A call takes off more than one code point, so the induction is on the length.
  induction hn : value.length using Nat.strongRecOn generalizing value new with
  | ind n ih =>
    cases value with
    | nil =>
      obtain rfl := Except.ok.inj h
      exact nil
    | cons c v =>
      rw [List.length_cons] at hn
      by_cases hstart : StartsCall (c :: v)
      · obtain ⟨arguments, rest, hne, hclosing, htext⟩ := startsCall_iff.1 hstart
        rw [htext, resolve_call_append hne hclosing] at h
        obtain ⟨text, hcall, h⟩ := bind_eq_ok.1 h
        obtain ⟨w, hw, rfl⟩ := map_eq_ok.1 h
        have hlength : rest.length < n := by
          have := congrArg List.length htext
          simp [Piece.text] at this
          omega
        rw [htext]
        exact call hne hclosing hcall (ih rest.length hlength hw rfl)
      · rw [resolve_cons hstart] at h
        obtain ⟨w, hw, rfl⟩ := map_eq_ok.1 h
        exact char hstart (ih v.length (by omega) hw rfl)

/-! ## A value and its resolved value -/

/-- A value beside the value after its calls have been resolved. -/
inductive Resolved (minWidth maxWidth : Number) : Text → Text → Prop where
  | nil : Resolved minWidth maxWidth [] []
  | char {c : CodePoint} {v w : Text} : ¬ StartsCall (c :: v) → Resolved minWidth maxWidth v w →
      Resolved minWidth maxWidth (c :: v) (c :: w)
  | call {arguments v text w : Text} : callText minWidth maxWidth arguments = .ok text →
      Resolved minWidth maxWidth v w →
      Resolved minWidth maxWidth ((Piece.call arguments).text ++ v) (text ++ w)

theorem isFluidText_of_callText {minWidth maxWidth : Number} {arguments text : Text}
    (h : callText minWidth maxWidth arguments = .ok text) : IsFluidText text := by
  unfold callText at h
  simp only at h
  split at h
  · exact ⟨_, _, _, _, h⟩
  · cases h

theorem resolved_of_resolve {minWidth maxWidth : Number} {value new : Text}
    (h : resolve minWidth maxWidth value = .ok new) : Resolved minWidth maxWidth value new :=
  resolve_induction .nil .char (fun _ _ hcall hrest => .call hcall hrest) h

/-! ## No call across a join -/

/-- The first character of a fluid value is in no opening. -/
theorem exists_cons_of_isFluidText {t : Text} (h : IsFluidText t) :
    ∃ p r, t = p :: r ∧ p ∉ opening := by
  obtain ⟨_, _, _, _, ht⟩ := h
  obtain ⟨f, -, rfl⟩ := fluidText_eq_ok ht
  obtain ⟨p, r, hcons, hp⟩ := f.exists_text_cons
  refine ⟨p, r, hcons, ?_⟩
  rcases hp with hdigit | rfl | rfl | rfl
  · intro hmem
    exact absurd hdigit ((by decide : ∀ q ∈ opening, ¬ q.isDigit = true) p hmem)
  all_goals decide

/-- No call begins in a text that has no `u` and does not end with an `r`. -/
theorem not_hasCall_append {t w : Text} (hu : .char 'u' ∉ t)
    (hr : t.getLast? ≠ some (.char 'r')) (hw : ¬ HasCall w) : ¬ HasCall (t ++ w) := by
  induction t with
  | nil => exact hw
  | cons c t ih =>
    rw [List.mem_cons, not_or] at hu
    rw [List.cons_append, hasCall_cons, not_or]
    refine ⟨?_, ?_⟩
    · rintro ⟨arguments, rest, -, -, htext⟩
      obtain ⟨rfl, htail⟩ := List.cons.inj htext
      cases t with
      | nil => exact hr rfl
      | cons d t =>
        obtain ⟨rfl, -⟩ := List.cons.inj htail
        exact hu.2 List.mem_cons_self
    · cases t with
      | nil => exact hw
      | cons d t =>
        exact ih hu.2 (by rwa [List.getLast?_cons_cons] at hr)

theorem not_hasCall_of_isFluidText_append {t w : Text} (h : IsFluidText t) (hw : ¬ HasCall w) :
    ¬ HasCall (t ++ w) := by
  obtain ⟨_, _, _, _, ht⟩ := h
  obtain ⟨f, -, rfl⟩ := fluidText_eq_ok ht
  refine not_hasCall_append (fun hu => ?_) (fun hr => ?_) hw
  · rcases f.mem_text hu with hdigit | hmem
    · exact absurd hdigit (by decide)
    · exact absurd hmem (by decide)
  · rcases f.getLast?_text with hlast | hlast <;> rw [hlast] at hr <;> cases hr

theorem not_hasCall_of_isFluidText {t : Text} (h : IsFluidText t) : ¬ HasCall t := by
  simpa using not_hasCall_of_isFluidText_append h not_hasCall_nil

section

variable {minWidth maxWidth : Number}

/-- What stands before the first fluid value is as it was. -/
theorem Resolved.exists_of_append {o v w : Text} (ho : ∀ p ∈ o, p ∈ opening)
    (h : Resolved minWidth maxWidth v (o ++ w)) :
    ∃ v', v = o ++ v' ∧ Resolved minWidth maxWidth v' w := by
  induction o generalizing v with
  | nil => exact ⟨v, rfl, h⟩
  | cons p o ih =>
    rw [List.cons_append] at h
    generalize hnew : p :: (o ++ w) = new at h
    cases h with
    | nil => cases hnew
    | char hstart hrest =>
      obtain ⟨rfl, rfl⟩ := List.cons.inj hnew
      obtain ⟨v', rfl, hv'⟩ := ih (fun q hq => ho q (List.mem_cons_of_mem _ hq)) hrest
      exact ⟨v', rfl, hv'⟩
    | call hcall hrest =>
      obtain ⟨q, r, rfl, hq⟩ := exists_cons_of_isFluidText (isFluidText_of_callText hcall)
      obtain ⟨rfl, -⟩ := List.cons.inj hnew
      exact absurd (ho p List.mem_cons_self) hq

theorem Resolved.eq_of_no_closing {v w : Text} (h : Resolved minWidth maxWidth v w)
    (hclosing : .char ')' ∉ v) : w = v := by
  induction h with
  | nil => rfl
  | char _ _ ih => rw [ih (fun hmem => hclosing (List.mem_cons_of_mem _ hmem))]
  | call _ _ _ => exact absurd (by simp [Piece.text]) hclosing

/-- Where no call stood before a code point, none stands there afterwards. -/
theorem Resolved.not_startsCall {c : CodePoint} {v w : Text}
    (h : Resolved minWidth maxWidth v w) (hstart : ¬ StartsCall (c :: v)) :
    ¬ StartsCall (c :: w) := by
  intro hcall
  obtain ⟨arguments, rest, hne, hclosing, htext⟩ := startsCall_iff.1 hcall
  have hopening : opening = .char 'r' :: opening.tail := rfl
  rw [Piece.text, List.append_assoc, List.append_assoc, hopening, List.cons_append] at htext
  obtain ⟨rfl, rfl⟩ := List.cons.inj htext
  obtain ⟨v', rfl, hv'⟩ := h.exists_of_append fun p hp => List.mem_of_mem_tail hp
  by_cases hmem : .char ')' ∈ v'
  · obtain ⟨before, after, rfl, hbefore⟩ := List.eq_append_cons_of_mem hmem
    cases before with
    | nil =>
      -- The bracket that follows at once is no call and stays.
      generalize hnew : arguments ++ ([.char ')'] ++ rest) = new at hv'
      cases hv' with
      | char _ _ =>
        cases arguments with
        | nil => exact hne rfl
        | cons p arguments =>
          obtain ⟨rfl, -⟩ := List.cons.inj hnew
          exact hclosing List.mem_cons_self
    | cons p before =>
      refine hstart (startsCall_iff.2 ⟨p :: before, after, List.cons_ne_nil _ _, hbefore, ?_⟩)
      rw [Piece.text, List.append_assoc, List.append_assoc]
      rfl
  -- Nothing was replaced behind the opening, so the bracket of the call was there before.
  · have heq := hv'.eq_of_no_closing hmem
    exact hmem (heq ▸ by simp)

/-- **A resolved value has no call.** -/
theorem Resolved.not_hasCall {v w : Text} (h : Resolved minWidth maxWidth v w) : ¬ HasCall w := by
  induction h with
  | nil => exact not_hasCall_nil
  | char hstart hrest ih =>
    rw [hasCall_cons, not_or]
    exact ⟨hrest.not_startsCall hstart, ih⟩
  | call hcall _ ih =>
    exact not_hasCall_of_isFluidText_append (isFluidText_of_callText hcall) ih

end

end FluidCss.Inline
