import FluidCss.Proofs.Inline.Call

/-!
# What resolving makes of a value

**Theorem (`resolve_rewrites`).** A value that can be resolved has its calls replaced from left to
right, each by its own fluid value, and all else in it kept. What comes out has no call, so that
resolving it again changes nothing.

Which calls are replaced is said without dividing the value into pieces (`Rewritten`): the call that
begins first, then the one that begins first in what follows it, until no call is left. This
determines the new value (`resolve_eq_ok_iff`).
-/

namespace FluidCss.Inline

open Text

/-! ## The call that begins first -/

/-- In `before ++ rest` no call begins before `rest` does. -/
def IsFree (before rest : Text) : Prop :=
  ∀ front back, before ++ rest = front ++ back → StartsCall back → before.length ≤ front.length

theorem isFree_nil (rest : Text) : IsFree [] rest := fun _ _ _ _ => Nat.zero_le _

theorem isFree_cons {c : CodePoint} {before rest : Text} :
    IsFree (c :: before) rest ↔ ¬ StartsCall (c :: (before ++ rest)) ∧ IsFree before rest := by
  constructor
  · refine fun h => ⟨fun hstart => ?_, fun front back hsplit hback => ?_⟩
    · exact absurd (h [] _ rfl hstart) (by simp)
    · have hlength := h (c :: front) back (congrArg (c :: ·) hsplit) hback
      exact Nat.le_of_succ_le_succ hlength
  · rintro ⟨hstart, h⟩ front back hsplit hback
    cases front with
    | nil =>
      obtain rfl : c :: (before ++ rest) = back := hsplit
      exact absurd hback hstart
    | cons d front =>
      have htail := h front back (List.cons.inj hsplit).2 hback
      exact Nat.succ_le_succ htail

/-! ## The value of a call -/

/-- The number that a call gives as its argument at a place. -/
def given? (arguments : Text) (i : Nat) : Option Number :=
  (splitCommas arguments)[i]?.bind argument?

/-- The value of a call is the fluid value between its first two numbers, over the widths that the
other two give or else those of the run. -/
def HasValue (minWidth maxWidth : Number) (arguments result : Text) : Prop :=
  ∃ minSize maxSize, given? arguments 0 = some minSize ∧ given? arguments 1 = some maxSize ∧
    fluidText minSize maxSize ((given? arguments 2).getD minWidth)
      ((given? arguments 3).getD maxWidth) = .ok result

theorem callText_eq_ok_iff {minWidth maxWidth : Number} {arguments result : Text} :
    callText minWidth maxWidth arguments = .ok result ↔
      HasValue minWidth maxWidth arguments result := by
  have hgiven : ∀ i, (((splitCommas arguments).map argument?)[i]?).join = given? arguments i := by
    intro i
    rw [given?, List.getElem?_map]
    cases (splitCommas arguments)[i]? <;> rfl
  simp only [callText, HasValue, hgiven]
  cases given? arguments 0 with
  | none => simp
  | some minSize =>
    cases given? arguments 1 with
    | none => simp
    | some maxSize => simp

/-! ## Values with their calls replaced -/

/-- A value beside the text that comes of it when the call that begins first is replaced, and so on
in what follows that call. -/
inductive Rewritten (minWidth maxWidth : Number) : Text → Text → Prop where
  | rest {value : Text} (hnone : ¬ HasCall value) : Rewritten minWidth maxWidth value value
  | call {before arguments after result new : Text}
      (hfirst : IsFree before ((Piece.call arguments).text ++ after)) (hne : arguments ≠ [])
      (hclosing : .char ')' ∉ arguments) (hresult : HasValue minWidth maxWidth arguments result)
      (hafter : Rewritten minWidth maxWidth after new) :
      Rewritten minWidth maxWidth (before ++ ((Piece.call arguments).text ++ after))
        (before ++ (result ++ new))

section

variable {minWidth maxWidth : Number} {value new : Text}

/-- A code point at which no call begins may stand in front. -/
theorem Rewritten.cons {c : CodePoint} (hstart : ¬ StartsCall (c :: value))
    (h : Rewritten minWidth maxWidth value new) :
    Rewritten minWidth maxWidth (c :: value) (c :: new) := by
  cases h with
  | rest hnone => exact .rest (hasCall_cons.not.2 (not_or_intro hstart hnone))
  | call hfirst hne hclosing hresult hafter =>
    exact .call (isFree_cons.2 ⟨hstart, hfirst⟩) hne hclosing hresult hafter

/-- What stands before the first call is kept. -/
theorem resolve_append_of_isFree {before rest : Text} (h : IsFree before rest) :
    resolve minWidth maxWidth (before ++ rest) =
      (resolve minWidth maxWidth rest).map (before ++ ·) := by
  induction before with
  | nil =>
    rw [List.nil_append]
    cases resolve minWidth maxWidth rest <;> rfl
  | cons c before ih =>
    obtain ⟨hstart, hfree⟩ := isFree_cons.1 h
    rw [List.cons_append, resolve_cons hstart, ih hfree]
    cases resolve minWidth maxWidth rest <;> rfl

/-- **A value is resolved to the text in which its calls are replaced from left to right.** -/
theorem resolve_eq_ok_iff :
    resolve minWidth maxWidth value = .ok new ↔ Rewritten minWidth maxWidth value new := by
  constructor
  · refine resolve_induction (.rest not_hasCall_nil) (fun hstart hrest => hrest.cons hstart) ?_
    intro arguments v text w hne hclosing hcall hrest
    exact .call (isFree_nil _) hne hclosing (callText_eq_ok_iff.1 hcall) hrest
  · intro h
    induction h with
    | rest hnone => exact (resolve_of_not_hasCall hnone _ _).1
    | call hfirst hne hclosing hresult _ ih =>
      rw [resolve_append_of_isFree hfirst, resolve_call_append hne hclosing,
        callText_eq_ok_iff.2 hresult, Except.bind, ih]
      rfl

/-- **Resolving replaces every call by its own value, and leaves none**: the new value is the one
in which the calls are replaced from left to right, it has no call, and it is resolved to itself. -/
theorem resolve_rewrites (h : resolve minWidth maxWidth value = .ok new) :
    ¬ HasCall new ∧ resolve minWidth maxWidth new = .ok new ∧
      Rewritten minWidth maxWidth value new ∧
      ∀ new', Rewritten minWidth maxWidth value new' → new' = new := by
  have hnone : ¬ HasCall new := (resolved_of_resolve h).not_hasCall
  refine ⟨hnone, (resolve_of_not_hasCall hnone _ _).1, resolve_eq_ok_iff.1 h, fun new' hnew' => ?_⟩
  have hsame := (resolve_eq_ok_iff.2 hnew').symm.trans h
  exact Except.ok.inj hsame

end

/-- A value with two calls side by side between an empty and an unfinished one. -/
def crowdedValue : Text :=
  "ruler.fluid()ruler.fluid(16, 24)ruler.fluid(8,8, ruler.fluid(0)ruler.fluid("

/-- The value after its two calls have been replaced. -/
def crowdedResult : Text :=
  "ruler.fluid()clamp(1rem, 0.5556vw + 0.8889rem, 1.5rem)0.5remruler.fluid("

theorem resolve_rewrites_crowdedValue :
    resolve 320 1760 crowdedValue = .ok crowdedResult ∧ ¬ HasCall crowdedResult ∧
      resolve 320 1760 crowdedResult = .ok crowdedResult ∧
      Rewritten 320 1760 crowdedValue crowdedResult ∧
      ∀ new', Rewritten 320 1760 crowdedValue new' → new' = crowdedResult := by
  have h : resolve 320 1760 crowdedValue = .ok crowdedResult := by decide +kernel
  exact ⟨h, resolve_rewrites h⟩

end FluidCss.Inline
