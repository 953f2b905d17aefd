import FluidCss.Component.Basic
import FluidCss.Param.Extract
import FluidCss.Proofs.Component.Shape
import FluidCss.Proofs.Number.Prolonged
import FluidCss.Proofs.Result

/-!
# Values with a unit

**Theorem (`dimension_is_no_number`).** The symbol of a number with a unit is no number, unless the
unit, as it is written, makes the number longer. It is then passed over among the sizes of a pair,
and refused as a width. A unit that makes the number longer gives a numeral again (`unit_is_read`):
a unit may begin with an underscore or a digit of another script, and so may what goes on with a
numeral.

The scanner takes the number with a unit as it takes every number (`isMeasured_scan`), and a unit is
written with a backslash before each point (`pointsEscaped_writeUnit`), so that only digits, an
exponent and blanks are left to prolong the number.
-/

namespace FluidCss

open Numeral

/-- The number of a token with a unit is one that the scanner takes. -/
def Token.IsMeasured : Token → Prop
  | .leaf (.dimension n _) => IsScanned n
  | _ => True

namespace Scan

theorem url_isMeasured (s : Text) : (url s).1.IsMeasured := by
  simp only [url]
  split <;> trivial

theorem identLike_isMeasured (s : Text) : (identLike s).1.IsMeasured := by
  simp only [identLike]
  split
  · split
    · exact url_isMeasured _
    · trivial
  · trivial

theorem numeric_isMeasured {s : Text} {n : Nat} (h : numberLength s = n + 1) :
    (numeric s (n + 1)).1.IsMeasured := by
  simp only [numeric]
  split
  · exact isScanned_take h
  split <;> trivial

theorem quoted_isMeasured (quote : CodePoint) (s : Text) : (quoted quote s).1.IsMeasured := by
  simp only [quoted]
  split <;> trivial

theorem IsPunctuation.isMeasured {c : CodePoint} {s : Text} {read : Token × Nat}
    (h : IsPunctuation c s read) : read.1.IsMeasured := by
  cases h with
  | string => exact quoted_isMeasured c s
  | _ => trivial

theorem token_isMeasured (c : CodePoint) (s : Text) : (token c s).1.IsMeasured := by
  have h := isToken_token c s
  generalize token c s = read at h ⊢
  cases h with
  | identLike => exact identLike_isMeasured _
  | numeric h => exact numeric_isMeasured h
  | punctuation _ h => exact h.isMeasured
  | _ => trivial

theorem isMeasured_scan (start skip : Nat) (t : Text) :
    ∀ lexeme ∈ Lexeme.scan start skip t, lexeme.token.IsMeasured :=
  forall_mem_scan token_isMeasured start skip t

end Scan

/-! ## Units as they are written -/

namespace Numeral

theorem pointsEscaped_nil : PointsEscaped [] := by
  intro x y h
  simp at h

theorem pointsEscaped_backslash (t : Text) : PointsEscaped (.char '\\' :: t) := by
  intro x y h
  cases x with
  | nil => simp at h
  | cons c x => exact (List.cons.inj h).1 ▸ List.mem_cons_self

theorem pointsEscaped_singleton {p : CodePoint} (h : p ≠ '.') : PointsEscaped [p] := by
  intro x y hcons
  cases x with
  | nil => exact absurd (List.cons.inj hcons).1 h
  | cons c x => simp at hcons

theorem PointsEscaped.append {t u : Text} (ht : PointsEscaped t) (hu : PointsEscaped u) :
    PointsEscaped (t ++ u) := by
  intro x y h
  rcases List.append_eq_append_iff.1 h with ⟨z, rfl, hz⟩ | ⟨z, rfl, hz⟩
  · exact List.mem_append_right t (hu z y hz)
  · cases z with
    | nil =>
      have hmem := hu [] y hz.symm
      exact absurd hmem List.not_mem_nil
    | cons c z =>
      obtain ⟨rfl, -⟩ := List.cons.inj hz
      exact ht x z rfl

end Numeral

namespace Name

theorem ne_point_of_isPart {p : CodePoint} (h : isPart p) : p ≠ '.' := by
  rintro rfl
  revert h
  decide

theorem pointsEscaped_escaped (p : CodePoint) : PointsEscaped (escaped p) := by
  unfold escaped
  split
  · exact pointsEscaped_backslash _
  split
  · exact pointsEscaped_backslash _
  split <;> exact pointsEscaped_backslash _

theorem pointsEscaped_writePart (name : Text) : PointsEscaped (writePart name) := by
  induction name with
  | nil => exact pointsEscaped_nil
  | cons p name ih =>
    rw [writePart, List.flatMap_cons]
    refine PointsEscaped.append ?_ ih
    split
    · rename_i hpart
      exact pointsEscaped_singleton (ne_point_of_isPart hpart)
    · exact pointsEscaped_escaped p

theorem pointsEscaped_writeStart (p : CodePoint) : PointsEscaped (writeStart p) := by
  unfold writeStart
  split
  · rename_i hstart
    exact pointsEscaped_singleton (ne_point_of_isPart (by simp [isPart, hstart]))
  split
  · exact pointsEscaped_backslash _
  · exact pointsEscaped_escaped p

theorem pointsEscaped_writeIdent (name : Text) : PointsEscaped (writeIdent name) := by
  have hhyphen : PointsEscaped "-" := pointsEscaped_singleton (by decide)
  unfold writeIdent
  split
  · exact pointsEscaped_nil
  · exact pointsEscaped_backslash _
  · exact (hhyphen.append hhyphen).append (pointsEscaped_writePart _)
  · exact (hhyphen.append (pointsEscaped_writeStart _)).append (pointsEscaped_writePart _)
  · exact (pointsEscaped_writeStart _).append (pointsEscaped_writePart _)

end Name

/-- **A unit is written with a backslash before each point.** -/
theorem pointsEscaped_writeUnit (unit : Text) : PointsEscaped (Leaf.writeUnit unit) := by
  unfold Leaf.writeUnit
  split
  · split
    · exact pointsEscaped_backslash _
    · exact Name.pointsEscaped_writeIdent _
  · exact pointsEscaped_nil

namespace Param

/-! ## What becomes of them -/

/-- An item that is no number does not count among the sizes of a pair. -/
theorem pair?_without {item : Value} (h : itemNumber? item = none) (name : Text)
    (before after : List Value) :
    pair? (name, .list (before ++ item :: after)) = pair? (name, .list (before ++ after)) := by
  simp only [pair?, itemsOf, List.filterMap_append, List.filterMap_cons_none h]

theorem width_of_number?_eq_none {fields : Fields} {key : Text} {s : Symbol}
    (hfield : fields.get? key = some (.symbol s)) (h : number? s.text = none) (default : Number) :
    fields.width key default = .error (.numberExpected key s.text) := by
  have htext : fields.text? key = .ok (some s.text) := by
    simp only [Fields.text?, hfield]
  simp only [Fields.width, htext, bind, Except.bind, h]
  rfl

theorem scaleOf_ne_ok {fields : Fields} {key : Text} (hkey : key = "minWidth" ∨ key = "maxWidth")
    (h : ∀ default, ∃ e, fields.width key default = .error e) (settings : Settings)
    (scale : Scale) :
    scaleOf fields settings ≠ .ok scale := by
  intro hok
  unfold scaleOf at hok
  dsimp only at hok
  split at hok
  · cases hok
  -- A scale that is accepted has both widths, and one of them is refused by assumption.
  obtain ⟨name, -, hok⟩ := bind_eq_ok.1 hok
  obtain ⟨crossPairs, -, hok⟩ := bind_eq_ok.1 hok
  obtain ⟨minWidth, hmin, hok⟩ := bind_eq_ok.1 hok
  obtain ⟨maxWidth, hmax, -⟩ := bind_eq_ok.1 hok
  rcases hkey with rfl | rfl
  · obtain ⟨e, he⟩ := h settings.minWidth
    cases he.symm.trans hmin
  · obtain ⟨e, he⟩ := h settings.maxWidth
    cases he.symm.trans hmax

/-- **The symbol of a number with a unit is no number unless the unit prolongs it**: it does not
count among the sizes of a pair, and a scale is refused that has it as a width. With a unit that
prolongs it, it is a number, if that is finite. -/
theorem dimension_is_no_number {text n u : Text} {start : Nat}
    (h : ⟨start, .leaf (.dimension n u)⟩ ∈ Lexeme.scan 0 0 (normalize text)) {spaced : Bool}
    {s : Symbol} (hs : s = Symbol.ofLeaf spaced (.dimension n u)) :
    (¬Prolongs n (Leaf.writeUnit u) → number? s.text = none ∧
      (∀ name before after, pair? (name, .list (before ++ .symbol s :: after)) =
        pair? (name, .list (before ++ after))) ∧
      ∀ (fields : Fields) (key : Text), key = "minWidth" ∨ key = "maxWidth" →
        fields.get? key = some (.symbol s) →
        (∀ default, fields.width key default = .error (.numberExpected key s.text)) ∧
          ∀ settings scale, scaleOf fields settings ≠ .ok scale) ∧
    (Prolongs n (Leaf.writeUnit u) → ∃ d, double? s.text = some d ∧
      (d.isFinite → ∃ k, number? s.text = some k)) := by
  have hscanned : IsScanned n := Scan.isMeasured_scan 0 0 _ _ h
  have hread := double?_isSome_iff hscanned (pointsEscaped_writeUnit u)
  have htext : s.text = n ++ Leaf.writeUnit u := by
    rw [hs]
    rfl
  constructor
  · intro hprolongs
    have hnumber : number? s.text = none := by
      rw [htext]
      exact number?_eq_none fun hdouble => hprolongs (hread.1 hdouble)
    refine ⟨hnumber, pair?_without hnumber, fun fields key hkey hfield => ?_⟩
    have hwidth := width_of_number?_eq_none hfield hnumber
    exact ⟨hwidth, scaleOf_ne_ok hkey fun default => ⟨_, hwidth default⟩⟩
  · intro hprolongs
    obtain ⟨d, hd⟩ := hread.2 hprolongs
    rw [htext]
    exact ⟨d, hd, exists_number? hd⟩

theorem dimension_is_no_number_pixels :
    ⟨2, .leaf (.dimension "16" "px")⟩ ∈ Lexeme.scan 0 0 (normalize "[ 16px ]") ∧
    ¬Prolongs "16" (Leaf.writeUnit "px") ∧ number? "16px" = none ∧
    (∀ name before after, pair? (name, .list (before ++ .symbol ⟨.word, "16px", true⟩ :: after)) =
      pair? (name, .list (before ++ after))) ∧
    ∀ settings scale,
      scaleOf [("minWidth", .symbol ⟨.word, "16px", true⟩)] settings ≠ .ok scale := by
  have hscan : ⟨2, .leaf (.dimension "16" "px")⟩ ∈ Lexeme.scan 0 0 (normalize "[ 16px ]") := by
    decide +kernel
  have hs : (⟨.word, "16px", true⟩ : Symbol) = Symbol.ofLeaf true (.dimension "16" "px") := by
    decide +kernel
  obtain ⟨hno, hyes⟩ := dimension_is_no_number hscan hs
  have hprolongs : ¬Prolongs "16" (Leaf.writeUnit "px") := by
    intro hprolongs
    obtain ⟨d, hd, -⟩ := hyes hprolongs
    have hnone : double? "16px" = none := by decide +kernel
    cases hnone.symm.trans hd
  obtain ⟨hnumber, hpairs, hwidths⟩ := hno hprolongs
  exact ⟨hscan, hprolongs, hnumber, hpairs, (hwidths _ "minWidth" (.inl rfl) rfl).2⟩

/-- **A unit can be read as part of a number**: the unit that an underscore begins goes on with the
digits. -/
theorem unit_is_read : ¬ ∀ (text n u : Text) (start : Nat) (spaced : Bool),
    ⟨start, .leaf (.dimension n u)⟩ ∈ Lexeme.scan 0 0 (normalize text) →
    number? (Symbol.ofLeaf spaced (.dimension n u)).text = none := by
  intro h
  have hnone := h "1_0" "1" "_0" 0 false (by decide +kernel)
  have hten : number? (Symbol.ofLeaf false (.dimension "1" "_0")).text = some (.int 10) := by
    decide +kernel
  cases hten.symm.trans hnone

end Param

end FluidCss
