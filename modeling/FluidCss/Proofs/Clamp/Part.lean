import FluidCss.Proofs.Clamp.Text
import FluidCss.Proofs.Component.Spelling
import FluidCss.Proofs.Number.Bound
import FluidCss.Proofs.Sheet.Writing

/-!
# Fluid values in style sheets

A fluid value is written as style sheet text: its lengths are numbers with units, or names where
there is no number, and a clamp is a call.

* `Fluid.exists_parts`: a fluid value stands as clean parts before every stop, and none of them ends
  a statement.
-/

namespace FluidCss

open FluidCss.Part FluidCss.Piece

/-! ## Lengths -/

/-- The part of a length, which can stand before all that ends a name. -/
structure Part.IsLength (p : Part) (t : Text) : Prop where
  text_eq : p.text = t
  clean : Clean [p]
  spelled : ∀ after : Text, (∀ q ∈ after.head?, EndsName q) → Spelled p.pieces after
  role : p.role = .other

namespace Part.IsLength

variable {p : Part} {t after : Text} {ps : List Part}

theorem isSpace_head (h : IsLength p t) (hspelled : Spelled (piecesAll (p :: ps)) after) :
    ∀ c ∈ (textAll (p :: ps) ++ after).head?, Name.isSpace c = false := by
  have hspace : p.isSpace = false := by
    have hbegun : Begun [p] := ⟨by simp [h.role], by simp [h.role]⟩
    exact hbegun.isSpace_head p rfl
  obtain ⟨d, v, htext, hd⟩ := exists_text_eq_cons hspelled hspace
  intro c hc
  rw [textAll_cons, htext] at hc
  obtain rfl := Option.some.inj hc
  exact hd

theorem spelled_cons (h : IsLength p t) (hafter : ∀ q ∈ (textAll ps ++ after).head?, EndsName q)
    (hps : Spelled (piecesAll ps) after) : Spelled (piecesAll (p :: ps)) after :=
  spelled_append.2 ⟨h.spelled _ hafter, hps⟩

theorem spelled_gap (h : IsLength p t) (hspelled : Spelled (piecesAll (p :: ps)) after) :
    Spelled (piecesAll (gap :: p :: ps)) after :=
  ⟨readsIn_gap (h.isSpace_head hspelled), hspelled⟩

theorem spelled_comma (h : IsLength p t) (hspelled : Spelled (piecesAll (p :: ps)) after) :
    Spelled (piecesAll (leaf "," (.literal ",") :: gap :: p :: ps)) after :=
  ⟨readsIn_comma _, h.spelled_gap hspelled⟩

theorem spelled_plus (h : IsLength p t) (hspelled : Spelled (piecesAll (p :: ps)) after) :
    Spelled (piecesAll (gap :: leaf "+" (.literal "+") :: gap :: p :: ps)) after := by
  refine ⟨readsIn_gap fun c hc => ?_, readsIn_plus _, h.spelled_gap hspelled⟩
  obtain rfl := Option.some.inj hc
  decide

end Part.IsLength

/-- The characters of fluid values stand for themselves in style sheets. -/
theorem Fluid.plain_of_mem {p : CodePoint} (h : p.isDigit ∨ p ∈ textChars) :
    p ≠ '\\' ∧ (Text.isBlank p → Name.isSpace p) ∧ normalizePoint p = p := by
  rcases h with hdigit | hmem
  · rcases CodePoint.isDigit_iff.1 hdigit with
      rfl | rfl | rfl | rfl | rfl | rfl | rfl | rfl | rfl | rfl <;> decide
  · exact (by decide : ∀ q ∈ textChars,
      q ≠ '\\' ∧ (Text.isBlank q → Name.isSpace q) ∧ normalizePoint q = q) p hmem

theorem IsDecimal.sign_eq {sign whole fraction : Text} (h : IsDecimal sign whole fraction) :
    (Numeral.sign (sign ++ whole ++ fraction)).2 = whole ++ fraction := by
  rcases h.sign with rfl | rfl
  · obtain ⟨c, cs, rfl, hc⟩ := h.whole.exists_cons
    have hminus : c ≠ '-' ∧ c ≠ '+' := by
      constructor <;> (rintro rfl; exact absurd hc (by decide))
    simp only [List.nil_append, List.cons_append]
    unfold Numeral.sign
    split
    · rename_i heq
      exact absurd (List.cons.inj heq).1 hminus.1
    · rename_i heq
      exact absurd (List.cons.inj heq).1 hminus.2
    · rfl
  · rfl

/-- Only an integer can be too long. -/
theorem IsDecimal.not_overlong {sign whole fraction : Text} (h : IsDecimal sign whole fraction)
    (hshort : fraction = [] → whole.length ≤ Numeral.integerDigitLimit) :
    (Component.integerDigits? (sign ++ whole ++ fraction)).filter (Numeral.integerDigitLimit < ·) =
      none := by
  simp only [Component.integerDigits?, h.sign_eq]
  rcases h.fraction with rfl | ⟨places, rfl, -⟩
  · split
    · simpa using hshort rfl
    · rfl
  · have hpoint : (whole ++ .char '.' :: places).all CodePoint.isDigit = false := by
      rw [List.all_append, List.all_cons]
      simp [(by decide : CodePoint.isDigit '.' = false)]
    rw [hpoint]
    rfl

/-- The piece of a row of characters of fluid values. -/
theorem Piece.clean_of_mem {t : Text} {l : Leaf} (hends : EndsWell t)
    (hchars : ∀ p ∈ t, p.isDigit ∨ p ∈ Fluid.textChars)
    (hwhole : (Token.leaf l).Whole) (hshape : EndsWell t → (Token.leaf l).Shape t)
    (hshort : Component.overlong? ⟨0, .leaf l⟩ = none) : Piece.Clean ⟨t, .leaf l⟩ where
  whole := hwhole
  shape := hshape hends
  noEscape := fun hmem => (Fluid.plain_of_mem (hchars _ hmem)).1 rfl
  blank := fun p hp => (Fluid.plain_of_mem (hchars p hp)).2.1
  normal := fun p hp => (Fluid.plain_of_mem (hchars p hp)).2.2
  short := hshort

theorem IsName.endsWell {name : Text} (h : IsName name) : EndsWell name := by
  obtain ⟨p, t, rfl, -⟩ := h.start
  exact .of_forall (List.cons_ne_nil _ _) fun q hq => Name.isGood_of_isPart (h.isPart q hq)

theorem isLength_dimension {sign whole fraction unit : Text} (h : IsDecimal sign whole fraction)
    (hshort : fraction = [] → whole.length ≤ Numeral.integerDigitLimit) (hunit : IsName unit)
    (hhead : ∀ p ∈ unit.head?, EndsDecimal p) (hchars : ∀ p ∈ unit, p ∈ Fluid.textChars) :
    IsLength
      (leaf (sign ++ whole ++ fraction ++ unit) (.dimension (sign ++ whole ++ fraction) unit))
      (sign ++ whole ++ fraction ++ unit) where
  text_eq := text_leaf ..
  clean := by
    refine clean_leaf (Piece.clean_of_mem hunit.endsWell.append (fun p hp => ?_) trivial id ?_)
    · rcases List.mem_append.1 hp with hp | hp
      · exact (h.mem_fixed hp).imp_right (List.mem_append_left _)
      · exact .inr (hchars p hp)
    · exact h.not_overlong hshort
  spelled _ hafter := ⟨readsIn_dimension h hunit hhead hafter, trivial⟩
  role := rfl

theorem isLength_ident {name : Text} (h : IsName name) (hchars : ∀ p ∈ name, p ∈ Fluid.textChars) :
    IsLength (leaf name (.ident name)) name where
  text_eq := text_leaf ..
  clean :=
    clean_leaf (Piece.clean_of_mem h.endsWell (fun p hp => .inr (hchars p hp)) trivial id rfl)
  spelled _ hafter := ⟨readsIn_ident h hafter, trivial⟩
  role := rfl

theorem exists_isLength_rem {size : Fixed} (h : size.Short) :
    ∃ p, IsLength p (Length.remText size) := by
  have hunit : IsName "rem" := ⟨⟨'r', "em", rfl, by decide⟩, by decide⟩
  cases size with
  | ticks n =>
    obtain ⟨sign, fraction, hdecimal, htext⟩ := Fixed.isDecimal_shortText n
    rw [Length.remText, htext]
    refine ⟨_, isLength_dimension hdecimal (fun _ => ?_) hunit (by decide) (by decide)⟩
    rw [Text.ofChars, List.length_map]
    exact (Nat.length_toDigits_le_iff (by decide) (by decide)).2 h
  | nan => exact ⟨_, isLength_ident ⟨⟨'N', "aNrem", rfl, by decide⟩, by decide⟩ (by decide)⟩

/-- A share of the viewport width. It has a point, so that it is never too long. -/
theorem exists_isLength_vw (share : Fixed) : ∃ p, IsLength p (Length.vwText share) := by
  have hunit : IsName "vw" := ⟨⟨'v', "w", rfl, by decide⟩, by decide⟩
  cases share with
  | ticks n =>
    obtain ⟨sign, whole, places, hdecimal, htext⟩ := Fixed.isDecimal_text n
    rw [Length.vwText, htext]
    exact ⟨_, isLength_dimension hdecimal (fun he => by cases he) hunit (by decide) (by decide)⟩
  | nan => exact ⟨_, isLength_ident ⟨⟨'N', "aNvw", rfl, by decide⟩, by decide⟩ (by decide)⟩

/-! ## Fluid values -/

namespace Fluid

/-- The lengths in rems of a fluid value are short. -/
def Short : Fluid → Prop
  | static size => size.Short
  | clamp least _ intercept greatest => least.Short ∧ intercept.Short ∧ greatest.Short

theorem short_of_between {minSize maxSize minWidth maxWidth : Number} {f : Fluid}
    (h : between minSize maxSize minWidth maxWidth = .ok f) : f.Short := by
  unfold between at h
  by_cases hsame : minSize.same maxSize = true
  · simp only [hsame, if_true] at h
    obtain ⟨size, hsize, h⟩ := bind_eq_ok.1 h
    obtain rfl := pure_eq_ok.1 h
    exact Length.rems_short (Error.ofArithmetic_eq_ok.1 hsize)
  · simp only [hsame, Bool.false_eq_true, if_false] at h
    obtain ⟨-, -, h⟩ := bind_eq_ok.1 h
    obtain ⟨-, -, h⟩ := bind_eq_ok.1 h
    obtain ⟨⟨slope, intercept⟩, -, h⟩ := bind_eq_ok.1 h
    obtain ⟨printable, -, h⟩ := bind_eq_ok.1 h
    cases printable with
    | false => cases h
    | true =>
      have h := Error.ofArithmetic_eq_ok.1 h
      obtain ⟨least, hleast, h⟩ := bind_eq_ok.1 h
      obtain ⟨share, -, h⟩ := bind_eq_ok.1 h
      obtain ⟨offset, hoffset, h⟩ := bind_eq_ok.1 h
      obtain ⟨greatest, hgreatest, h⟩ := bind_eq_ok.1 h
      obtain rfl := pure_eq_ok.1 h
      exact ⟨Length.rems_short hleast, Length.rems_short hoffset, Length.rems_short hgreatest⟩

def clampParts (least slope intercept greatest : Part) : List Part :=
  [.function "clamp(" "clamp" [least, leaf "," (.literal ","), gap, slope, gap,
    leaf "+" (.literal "+"), gap, intercept, leaf "," (.literal ","), gap, greatest]]

section

variable {least slope intercept greatest : Part} {a b c d : Text}

theorem textAll_clampParts (ha : IsLength least a) (hb : IsLength slope b)
    (hc : IsLength intercept c) (hd : IsLength greatest d) :
    textAll (clampParts least slope intercept greatest) =
      "clamp(" ++ a ++ ", " ++ b ++ " + " ++ c ++ ", " ++ d ++ ")" := by
  simp [clampParts, text_function, gap, ha.text_eq, hb.text_eq, hc.text_eq, hd.text_eq]
  rfl

theorem clean_clampParts (ha : IsLength least a) (hb : IsLength slope b)
    (hc : IsLength intercept c) (hd : IsLength greatest d) :
    Clean (clampParts least slope intercept greatest) := by
  have hcomma : Clean [leaf "," (.literal ",")] := clean_leaf clean_comma
  have hplus : Clean [leaf "+" (.literal "+")] := clean_leaf clean_plus
  have hopening : Piece.Clean ⟨"clamp(", .function "clamp"⟩ :=
    ⟨trivial, trivial, by decide, by decide, by decide, rfl⟩
  exact clean_function hopening (ha.clean.cons (hcomma.cons (clean_gap.cons (hb.clean.cons
    (clean_gap.cons (hplus.cons (clean_gap.cons (hc.clean.cons (hcomma.cons (clean_gap.cons
    hd.clean))))))))))

/-- Each length is followed by a mark, a space or the closing bracket. -/
theorem spelled_clampParts (ha : IsLength least a) (hb : IsLength slope b)
    (hc : IsLength intercept c) (hd : IsLength greatest d) (after : Text) :
    Spelled (piecesAll (clampParts least slope intercept greatest)) after := by
  have hclamp : IsName "clamp" := ⟨⟨'c', "lamp", rfl, by decide⟩, by decide⟩
  refine spelled_function (fun v => readsIn_function hclamp (by decide) v) ?_
  have hgreatest : Spelled (piecesAll [greatest]) (")" ++ after) :=
    hd.spelled_cons (endsName_head (by decide)) trivial
  have hintercept := hc.spelled_cons (endsName_head (by decide)) (hd.spelled_comma hgreatest)
  have hslope := hb.spelled_cons (endsName_head (by decide)) (hc.spelled_plus hintercept)
  exact ha.spelled_cons (endsName_head (by decide)) (hb.spelled_comma hslope)

end

/-- **A fluid value stands as clean parts before every stop**, none of which ends a statement. -/
theorem exists_parts {t : Text} (h : IsFluidText t) : ∃ ps, textAll ps = t ∧ Clean ps ∧
    (∀ after, Stops after → Spelled (piecesAll ps) after) ∧ ∀ p ∈ ps, p.role = .other := by
  obtain ⟨_, _, _, _, ht⟩ := h
  obtain ⟨f, hf, rfl⟩ := fluidText_eq_ok ht
  have hshort := short_of_between hf
  cases f with
  | static size =>
    obtain ⟨p, hp⟩ := exists_isLength_rem hshort
    refine ⟨[p], ?_, hp.clean, fun after hafter => ?_, ?_⟩
    · rw [textAll_cons, textAll_nil, List.append_nil, hp.text_eq]
      rfl
    · rw [piecesAll_cons, piecesAll_nil, List.append_nil]
      exact hp.spelled after fun q hq => endsName_of_isStop (hafter q hq)
    · intro q hq
      obtain rfl := List.mem_singleton.1 hq
      exact hp.role
  | clamp least slope intercept greatest =>
    obtain ⟨pa, ha⟩ := exists_isLength_rem hshort.1
    obtain ⟨pb, hb⟩ := exists_isLength_vw slope
    obtain ⟨pc, hc⟩ := exists_isLength_rem hshort.2.1
    obtain ⟨pd, hd⟩ := exists_isLength_rem hshort.2.2
    -- A clamp is one call with the four lengths in it.
    refine ⟨_, textAll_clampParts ha hb hc hd, clean_clampParts ha hb hc hd,
      fun after _ => spelled_clampParts ha hb hc hd after, ?_⟩
    -- The one part is a length, which ends nothing.
    intro q hq
    obtain rfl := List.mem_singleton.1 hq
    rfl

end Fluid

end FluidCss
