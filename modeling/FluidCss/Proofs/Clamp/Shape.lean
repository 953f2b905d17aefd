import FluidCss.Proofs.Clamp.Rem
import FluidCss.Proofs.Clamp.Sign
import FluidCss.Proofs.Clamp.Text

/-!
# What a fluid value displays

Every fluid value that is worked out is a number of rems, or a clamp of three numbers of rems with a
share of the viewport width. This holds whatever the sizes and the widths are, infinities and
not-a-numbers among them, and the least size that is written is never above the greatest.

**Theorem (`displays_of_fluidText`).** A text that is the result for any four numbers displays a
size, or a clamp whose ends are in order, in numerals of digits, a point and a minus sign.

A line whose slope and intercept are finite comes from finite sizes, since an infinity among them
would stay one or be no number. So the check of the line keeps all infinities out but one: that of a
greatest width, for which the slope is zero.
-/

namespace FluidCss

open Number

namespace Length

/-- A numeral shows a slope as a share of the viewport width: it has no sign and all four places,
and is the exact value of the double next to a hundred times the slope, rounded. -/
structure ShowsShare (slope : Number) (f : Figures) : Prop where
  full : f.IsFull
  rounded : ∃ d q, slope.mul 100 = .ok (.double d) ∧ d.value? = some q ∧ Fixed.IsRounded q f.value

/-- **The share that is written shows the slope**, if that is not negative. -/
theorem showsShare_of_viewportShare {slope : Number} {z : Double} {share : Fixed}
    (hmul : slope.mul 100 = .ok (.double z)) (hfinite : z.isFinite = true)
    (hslope : 0 ≤ slope.value) (h : viewportShare slope = .ok share) :
    ∃ f, ShowsShare slope f ∧ vwText share = f.text ++ "vw" := by
  obtain ⟨q, hq⟩ := Double.exists_value? hfinite
  have hhundred : (0 : Rat) ≤ (100 : Number).value := by decide +kernel
  have hnonneg : 0 ≤ q := by
    rw [← value_double hq]
    exact value_mul_nonneg hmul hslope hhundred
  obtain ⟨n, hn, hrounded⟩ := Fixed.ofRat_rounded q
  have hzero : Fixed.IsRounded 0 0 := ⟨⟨0, by norm_num⟩, by norm_num, by norm_num⟩
  -- Rounding keeps the order, and zero is rounded to itself.
  have hticks : 0 ≤ n := by
    have hle := hzero.mono hnonneg hrounded
    have hle : (0 : Rat) ≤ n := by linarith
    exact_mod_cast hle
  have hshare : share = .ticks n := by
    unfold viewportShare at h
    rw [hmul] at h
    have h : (Number.double z).roundFixed = .ok share := h
    simp only [roundFixed, hq] at h
    exact (Except.ok.inj h).symm.trans hn
  obtain ⟨f, hfull, htext, hvalue⟩ := Fixed.exists_text hticks
  refine ⟨f, ⟨hfull, z, q, hmul, hq, ?_⟩, ?_⟩
  · rw [hvalue]
    exact hrounded
  · rw [vwText, hshare, htext]

theorem isReal_of_rems {a : Number} {size : Fixed} (h : rems a = .ok size)
    (hpoint : a.point? ≠ none) : a.IsReal := by
  cases a with
  | int n => trivial
  | double d =>
    cases d with
    | finite negative m e canonical => rfl
    | infinite negative =>
      have herror : ∀ s, rems (.double (.infinite s)) = .error .invalidOperation := by
        decide +kernel
      rw [herror] at h
      cases h
    | nan => exact absurd rfl hpoint

end Length

namespace Fluid

variable {minSize maxSize minWidth maxWidth : Number}

/-- What the text of a fluid value displays in which numerals: a size, or a clamp whose ends are in
order with the line between them. -/
inductive Displays (minSize maxSize minWidth maxWidth : Number) : Text → List Figures → Prop
  | static {size : Figures} (hsame : minSize.same maxSize = true)
    (hsize : Length.Shows minSize size) :
    Displays minSize maxSize minWidth maxWidth (size.text ++ "rem") [size]
  | clamp {slope intercept : Number} {least share offset greatest : Figures}
    (hline : line minSize maxSize minWidth maxWidth = .ok (slope, intercept))
    (hleast : Length.Shows minSize least) (hshare : Length.ShowsShare slope share)
    (hoffset : Length.Shows intercept offset) (hgreatest : Length.Shows maxSize greatest)
    (hle : least.value ≤ greatest.value) :
    Displays minSize maxSize minWidth maxWidth
      ("clamp(" ++ (least.text ++ "rem") ++ ", " ++ (share.text ++ "vw") ++ " + " ++
        (offset.text ++ "rem") ++ ", " ++ (greatest.text ++ "rem") ++ ")")
      [least, share, offset, greatest]

theorem Displays.isPlain {t : Text} {numerals : List Figures}
    (h : Displays minSize maxSize minWidth maxWidth t numerals) : ∀ f ∈ numerals, f.IsPlain := by
  cases h with
  | static hsame hsize =>
    intro f hf
    rw [List.mem_singleton.1 hf]
    exact hsize.canonical.toIsPlain
  | clamp hline hleast hshare hoffset hgreatest hle =>
    simp only [List.forall_mem_cons]
    exact ⟨hleast.canonical.toIsPlain, hshare.full.toIsPlain, hoffset.canonical.toIsPlain,
      hgreatest.canonical.toIsPlain, by simp⟩

/-! ## The line -/

/-- A line with a finite slope goes between finite sizes, and does not fall if sizes and widths are
in order. -/
theorem rises_of_line {slope intercept : Number}
    (hline : line minSize maxSize minWidth maxWidth = .ok (slope, intercept))
    (hslope : slope.IsReal) (hsizes : minSize.ge maxSize = false)
    (hwidths : minWidth.ge maxWidth = false) :
    minSize.IsReal ∧ maxSize.IsReal ∧ 0 ≤ slope.value := by
  obtain ⟨rise, hrise, h⟩ := bind_eq_ok.1 hline
  obtain ⟨run, hrun, h⟩ := bind_eq_ok.1 h
  obtain ⟨slope', hquotient, h⟩ := bind_eq_ok.1 h
  obtain ⟨product, -, h⟩ := bind_eq_ok.1 h
  obtain ⟨sum, -, h⟩ := bind_eq_ok.1 h
  obtain ⟨rfl, -⟩ := Prod.mk.inj (pure_eq_ok.1 h)
  obtain ⟨hmax, hmin⟩ := isReal_of_sub hrise (isReal_of_div hquotient hslope)
  exact ⟨hmin, hmax, value_div_nonneg hquotient (value_sub_nonneg hrise hsizes)
    (value_sub_nonneg hrun hwidths)⟩

/-- What is rounded of a line that can be printed displays a clamp. -/
theorem displays_of_rounded {slope intercept : Number} {f : Fluid}
    (hline : line minSize maxSize minWidth maxWidth = .ok (slope, intercept))
    (hprintable : isPrintable slope intercept = .ok true)
    (hsizes : minSize.ge maxSize = false) (hwidths : minWidth.ge maxWidth = false)
    (h : rounded minSize maxSize slope intercept = .ok f) :
    ∃ numerals, Displays minSize maxSize minWidth maxWidth f.text numerals := by
  obtain ⟨x, y, rfl, rfl⟩ := double_of_line hline
  obtain ⟨z, hz, hanswer⟩ := isPrintable_double x y
  rw [hprintable] at hanswer
  obtain ⟨hzfinite, hyfinite⟩ := Bool.and_eq_true_iff.1 (Except.ok.inj hanswer).symm
  obtain ⟨hxfinite, -⟩ := isReal_of_mul hz hzfinite
  -- That the line can be printed makes its slope finite, and hence the sizes.
  obtain ⟨hmin, hmax, hslope⟩ := rises_of_line hline hxfinite hsizes hwidths
  have hle : minSize.value ≤ maxSize.value := by
    rw [ge_eq_not_lt hmin hmax, Bool.not_eq_false'] at hsizes
    exact ((hmin.lt_iff hmax).1 hsizes).le
  obtain ⟨least, hleast, h⟩ := bind_eq_ok.1 h
  obtain ⟨share, hshare, h⟩ := bind_eq_ok.1 h
  obtain ⟨offset, hoffset, h⟩ := bind_eq_ok.1 h
  obtain ⟨greatest, hgreatest, h⟩ := bind_eq_ok.1 h
  -- Each of the four numbers is shown on its own.
  obtain ⟨least', hleast, hleastText⟩ := Length.shows_of_rems hmin hleast
  obtain ⟨share', hshare, hshareText⟩ :=
    Length.showsShare_of_viewportShare hz hzfinite hslope hshare
  have hintercept : (Number.double y).IsReal := hyfinite
  obtain ⟨offset', hoffset, hoffsetText⟩ := Length.shows_of_rems hintercept hoffset
  obtain ⟨greatest', hgreatest, hgreatestText⟩ := Length.shows_of_rems hmax hgreatest
  rw [← pure_eq_ok.1 h, text, hleastText, hshareText, hoffsetText, hgreatestText]
  exact ⟨_, .clamp hline hleast hshare hoffset hgreatest
    (Length.value_le_of_shows hmin hmax hle hleast hgreatest)⟩

/-- What is worked out between any numbers displays a size or a clamp. -/
theorem displays_of_between {f : Fluid} (h : between minSize maxSize minWidth maxWidth = .ok f) :
    ∃ numerals, Displays minSize maxSize minWidth maxWidth f.text numerals := by
  unfold between at h
  by_cases hsame : minSize.same maxSize = true
  · simp only [hsame, if_true] at h
    obtain ⟨size, hsize, h⟩ := bind_eq_ok.1 h
    rw [Error.ofArithmetic_eq_ok] at hsize
    -- What is the same as something is a number, though it may still be an infinity.
    have hpoint : minSize.point? ≠ none := by
      intro hnone
      simp [same, hnone] at hsame
    obtain ⟨size', hshows, htext⟩ :=
      Length.shows_of_rems (Length.isReal_of_rems hsize hpoint) hsize
    rw [← pure_eq_ok.1 h, text, htext]
    exact ⟨_, .static hsame hshows⟩
  · simp only [hsame, Bool.false_eq_true, if_false] at h
    obtain ⟨_, hsizes, h⟩ := bind_eq_ok.1 h
    obtain ⟨_, hwidths, h⟩ := bind_eq_ok.1 h
    obtain ⟨⟨slope, intercept⟩, hline, h⟩ := bind_eq_ok.1 h
    obtain ⟨printable, hprintable, h⟩ := bind_eq_ok.1 h
    rw [Error.ofArithmetic_eq_ok] at hline hprintable
    cases printable with
    | false => cases h
    | true =>
      exact displays_of_rounded hline hprintable (ge_of_checkOrder hsizes)
        (ge_of_checkOrder hwidths) (Error.ofArithmetic_eq_ok.1 h)

end Fluid

open Fluid

/-- **Every fluid value is well formed**, whatever the sizes and the widths are: it is a number of
rems, or a clamp of three of them and a share of the viewport width that is not negative, with the
ends in order. The numbers of rems are in the shortest form and the share has all four places. There
are only digits, a point and a minus sign in the numerals, so neither an exponent nor a plus sign,
and no infinity and no not-a-number is written. -/
theorem displays_of_fluidText {minSize maxSize minWidth maxWidth : Number} {t : Text}
    (h : fluidText minSize maxSize minWidth maxWidth = .ok t) :
    ∃ numerals, Displays minSize maxSize minWidth maxWidth t numerals ∧
      ∀ f ∈ numerals, ∀ p ∈ f.text, p.isDigit ∨ p = '-' ∨ p = '.' := by
  obtain ⟨f, hbetween, rfl⟩ := fluidText_eq_ok h
  obtain ⟨numerals, hdisplays⟩ := displays_of_between hbetween
  exact ⟨numerals, hdisplays, fun f hf p hp => (hdisplays.isPlain f hf).mem_text hp⟩

/-- A size of 24.5 pixels. -/
def evenHalf : Number := .double (Double.ofRat false (49 / 2))

/-- A greatest width without a bound, between an integer and a double for sizes. -/
theorem displays_of_fluidText_unbounded :
    fluidText 16 evenHalf 320 (.double (.infinite false)) =
        .ok "clamp(1rem, 0.0000vw + 1rem, 1.5313rem)" ∧
      ∃ numerals, Displays 16 evenHalf 320 (.double (.infinite false))
          "clamp(1rem, 0.0000vw + 1rem, 1.5313rem)" numerals ∧
        ∀ f ∈ numerals, ∀ p ∈ f.text, p.isDigit ∨ p = '-' ∨ p = '.' := by
  have htext : fluidText 16 evenHalf 320 (.double (.infinite false)) =
      .ok "clamp(1rem, 0.0000vw + 1rem, 1.5313rem)" := by decide +kernel
  exact ⟨htext, displays_of_fluidText htext⟩

end FluidCss
