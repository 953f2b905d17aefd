import FluidCss.Proofs.Clamp.Division
import FluidCss.Proofs.Number.Nearest
import FluidCss.Proofs.Number.Places

/-!
# Sizes in rems

A size in pixels is divided by sixteen, which gives a double, and the exact value of the double is
rounded to four places and written in the shortest form. So all of the double that four places can
show is printed, and no digit before the point is lost.

* `Length.shows_of_rems`: what the number of rems that is written shows.
* `Length.exists_shown`: of every finite double, and every integer that is not too large, a number
  of rems is written.
* `Length.value_le_of_shows`: a larger size does not show less.
-/

namespace FluidCss

open Number

namespace Length

/-! ## Quotients -/

theorem isFinite_of_div {a : Number} {d : Double} (ha : a.IsReal)
    (h : a.div pixelsPerRem = .ok (.double d)) : d.isFinite = true := by
  rcases div_pixelsPerRem ha with ⟨herror, -⟩ | ⟨d', hd', hfinite⟩
  · rw [herror] at h
    cases h
  · obtain rfl := Number.double.inj (Except.ok.inj (hd'.symm.trans h))
    exact hfinite

/-- The sixteenth of a number is its exact sixteenth, rounded to a double. -/
theorem div_eq_ofRat : ∀ {a : Number} {d : Double}, a.IsReal →
    a.div pixelsPerRem = .ok (.double d) → ∃ s, d = Double.ofRat s (a.value / 16)
  | .int n, d, _, h => by
    rw [show (Number.int n).div pixelsPerRem = _ from
      int_div_of_ne_zero n (by norm_num : (16 : Int) ≠ 0)] at h
    split at h
    · exact ⟨_, (Number.double.inj (Except.ok.inj h)).symm⟩
    · cases h
  | .double x, d, hx, h => by
    obtain ⟨q, hq⟩ := Double.exists_value? hx
    have hsixteen : pixelsPerRem.toDouble = .ok (Double.ofInt 16) := by decide +kernel
    have hvalue : (Double.ofInt 16).value? = some ((16 : Int) : Rat) :=
      Double.value?_ofInt (by norm_num)
    -- A double is divided as a double, and sixteen is one exactly.
    rcases div_cases h with ⟨m, n, s, hint, -, -⟩ | ⟨y, z, hy, hz, hd⟩
    · cases hint
    · obtain rfl := Except.ok.inj hy
      obtain rfl := Except.ok.inj (hsixteen.symm.trans hz)
      refine ⟨x.isNegative != (Double.ofInt 16).isNegative, ?_⟩
      rw [Number.double.inj hd]
      simp only [Double.div, hq, hvalue, value, point?]
      rfl

/-! ## What is shown -/

/-- A numeral shows a size in pixels as a number of rems: it is the shortest one for the exact value
of the double next to a sixteenth of the size, rounded to four places. -/
structure Shows (pixels : Number) (f : Figures) : Prop where
  canonical : f.IsCanonical
  rounded : ∃ d q, pixels.div pixelsPerRem = .ok (.double d) ∧ d.value? = some q ∧
    Double.IsNearest q (pixels.value / 16) ∧ Fixed.IsRounded q f.value

/-- **The number of rems that is written shows the size.** -/
theorem shows_of_rems {pixels : Number} {size : Fixed} (hreal : pixels.IsReal)
    (h : rems pixels = .ok size) :
    ∃ f, Shows pixels f ∧ remText size = f.text ++ "rem" := by
  obtain ⟨quotient, hquotient, h⟩ := bind_eq_ok.1 h
  obtain ⟨d, rfl⟩ := div_eq_ok hquotient
  obtain ⟨q, hq⟩ := Double.exists_value? (isFinite_of_div hreal hquotient)
  obtain ⟨s, rfl⟩ := div_eq_ofRat hreal hquotient
  obtain ⟨n, hn, hrounded⟩ := Fixed.ofRat_rounded q
  obtain ⟨f, hcanonical, htext, hvalue⟩ := Fixed.exists_shortText n
  have hsize : size = .ticks n := by
    simp only [roundFixed, hq] at h
    exact (Except.ok.inj h).symm.trans hn
  refine ⟨f, ⟨hcanonical, _, q, hquotient, hq, Double.ofRat_nearest hq, ?_⟩, ?_⟩
  · rw [hvalue]
    exact hrounded
  · rw [remText, hsize, htext]

/-- **A larger size does not show less.** -/
theorem value_le_of_shows {a b : Number} {f g : Figures} (ha : a.IsReal) (hb : b.IsReal)
    (hle : a.value ≤ b.value) (hf : Shows a f) (hg : Shows b g) : f.value ≤ g.value := by
  obtain ⟨d, p, hd, hp, -, hr⟩ := hf.rounded
  obtain ⟨e, q, he, hq, -, ht⟩ := hg.rounded
  obtain ⟨s, rfl⟩ := div_eq_ofRat ha hd
  obtain ⟨t, rfl⟩ := div_eq_ofRat hb he
  exact hr.mono (Double.ofRat_mono (div_le_div_of_nonneg_right hle (by norm_num)) hp hq) ht

/-- **A number of rems is written of every finite double and of every integer below ten to the
300**: in its shortest form, it is the exact value of the double next to a sixteenth of the number,
rounded to four places with a half going away from zero. -/
theorem exists_shown {pixels : Number} (h : pixels.IsModerate) :
    ∃ f, Shows pixels f ∧ (rems pixels).map remText = .ok (f.text ++ "rem") := by
  obtain ⟨size, hsize⟩ := Fluid.exists_rems h
  obtain ⟨f, hshows, htext⟩ := shows_of_rems h.isReal hsize
  refine ⟨f, hshows, ?_⟩
  rw [hsize, ← htext]
  rfl

/-- Half a pixel to the left, which lies in the middle between two numbers with four places. -/
def halfLeft : Number := .double (Double.ofRat false (-1 / 2))

theorem exists_shown_halfLeft : halfLeft.IsModerate ∧
    ∃ f, Shows halfLeft f ∧ f.text ++ "rem" = "-0.0313rem" ∧
      (rems halfLeft).map remText = .ok (f.text ++ "rem") := by
  have hmoderate : halfLeft.IsModerate := by
    show (Double.ofRat false (-1 / 2)).isFinite = true
    decide +kernel
  have htext : (rems halfLeft).map remText = .ok "-0.0313rem" := by decide +kernel
  obtain ⟨f, hshows, hrems⟩ := exists_shown hmoderate
  exact ⟨hmoderate, f, hshows, Except.ok.inj (hrems.symm.trans htext), hrems⟩

end Length

end FluidCss
