import FluidCss.Clamp
import FluidCss.Proofs.Number.Decimal
import FluidCss.Proofs.Result

/-!
# What fluid values look like

The text of a fluid value is a length or a clamp of lengths. It is made of few characters, and it
begins and ends like no other text that the library looks for.

* `Fluid.mem_text`: the characters of a fluid value.
-/

namespace FluidCss

/-- The text of the fluid value between some sizes over some widths. -/
def IsFluidText (t : Text) : Prop :=
  ∃ minSize maxSize minWidth maxWidth, fluidText minSize maxSize minWidth maxWidth = .ok t

theorem fluidText_eq_ok {minSize maxSize minWidth maxWidth : Number} {t : Text}
    (h : fluidText minSize maxSize minWidth maxWidth = .ok t) :
    ∃ f, Fluid.between minSize maxSize minWidth maxWidth = .ok f ∧ f.text = t := by
  unfold fluidText at h
  cases hbetween : Fluid.between minSize maxSize minWidth maxWidth with
  | error e =>
    rw [hbetween] at h
    cases h
  | ok f =>
    rw [hbetween] at h
    exact ⟨f, rfl, Except.ok.inj h⟩

/-! ## Characters -/

/-- The characters of numbers with four places. -/
def fixedChars : Text := "-.Na"

theorem IsDecimal.mem_fixed {sign whole fraction : Text} (h : IsDecimal sign whole fraction)
    {p : CodePoint} (hp : p ∈ sign ++ whole ++ fraction) : p.isDigit ∨ p ∈ fixedChars := by
  rcases h.mem hp with hp | rfl | rfl
  · exact .inl hp
  · exact .inr (by decide)
  · exact .inr (by decide)

theorem IsDecimal.exists_cons {sign whole fraction : Text} (h : IsDecimal sign whole fraction) :
    ∃ p t, sign ++ whole ++ fraction = p :: t ∧ (p.isDigit ∨ p = '-') := by
  rcases h.sign with rfl | rfl
  · obtain ⟨p, t, rfl, hp⟩ := h.whole.exists_cons
    exact ⟨p, t ++ fraction, rfl, .inl hp⟩
  · exact ⟨'-', whole ++ fraction, by simp; rfl, .inr rfl⟩

namespace Fixed

theorem mem_text (f : Fixed) {p : CodePoint} (hp : p ∈ f.text) :
    p.isDigit ∨ p ∈ fixedChars := by
  cases f with
  | ticks n =>
    obtain ⟨sign, whole, places, hdecimal, htext⟩ := isDecimal_text n
    rw [htext] at hp
    exact hdecimal.mem_fixed hp
  | nan => exact .inr ((by decide : ∀ p ∈ ("NaN" : Text), p ∈ fixedChars) p hp)

theorem mem_shortText (f : Fixed) {p : CodePoint} (hp : p ∈ f.shortText) :
    p.isDigit ∨ p ∈ fixedChars := by
  cases f with
  | ticks n =>
    obtain ⟨sign, fraction, hdecimal, htext⟩ := isDecimal_shortText n
    rw [htext] at hp
    exact hdecimal.mem_fixed hp
  | nan => exact .inr ((by decide : ∀ p ∈ ("NaN" : Text), p ∈ fixedChars) p hp)

theorem exists_shortText_cons (f : Fixed) :
    ∃ p t, f.shortText = p :: t ∧ (p.isDigit ∨ p = '-' ∨ p = 'N') := by
  cases f with
  | ticks n =>
    obtain ⟨sign, fraction, hdecimal, htext⟩ := isDecimal_shortText n
    obtain ⟨p, t, hcons, hp⟩ := hdecimal.exists_cons
    exact ⟨p, t, htext.trans hcons, hp.imp_right .inl⟩
  | nan => exact ⟨'N', "aN", rfl, .inr (.inr rfl)⟩

end Fixed

namespace Fluid

/-- The characters of fluid values, digits apart. -/
def textChars : Text := fixedChars ++ "remvwclp(+, )"

/-- **The characters of a fluid value.** -/
theorem mem_text (f : Fluid) {p : CodePoint} (hp : p ∈ f.text) : p.isDigit ∨ p ∈ textChars := by
  have hfixed : (p.isDigit ∨ p ∈ fixedChars) → (p.isDigit ∨ p ∈ textChars) :=
    Or.imp_right (List.mem_append_left _)
  have hmarks : ∀ {t : Text}, (∀ q ∈ t, q ∈ textChars) → p ∈ t → p.isDigit ∨ p ∈ textChars :=
    fun ht hp => .inr (ht p hp)
  have hrem : ∀ size, p ∈ Length.remText size → p.isDigit ∨ p ∈ textChars := by
    intro size hp
    rcases List.mem_append.1 hp with hp | hp
    · exact hfixed (size.mem_shortText hp)
    · exact hmarks (by decide) hp
  have hvw : ∀ share, p ∈ Length.vwText share → p.isDigit ∨ p ∈ textChars := by
    intro share hp
    rcases List.mem_append.1 hp with hp | hp
    · exact hfixed (share.mem_text hp)
    · exact hmarks (by decide) hp
  cases f with
  | static size => exact hrem size hp
  | clamp least slope intercept greatest =>
    simp only [text, List.mem_append] at hp
    -- In turn the fixed texts and the four numbers between them.
    rcases hp with (((((((hp | hp) | hp) | hp) | hp) | hp) | hp) | hp) | hp
    · exact hmarks (by decide) hp
    · exact hrem least hp
    · exact hmarks (by decide) hp
    · exact hvw slope hp
    · exact hmarks (by decide) hp
    · exact hrem intercept hp
    · exact hmarks (by decide) hp
    · exact hrem greatest hp
    · exact hmarks (by decide) hp

theorem exists_text_cons (f : Fluid) :
    ∃ p t, f.text = p :: t ∧ (p.isDigit ∨ p = '-' ∨ p = 'N' ∨ p = 'c') := by
  cases f with
  | static size =>
    obtain ⟨p, t, hcons, hp⟩ := size.exists_shortText_cons
    refine ⟨p, t ++ "rem", ?_, hp.imp_right (Or.imp_right .inl)⟩
    rw [text, Length.remText, hcons]
    rfl
  | clamp least slope intercept greatest => exact ⟨'c', _, rfl, .inr (.inr (.inr rfl))⟩

theorem getLast?_text (f : Fluid) :
    f.text.getLast? = some (.char 'm') ∨ f.text.getLast? = some (.char ')') := by
  cases f with
  | static size =>
    rw [text, Length.remText, List.getLast?_append]
    exact .inl rfl
  | clamp least slope intercept greatest =>
    rw [text, List.getLast?_append]
    exact .inr rfl

end Fluid

end FluidCss
