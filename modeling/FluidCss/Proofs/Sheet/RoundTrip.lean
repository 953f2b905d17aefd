import FluidCss.Proofs.Component.Source
import FluidCss.Proofs.Sheet.Writing

/-!
# A style sheet that was written is read again

**Theorem (`parse_css`).** What is read of a style sheet without escapes, odd blanks, faults and
open brackets is written as a text that is read to the same nodes.

The text of such a style sheet is that of clean parts, which are read as the nodes; nodes that clean
parts are read as are writable; and the text of writable nodes reads as the nodes.
-/

namespace FluidCss.Sheet

open FluidCss.Part

theorem placed_zero (ps : List Part) : Placed (textAll ps) 0 ps (textAll ps).length :=
  ⟨[], [], by simp, rfl, by simp⟩

/-- The text of parts is read as the nodes that the parts are read as. -/
theorem parse_textAll {ps : List Part} {nodes : List Node} (hsound : Sound ps)
    (hspelled : Piece.Spelled (piecesAll ps) []) (hreads : Reads [] ps nodes) :
    parse (textAll ps) = .ok nodes := by
  rw [parse, normalize_eq_self hsound.normal]
  exact bind_eq_ok.2 ⟨locatedAll 0 ps, ofText_textAll hsound.short hspelled,
    (nodesOf_eq_ok_iff (placed_zero ps)).2 hreads⟩

/-- What a text reads as wherever it stands is read of it by itself. -/
theorem parse_of_readsAs {t : Text} {nodes : List Node} (h : ReadsAs t nodes) :
    parse t = .ok nodes := by
  obtain ⟨ps, rfl, hsound, hspelled, hreads⟩ := h
  have hnodes : Reads [] ps nodes := by simpa using hreads [] [] .nil
  exact parse_textAll hsound (hspelled []) hnodes

/-- **Reading inverts writing on what was read**, if the source has no escapes and no blanks that
the grammar does not know, and if no fault, open comment or open bracket stands in it at any depth.
-/
theorem parse_css {source : Text} {nodes : List Node}
    (hescape : ('\\' : CodePoint) ∉ normalize source)
    (hblank : ∀ c ∈ normalize source, Text.isBlank c → Name.isSpace c)
    (hwhole : ∀ components, Component.ofText (normalize source) = .ok components →
      Component.areWhole components)
    (hparse : parse source = .ok nodes) : parse (css nodes) = .ok nodes := by
  obtain ⟨components, hok, hnodes⟩ := bind_eq_ok.1 hparse
  obtain ⟨ps, htext, rfl, hcut⟩ := exists_cut hescape hblank normalizePoint_of_mem_normalize
    (hwhole components hok) hok
  rw [← htext] at hnodes
  have hreads := (nodesOf_eq_ok_iff (placed_zero ps)).1 hnodes
  exact parse_of_readsAs (readsAs_css (writable_of_reads hreads hcut begun_nil))

/-- A style sheet with an empty selector, an empty value, a comment and statements that only a
bracket ends. -/
def denseSource : Text := "@a;b\x7bc:d\r\n\x7d/*e*/\x7bf:;g:'h'\x7d@media(i)\x7bk:url(l)!m\x7d"

/-- The same style sheet as it is written. -/
def denseCss : Text :=
  "@a;\nb \x7b\n    c: d;\n\x7d\n/*e*/\n \x7b\n    f: ;\n    g: 'h';\n\x7d\n" ++
    "@media (i) \x7b\n    k: url(l)!m;\n\x7d"

theorem parse_css_denseSource : ∃ nodes, parse denseSource = .ok nodes ∧ css nodes = denseCss ∧
    parse denseCss = .ok nodes := by
  have hcss : (parse denseSource).toOption.map css = some denseCss := by decide +kernel
  have hwhole : (Component.ofText (normalize denseSource)).toOption.all Component.areWhole := by
    decide +kernel
  -- What the sheet is written as shows that it is read at all.
  cases hparse : parse denseSource with
  | error e =>
    rw [hparse] at hcss
    cases hcss
  | ok nodes =>
    rw [hparse] at hcss
    have hcss : css nodes = denseCss := Option.some.inj hcss
    refine ⟨nodes, rfl, hcss, ?_⟩
    rw [← hcss]
    refine parse_css (by decide +kernel) (by decide +kernel)
      (fun components hok => ?_) hparse
    rw [hok] at hwhole
    exact hwhole

end FluidCss.Sheet
