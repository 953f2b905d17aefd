import FluidCss.Proofs.Component.Clean

/-!
# Clean texts are read to parts

* `Part.exists_spelled`: a text that is read to whole components is the text of parts.
* `Part.exists_cut`: these are clean if the text has no escapes and odd blanks.
* `Part.ofText_textAll`: the text of parts that are spelled is read to the parts at their places.
-/

namespace FluidCss

/-! ## Line ends -/

theorem normalizePoint_idem (c : CodePoint) :
    normalizePoint (normalizePoint c) = normalizePoint c := by
  unfold normalizePoint
  split
  · rfl
  split
  · rfl
  · rfl

/-- Every line end of a normalized text is a line feed. -/
theorem normalizePoint_of_mem_normalize {source : Text} :
    ∀ c ∈ normalize source, normalizePoint c = c := by
  fun_induction normalize source with
  | case1 cs ih =>
    intro c hc
    rcases List.mem_cons.1 hc with rfl | hc
    · rfl
    · exact ih c hc
  | case2 d cs _ ih =>
    intro c hc
    rcases List.mem_cons.1 hc with rfl | hc
    · exact normalizePoint_idem d
    · exact ih c hc
  | case3 => exact fun c hc => absurd hc List.not_mem_nil

/-- A text without other line ends than line feeds is kept as it is, whatever follows it. -/
theorem normalize_append {t : Text} (h : ∀ c ∈ t, normalizePoint c = c) (after : Text) :
    normalize (t ++ after) = t ++ normalize after := by
  induction t with
  | nil => rfl
  | cons c t ih =>
    have hc := h c List.mem_cons_self
    have hreturn : c ≠ '\r' := by
      rintro rfl
      exact absurd hc (by decide)
    rw [List.cons_append, normalize, hc, ih fun d hd => h d (List.mem_cons_of_mem c hd),
      List.cons_append]
    rintro cs rfl -
    exact hreturn rfl

theorem normalize_eq_self {t : Text} (h : ∀ c ∈ t, normalizePoint c = c) : normalize t = t := by
  have happend := normalize_append h []
  rwa [List.append_nil, normalize, List.append_nil] at happend

/-! ## Pieces of a text -/

namespace Piece

/-- Whole tokens of a text without escapes have the shape that they tell. -/
theorem Spelled.shaped {ps : List Piece} {after : Text} (h : Spelled ps after)
    (hs : ('\\' : CodePoint) ∉ textOf ps ++ after) :
    ∀ p ∈ ps, p.token.Whole → p.token.Shape p.text := by
  induction ps with
  | nil => exact fun p hp => absurd hp List.not_mem_nil
  | cons p ps ih =>
    obtain ⟨⟨c, cs, htext, htoken⟩, hps⟩ := h
    rw [textOf_cons, List.append_assoc] at hs
    intro q hq hwhole
    rcases List.mem_cons.1 hq with rfl | hq
    · rw [htext, List.cons_append] at hs
      have hshape := Scan.token_shape hs hwhole htoken
      rwa [← List.cons_append, ← htext, List.take_left] at hshape
    · exact ih hps (fun hmem => hs (List.mem_append_right _ hmem)) q hq hwhole

theorem findSome?_overlong_eq_none {ps : List Piece} {start : Nat} :
    (located start ps).findSome? Component.overlong? = none ↔
      ∀ p ∈ ps, Component.overlong? ⟨0, p.token⟩ = none := by
  induction ps generalizing start with
  | nil => simp [located]
  | cons p ps ih =>
    have hstart : Component.overlong? ⟨start, p.token⟩ = Component.overlong? ⟨0, p.token⟩ := rfl
    simp only [located, List.findSome?_cons, hstart, List.forall_mem_cons]
    cases Component.overlong? ⟨0, p.token⟩ <;> simp [ih]

end Piece

/-- The tokens of a text are not read only if there is too long an integer among them. -/
theorem Component.exists_of_ofText_error {t : Text} {e : Error} (h : ofText t = .error e) :
    ∃ digits, e = .integerTooLong digits ∧ Numeral.integerDigitLimit < digits := by
  simp only [ofText] at h
  split at h
  · rename_i digits hfound
    cases h
    refine ⟨digits, rfl, ?_⟩
    obtain ⟨lexeme, -, hlexeme⟩ := List.exists_of_findSome?_eq_some hfound
    unfold overlong? at hlexeme
    split at hlexeme
    · simpa using (Option.filter_eq_some_iff.1 hlexeme).2
    · cases hlexeme
  · cases h

/-! ## Parts of a text -/

namespace Part

mutual

theorem whole_of_isWhole : ∀ (p : Part) (start : Nat), (p.located start).isWhole →
    ∀ q ∈ p.pieces, q.token.Whole
  | leaf t l, start, h => by
    intro q hq
    obtain rfl := List.mem_singleton.1 hq
    cases l with
    | comment text closed => exact h
    | _ => trivial
  | function t name content, start, h => by
    intro q hq
    rcases List.mem_cons.1 hq with rfl | hq
    · trivial
    rcases List.mem_append.1 hq with hq | hq
    · exact whole_of_areWhole content _ (Component.isWhole_function.1 h).2 q hq
    · obtain rfl := List.mem_singleton.1 hq
      trivial
  | block b content, start, h => by
    intro q hq
    rcases List.mem_cons.1 hq with rfl | hq
    · trivial
    rcases List.mem_append.1 hq with hq | hq
    · exact whole_of_areWhole content _ (Component.isWhole_block.1 h).2 q hq
    · obtain rfl := List.mem_singleton.1 hq
      trivial

theorem whole_of_areWhole : ∀ (ps : List Part) (start : Nat),
    Component.areWhole (locatedAll start ps) → ∀ q ∈ piecesAll ps, q.token.Whole
  | [], _, _ => fun q hq => absurd hq List.not_mem_nil
  | p :: ps, start, h => by
    rw [locatedAll, Component.areWhole_cons, Bool.and_eq_true] at h
    intro q hq
    rcases List.mem_append.1 hq with hq | hq
    · exact whole_of_isWhole p start h.1 q hq
    · exact whole_of_areWhole ps _ h.2 q hq

end

/-- **A text that is read to whole components is the text of parts** with whole tokens. -/
theorem exists_spelled {t : Text} {components : List Component}
    (hwhole : Component.areWhole components) (hok : Component.ofText t = .ok components) :
    ∃ ps, textAll ps = t ∧ components = locatedAll 0 ps ∧ Piece.Spelled (piecesAll ps) [] ∧
      (∀ p ∈ piecesAll ps, p.token.Whole) ∧ Short ps := by
  obtain ⟨pieces, htext, hspelled⟩ := Piece.exists_spelled t
  have hscan := hspelled.scan 0
  rw [List.append_nil, htext, Lexeme.scan, List.append_nil] at hscan
  simp only [Component.ofText, hscan] at hok
  split at hok
  · cases hok
  rename_i hshort
  rw [Piece.findSome?_overlong_eq_none] at hshort
  cases hok
  obtain ⟨ps, rfl, hlocated⟩ := exists_parts (bracketed_of_spelled hspelled) hwhole
  rw [hlocated] at hwhole
  exact ⟨ps, htext, hlocated, hspelled, whole_of_areWhole ps 0 hwhole, hshort⟩

/-- **A text without escapes and odd blanks that is read to whole components is the text of clean
parts.** -/
theorem exists_cut {t : Text} {components : List Component} (hescape : ('\\' : CodePoint) ∉ t)
    (hblank : ∀ c ∈ t, Text.isBlank c → Name.isSpace c) (hnormal : ∀ c ∈ t, normalizePoint c = c)
    (hwhole : Component.areWhole components) (hok : Component.ofText t = .ok components) :
    ∃ ps, textAll ps = t ∧ components = locatedAll 0 ps ∧ Cut ps := by
  obtain ⟨ps, rfl, hlocated, hspelled, htokens, hshort⟩ := exists_spelled hwhole hok
  have hshaped := hspelled.shaped (by rwa [List.append_nil])
  have hmem : ∀ p ∈ piecesAll ps, ∀ c ∈ p.text, c ∈ textAll ps := fun p hp c hc =>
    mem_textAll.2 ⟨p, hp, hc⟩
  refine ⟨ps, rfl, hlocated, fun p hp => ?_, [], stops_nil, hspelled⟩
  exact ⟨htokens p hp, hshaped p hp (htokens p hp), fun h => hescape (hmem p hp _ h),
    fun c hc => hblank c (hmem p hp c hc), fun c hc => hnormal c (hmem p hp c hc), hshort p hp⟩

/-- **The text of parts is read to the parts at their places**, if each piece is what is read there
and no integer is too long. -/
theorem ofText_textAll {ps : List Part} (hshort : Short ps)
    (hspelled : Piece.Spelled (piecesAll ps) []) :
    Component.ofText (textAll ps) = .ok (locatedAll 0 ps) := by
  have hscan := hspelled.scan 0
  rw [List.append_nil, Lexeme.scan, List.append_nil] at hscan
  have hlexemes : (Piece.located 0 (piecesAll ps)).findSome? Component.overlong? = none :=
    Piece.findSome?_overlong_eq_none.2 hshort
  have hnest := nest_piecesAll ps [] 0 []
  rw [List.append_nil] at hnest
  have hcontent : Component.ofLexemes (Piece.located 0 (piecesAll ps)) = locatedAll 0 ps := by
    rw [Component.ofLexemes, hnest]
    simp [pushAll, Piece.located, Component.nest, Component.Level.last]
  simp only [Component.ofText, textAll, hscan, hlexemes, hcontent]

end Part

end FluidCss
