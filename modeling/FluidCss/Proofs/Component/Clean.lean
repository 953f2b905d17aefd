import FluidCss.Proofs.Component.Part
import FluidCss.Proofs.Text.Trim

/-!
# Parts that can be written elsewhere

A piece is clean if its token is whole, if its text has no escapes, no blanks but the spaces of
style sheet text and no line ends but line feeds, and if its number is short enough. Clean pieces
can be copied into another text as long as they stand before a stop there.

* `Part.Cut.textAll_core`: the text of clean parts without blanks at its ends is that of the parts
  without spaces at their ends.
* `Part.Cut.spelled_core`: these parts can stand before every stop.
-/

namespace FluidCss

/-- No line end but the line feed, and not the character zero. -/
def IsNormal (t : Text) : Prop := ∀ c ∈ t, normalizePoint c = c

instance (t : Text) : Decidable (IsNormal t) := inferInstanceAs (Decidable (∀ c ∈ t, _))

theorem normal_append {s t : Text} : IsNormal (s ++ t) ↔ IsNormal s ∧ IsNormal t := by
  simp [IsNormal, or_imp, forall_and]

/-- A piece that can be copied into another text. -/
structure Piece.Clean (p : Piece) : Prop where
  whole : p.token.Whole
  shape : p.token.Shape p.text
  noEscape : ('\\' : CodePoint) ∉ p.text
  blank : ∀ c ∈ p.text, Text.isBlank c → Name.isSpace c
  normal : ∀ c ∈ p.text, normalizePoint c = c
  short : Component.overlong? ⟨0, p.token⟩ = none

theorem Text.isBlank_of_isSpace {c : CodePoint} (h : Name.isSpace c) : Text.isBlank c := by
  simp only [Name.isSpace, Bool.or_eq_true, beq_iff_eq] at h
  rcases h with (rfl | rfl) | rfl <;> decide

theorem Text.isSpace_eq_false_of_isBlank {c : CodePoint} (h : Text.isBlank c = false) :
    Name.isSpace c = false := by
  cases hspace : Name.isSpace c with
  | false => rfl
  | true =>
    rw [Text.isBlank_of_isSpace hspace] at h
    cases h

/-! ## Marks, spaces, at-keywords and comments -/

namespace Scan

/-- What begins neither a name nor a number nor a range is a mark or begins with one. -/
theorem token_eq_punctuation {c : CodePoint} (t : Text) (hspace : Name.isSpace c = false)
    (hstart : Name.isStart c = false) (hdigit : c.isDigit = false)
    (hc : c ≠ '-' ∧ c ≠ '+' ∧ c ≠ '.' ∧ c ≠ '\\') : token c t = punctuation c t := by
  obtain ⟨hminus, hplus, hpoint, hescape⟩ := hc
  -- A range begins with a letter, which begins a name as well.
  have hrange : startsRange (c :: t) = false := by
    cases hr : startsRange (c :: t) with
    | false => rfl
    | true =>
      unfold startsRange at hr
      split at hr
      · rename_i c' d tail heq
        obtain ⟨rfl, rfl⟩ := List.cons.inj heq
        simp only [Bool.and_eq_true, Bool.or_eq_true, beq_iff_eq] at hr
        rcases hr.1 with rfl | rfl <;> exact absurd hstart (by decide)
      · cases hr
  have harrow : (c :: t).take 3 ≠ ("-->" : Text) := fun h => hminus (List.cons.inj h).1
  have hident : Name.startsIdent (c :: t) = false := by
    simp [Name.startsIdent, hstart, hminus, Name.startsEscape_cons hescape]
  have hnumber : numberLength (c :: t) = 0 := by
    simp [numberLength, magnitudeLength, signLength, digitsLength, hminus, hplus, hpoint, hdigit]
  unfold token
  simp only [hspace, hrange, hident, hnumber, harrow, Bool.false_eq_true, if_false]

end Scan

namespace Piece

open Scan

def semicolon : Piece := ⟨";", .leaf (.literal ";")⟩

def colon : Piece := ⟨":", .leaf (.literal ":")⟩

theorem readsIn_semicolon (after : Text) : semicolon.ReadsIn after := by
  refine ⟨';', [], rfl, ?_⟩
  rw [List.nil_append, token_eq_punctuation _ (by decide) (by decide) (by decide) (by decide),
    punctuation_mark _ (by decide), if_neg fun h => absurd h.2 (by decide)]
  rfl

theorem readsIn_colon (after : Text) : colon.ReadsIn after := by
  refine ⟨':', [], rfl, ?_⟩
  rw [List.nil_append, token_eq_punctuation _ (by decide) (by decide) (by decide) (by decide),
    punctuation_mark _ (by decide), if_neg fun h => absurd h.2 (by decide)]
  rfl

theorem readsIn_opening (b : Bracket) (after : Text) : (Part.opening b).ReadsIn after := by
  refine ⟨b.openChar, [], rfl, ?_⟩
  cases b <;>
    rw [List.nil_append, token_eq_punctuation _ (by decide) (by decide) (by decide) (by decide)] <;>
    rfl

theorem readsIn_closing (b : Bracket) (after : Text) : (Part.closing b).ReadsIn after := by
  refine ⟨b.closeChar, [], rfl, ?_⟩
  cases b <;>
    rw [List.nil_append, token_eq_punctuation _ (by decide) (by decide) (by decide) (by decide)] <;>
    rfl

theorem readsIn_space {t after : Text} (hne : t ≠ []) (ht : ∀ c ∈ t, Name.isSpace c)
    (hafter : ∀ c ∈ after.head?, Name.isSpace c = false) :
    ReadsIn ⟨t, .leaf .space⟩ after := by
  obtain ⟨c, cs, rfl⟩ := List.exists_cons_of_ne_nil hne
  refine ⟨c, cs, rfl, ?_⟩
  have hspaces : (c :: (cs ++ after)).takeWhile Name.isSpace = c :: cs := by
    rw [← List.cons_append, takeWhile_append_of_head hafter, List.takeWhile_eq_self_iff]
    exact ht
  unfold Scan.token
  simp only [ht c List.mem_cons_self, if_true, hspaces]

theorem readsIn_atKeyword {name after : Text} (hident : Name.startsIdent name)
    (hpart : ∀ p ∈ name, Name.isPart p) (hafter : Stops after) :
    ReadsIn ⟨"@" ++ name, .leaf (.atKeyword name)⟩ after := by
  refine ⟨'@', name, rfl, ?_⟩
  have hescape : ('\\' : CodePoint) ∉ name := fun h => absurd (hpart _ h) (by decide)
  have hs : isSealed name := isSealed_of_notMem hescape
  have hname : name.takeWhile Name.isPart = name := List.takeWhile_eq_self_iff.2 hpart
  rw [token_eq_punctuation _ (by decide) (by decide) (by decide) (by decide)]
  simp only [punctuation, Name.startsIdent_append hs hafter,
    Name.read_append hs hafter (Nat.zero_le _), Name.read_eq hescape, hident, if_true, hname]
  rfl

theorem readsIn_comment {t text after : Text} (h : ReadsIn ⟨t, .leaf (.comment text true)⟩ after)
    (hclean : Clean ⟨t, .leaf (.comment text true)⟩) (after' : Text) :
    ReadsIn ⟨t, .leaf (.comment text true)⟩ after' := by
  obtain ⟨c, cs, ht, htoken⟩ := h
  simp only at ht htoken
  have hshape : t = "/*" ++ text ++ "*/" := hclean.shape.2
  have hcons : c :: cs = .char '/' :: .char '*' :: (text ++ ("*/" : Text)) := ht.symm.trans hshape
  obtain ⟨rfl, rfl⟩ := List.cons.inj hcons
  have hslash := fun v => token_eq_punctuation (c := '/') v (by decide) (by decide) (by decide)
    (by decide)
  have hwhole : Token.Whole (.leaf (.comment text true)) := rfl
  refine ⟨'/', _, ht, ?_⟩
  rw [hslash, List.cons_append, punctuation_comment_iff hwhole] at htoken ⊢
  obtain ⟨text', k, hcomment, htext, hk⟩ := htoken
  -- The comment is closed within its own text, so what stands behind it plays no part.
  have hlength : k ≤ (text ++ ("*/" : Text)).length := by
    have := congrArg List.length ht
    simp only [List.length_cons] at this
    omega
  rw [comment_append after hlength] at hcomment
  exact ⟨text', k, (comment_append after' hlength).2 hcomment, htext, hk⟩

theorem ReadsIn.head {p : Piece} {after : Text} (h : p.ReadsIn after)
    (hne : p.token ≠ .leaf .space) : ∃ c t, p.text = c :: t ∧ Name.isSpace c = false := by
  obtain ⟨c, t, htext, htoken⟩ := h
  refine ⟨c, t, htext, ?_⟩
  cases hc : Name.isSpace c with
  | false => rfl
  | true =>
    unfold Scan.token at htoken
    simp only [hc, if_true] at htoken
    exact absurd (Prod.mk.inj htoken).1.symm hne

theorem clean_semicolon : semicolon.Clean :=
  ⟨trivial, ⟨endsWell_singleton (by decide), rfl⟩, by decide, by decide, by decide, rfl⟩

theorem clean_colon : colon.Clean :=
  ⟨trivial, ⟨endsWell_singleton (by decide), rfl⟩, by decide, by decide, by decide, rfl⟩

theorem clean_closing (b : Bracket) : (Part.closing b).Clean := by
  cases b <;> exact ⟨trivial, rfl, by decide, by decide, by decide, rfl⟩

theorem clean_space {t : Text} (ht : ∀ c ∈ t, Name.isSpace c) : Clean ⟨t, .leaf .space⟩ where
  whole := trivial
  shape := ht
  noEscape := fun h => absurd (ht _ h) (by decide)
  blank := fun c hc _ => ht c hc
  normal := by
    intro c hc
    have := ht c hc
    simp only [Name.isSpace, Bool.or_eq_true, beq_iff_eq] at this
    rcases this with (rfl | rfl) | rfl <;> decide
  short := rfl

end Piece

/-! ## Parts without spaces at their ends -/

namespace Part

def isSpace : Part → Bool
  | leaf _ .space => true
  | _ => false

/-- All pieces of parts are clean. -/
def Clean (ps : List Part) : Prop := ∀ p ∈ piecesAll ps, p.Clean

/-- Parts without the spaces at their ends. -/
def core (ps : List Part) : List Part := stripped isSpace ps

theorem Clean.sublist {ps qs : List Part} (h : Clean qs) (hps : List.Sublist ps qs) : Clean ps := by
  induction hps with
  | slnil => exact h
  | cons q _ ih => exact ih fun p hp => h p (List.mem_append_right q.pieces hp)
  | cons_cons q _ ih =>
    intro p hp
    rcases List.mem_append.1 hp with hp | hp
    · exact h p (List.mem_append_left _ hp)
    · exact ih (fun p hp => h p (List.mem_append_right q.pieces hp)) p hp

theorem clean_leaf {t : Text} {l : Leaf} (h : Piece.Clean ⟨t, .leaf l⟩) : Clean [leaf t l] := by
  intro p hp
  obtain rfl := List.mem_singleton.1 hp
  exact h

def gap : Part := leaf " " .space

theorem clean_gap : Clean [gap] := clean_leaf (Piece.clean_space (by decide))

theorem clean_append {ps qs : List Part} : Clean (ps ++ qs) ↔ Clean ps ∧ Clean qs := by
  simp [Clean, or_imp, forall_and]

theorem Clean.cons {p : Part} {ps : List Part} (hp : Clean [p]) (hps : Clean ps) :
    Clean (p :: ps) := clean_append.2 ⟨hp, hps⟩

theorem clean_function {t name : Text} {content : List Part}
    (hopening : Piece.Clean ⟨t, .function name⟩) (hcontent : Clean content) :
    Clean [function t name content] := by
  intro p hp
  simp only [piecesAll_cons, piecesAll_nil, List.append_nil, pieces, List.mem_cons,
    List.mem_append, List.not_mem_nil, or_false] at hp
  rcases hp with rfl | hp | rfl
  · exact hopening
  · exact hcontent p hp
  · exact Piece.clean_closing .round

theorem spelled_function {t name after : Text} {content : List Part}
    (hopening : ∀ v, Piece.ReadsIn ⟨t, .function name⟩ v)
    (hcontent : Piece.Spelled (piecesAll content) (")" ++ after)) :
    Piece.Spelled (piecesAll [function t name content]) after := by
  simp only [piecesAll_cons, piecesAll_nil, List.append_nil, pieces]
  exact ⟨hopening _, Piece.spelled_append.2 ⟨hcontent, Piece.readsIn_closing .round _, trivial⟩⟩

/-! ### Their texts -/

theorem mem_textAll {c : CodePoint} {ps : List Part} :
    c ∈ textAll ps ↔ ∃ p ∈ piecesAll ps, c ∈ p.text := List.mem_flatMap

theorem Clean.noEscape {ps : List Part} (h : Clean ps) : ('\\' : CodePoint) ∉ textAll ps := by
  intro hmem
  obtain ⟨p, hp, hc⟩ := mem_textAll.1 hmem
  exact (h p hp).noEscape hc

theorem Clean.blank {ps : List Part} (h : Clean ps) {c : CodePoint} (hc : c ∈ textAll ps)
    (hspace : Name.isSpace c = false) : Text.isBlank c = false := by
  obtain ⟨p, hp, hc⟩ := mem_textAll.1 hc
  cases hblank : Text.isBlank c with
  | false => rfl
  | true =>
    rw [(h p hp).blank c hc hblank] at hspace
    cases hspace

theorem Clean.normal {ps : List Part} (h : Clean ps) :
    ∀ c ∈ textAll ps, normalizePoint c = c := by
  intro c hc
  obtain ⟨p, hp, hc⟩ := mem_textAll.1 hc
  exact (h p hp).normal c hc

/-! ### Texts that are read as they stand -/

/-- No integer in some parts is too long. -/
def Short (ps : List Part) : Prop := ∀ p ∈ piecesAll ps, Component.overlong? ⟨0, p.token⟩ = none

theorem short_append {ps qs : List Part} : Short (ps ++ qs) ↔ Short ps ∧ Short qs := by
  simp [Short, or_imp, forall_and]

theorem short_leaf {t : Text} {l : Leaf} (h : Component.overlong? ⟨0, .leaf l⟩ = none) :
    Short [leaf t l] := by
  intro p hp
  obtain rfl := List.mem_singleton.1 hp
  exact h

/-- Parts with a text that is read as it stands: its line ends are kept and no integer is too long.
-/
structure Sound (ps : List Part) : Prop where
  short : Short ps
  normal : IsNormal (textAll ps)

theorem sound_append {ps qs : List Part} : Sound (ps ++ qs) ↔ Sound ps ∧ Sound qs := by
  constructor
  · rintro ⟨hshort, hnormal⟩
    rw [textAll_append, normal_append] at hnormal
    rw [short_append] at hshort
    exact ⟨⟨hshort.1, hnormal.1⟩, hshort.2, hnormal.2⟩
  · rintro ⟨hps, hqs⟩
    refine ⟨short_append.2 ⟨hps.short, hqs.short⟩, ?_⟩
    rw [textAll_append]
    exact normal_append.2 ⟨hps.normal, hqs.normal⟩

theorem sound_nil : Sound [] :=
  ⟨fun _ hp => absurd hp List.not_mem_nil, fun _ hc => absurd hc List.not_mem_nil⟩

theorem sound_block {b : Bracket} {content : List Part} (h : Sound content) :
    Sound [block b content] := by
  constructor
  · intro p hp
    simp only [piecesAll_cons, piecesAll_nil, List.append_nil, pieces, List.mem_cons,
      List.mem_append, List.not_mem_nil, or_false] at hp
    rcases hp with rfl | hp | rfl
    · rfl
    · exact h.short p hp
    · rfl
  · have hbrackets : IsNormal [.char b.openChar] ∧ IsNormal [.char b.closeChar] := by
      cases b <;> decide
    rw [textAll_cons, textAll_nil, List.append_nil, text_block]
    exact normal_append.2 ⟨normal_append.2 ⟨hbrackets.1, h.normal⟩, hbrackets.2⟩

theorem Clean.sound {ps : List Part} (h : Clean ps) : Sound ps :=
  ⟨fun p hp => (h p hp).short, h.normal⟩

/-! ### Spaces and the ends of parts -/

theorem isSpace_of_told {ps : List Part} (h : ∀ q ∈ piecesAll ps, q.token.Told q.text)
    (hspace : ∀ p ∈ ps, p.isSpace) : ∀ c ∈ textAll ps, Name.isSpace c := by
  induction ps with
  | nil => intro c hc; cases hc
  | cons p ps ih =>
    intro c hc
    rw [textAll_cons, List.mem_append] at hc
    rcases hc with hc | hc
    · have hp := hspace p List.mem_cons_self
      unfold isSpace at hp
      split at hp
      · rename_i t
        rw [text_leaf] at hc
        exact h ⟨t, .leaf .space⟩ List.mem_cons_self c hc
      · cases hp
    · exact ih (fun q hq => h q (List.mem_append_right p.pieces hq))
        (fun q hq => hspace q (List.mem_cons_of_mem p hq)) c hc

theorem Clean.spaces {ps : List Part} (h : Clean ps) (hspace : ∀ p ∈ ps, p.isSpace) :
    ∀ c ∈ textAll ps, Name.isSpace c :=
  isSpace_of_told (fun q hq => (h q hq).shape.told) hspace

theorem stops_of_spaces {t after : Text} (h : ∀ c ∈ t, Name.isSpace c) (hafter : Stops after) :
    Stops (t ++ after) := by
  cases t with
  | nil => exact hafter
  | cons c t => exact stops_cons (by simp [isStop, h c List.mem_cons_self]) _

theorem exists_text_eq_cons {p : Part} {ps : List Part} {after : Text}
    (h : Piece.Spelled (piecesAll (p :: ps)) after) (hspace : p.isSpace = false) :
    ∃ c t, p.text = c :: t ∧ Name.isSpace c = false := by
  cases p with
  | leaf t l =>
    rw [text_leaf]
    refine h.1.head fun hl => ?_
    obtain rfl : l = .space := Token.leaf.inj hl
    cases hspace
  | function t name content =>
    obtain ⟨c, tail, ht, hc⟩ := h.1.head (fun hl => by cases hl)
    simp only at ht
    rw [text_function, ht]
    exact ⟨c, _, rfl, hc⟩
  | block b content =>
    rw [text_block]
    exact ⟨b.openChar, _, rfl, by cases b <;> decide⟩

/-- A clean part that is no space ends well. -/
theorem endsWell_text {p : Part} (h : Clean [p]) (hspace : p.isSpace = false) :
    EndsWell p.text := by
  cases p with
  | leaf t l =>
    have hshape : (Token.leaf l).Shape t := (h ⟨t, .leaf l⟩ List.mem_cons_self).shape
    rw [text_leaf]
    cases l with
    | space => cases hspace
    | comment text closed => exact hshape.1
    | atKeyword name => exact hshape.1
    | literal text => exact hshape.1
    | ident name => exact hshape
    | hash name isIdent => exact hshape
    | string text => exact hshape
    | url text => exact hshape
    | unicodeRange first last => exact hshape
    | number text => exact hshape
    | percentage text => exact hshape
    | dimension text unit => exact hshape
  | function t name content =>
    rw [text_function]
    exact (endsWell_singleton (by decide)).append
  | block b content =>
    rw [text_block]
    exact (endsWell_singleton (by cases b <;> decide)).append

theorem Clean.core {ps : List Part} (h : Clean ps) : Clean (core ps) :=
  h.sublist (stripped_sublist isSpace ps)

theorem isSpace_head_core {ps : List Part} {after : Text}
    (h : Piece.Spelled (piecesAll (core ps)) after) :
    ∀ c ∈ (textAll (core ps)).head?, Name.isSpace c = false := by
  intro c hc
  cases hcons : core ps with
  | nil => rw [hcons] at hc; cases hc
  | cons p rest =>
    have hspace : p.isSpace = false := head?_stripped (l := ps) p (by rw [← core, hcons]; rfl)
    rw [hcons] at h
    obtain ⟨d, t, ht, hd⟩ := exists_text_eq_cons h hspace
    rw [hcons, textAll_cons, ht] at hc
    obtain rfl : d = c := Option.some.inj hc
    exact hd

theorem endsWell_core {ps : List Part} (h : Clean ps) (hne : core ps ≠ []) :
    EndsWell (textAll (core ps)) := by
  obtain ⟨front, p, hcore⟩ := (List.eq_nil_or_concat (core ps)).resolve_left hne
  rw [List.concat_eq_append] at hcore
  have hspace : p.isSpace = false := getLast?_stripped (l := ps) p (by rw [← core, hcore]; simp)
  have hclean : Clean [p] := by
    have := h.core
    rw [hcore] at this
    exact (clean_append.1 this).2
  rw [hcore, textAll_append, textAll_cons, textAll_nil, List.append_nil]
  exact (endsWell_text hclean hspace).append

/-! ### Parts of a text that can be cut out of it -/

/-- Parts that stand before a stop. -/
def BeforeStop (ps : List Part) : Prop := ∃ after, Stops after ∧ Piece.Spelled (piecesAll ps) after

namespace BeforeStop

variable {ps qs : List Part}

theorem right (h : BeforeStop (ps ++ qs)) : BeforeStop qs := by
  obtain ⟨after, hafter, hspelled⟩ := h
  rw [piecesAll_append, Piece.spelled_append] at hspelled
  exact ⟨after, hafter, hspelled.2⟩

theorem left (h : BeforeStop (ps ++ qs))
    (hqs : ∀ after, Stops after → Stops (textAll qs ++ after)) :
    BeforeStop ps := by
  obtain ⟨after, hafter, hspelled⟩ := h
  rw [piecesAll_append, Piece.spelled_append] at hspelled
  exact ⟨textAll qs ++ after, hqs after hafter, hspelled.1⟩

theorem inside {content : List Part} (h : BeforeStop (block .curly content :: ps)) :
    BeforeStop content := by
  obtain ⟨after, -, hspelled⟩ := h
  rw [piecesAll_cons, pieces, List.cons_append, List.append_assoc] at hspelled
  exact ⟨_, stops_cons (by decide) _, (Piece.spelled_append.1 hspelled.2).1⟩

end BeforeStop

/-- Parts that are clean and stand before a stop. -/
structure Cut (ps : List Part) : Prop where
  clean : Clean ps
  spelled : ∃ after, Stops after ∧ Piece.Spelled (piecesAll ps) after

namespace Cut

variable {p : Part} {ps qs : List Part}

theorem right (h : Cut (ps ++ qs)) : Cut qs :=
  ⟨(clean_append.1 h.clean).2, BeforeStop.right h.spelled⟩

theorem tail (h : Cut (p :: ps)) : Cut ps := by
  rw [← List.singleton_append] at h
  exact h.right

theorem left (h : Cut (ps ++ qs)) (hqs : ∀ after, Stops after → Stops (textAll qs ++ after)) :
    Cut ps :=
  ⟨(clean_append.1 h.clean).1, BeforeStop.left h.spelled hqs⟩

theorem inside {content : List Part} (h : Cut (block .curly content :: ps)) : Cut content := by
  refine ⟨fun q hq => h.clean q ?_, BeforeStop.inside h.spelled⟩
  rw [piecesAll_cons, pieces]
  simp [hq]

/-- **The parts without the spaces at their ends can stand before every stop.** -/
theorem spelled_core (h : Cut ps) {after : Text} (hafter : Stops after) :
    Piece.Spelled (piecesAll (core ps)) after := by
  obtain ⟨front, back, (hps : ps = front ++ core ps ++ back), hfront, hback⟩ :=
    exists_stripped isSpace ps
  have hcore := h.clean.core
  have hends : piecesAll (core ps) ≠ [] → EndsWell (Piece.textOf (piecesAll (core ps))) :=
    fun hne =>
    endsWell_core h.clean fun he => hne (by rw [he]; rfl)
  obtain ⟨hclean, after', hafter', hspelled⟩ := h
  rw [hps, clean_append] at hclean
  rw [hps, piecesAll_append, Piece.spelled_append, piecesAll_append, Piece.spelled_append]
    at hspelled
  exact hspelled.1.2.move (fun p hp => (hcore p hp).whole)
    (isSealed_of_notMem hcore.noEscape) hends
    (stops_of_spaces (hclean.2.spaces hback) hafter') hafter

/-- **The text without blanks at its ends is that of the parts without spaces at their ends.** -/
theorem textAll_core (h : Cut ps) : textAll (core ps) = Text.trim (textAll ps) := by
  obtain ⟨front, back, (hps : ps = front ++ core ps ++ back), hfront, hback⟩ :=
    exists_stripped isSpace ps
  have hhead : ∀ c ∈ (textAll (core ps)).head?, Text.isBlank c = false := fun c hc =>
    h.clean.core.blank (List.mem_of_mem_head? hc)
      (isSpace_head_core (h.spelled_core stops_nil) c hc)
  have hlast : ∀ c ∈ (textAll (core ps)).getLast?, Text.isBlank c = false := by
    intro c hc
    by_cases hne : core ps = []
    · rw [hne] at hc
      cases hc
    · obtain ⟨d, hd, hspace, -⟩ := endsWell_core h.clean hne
      obtain rfl : d = c := Option.some.inj (hd.symm.trans hc)
      exact h.clean.core.blank (List.mem_of_getLast? hd) hspace
  have hclean := h.clean
  rw [hps, clean_append, clean_append] at hclean
  conv_rhs => rw [hps, textAll_append, textAll_append]
  exact (stripped_append (fun c hc => Text.isBlank_of_isSpace (hclean.1.1.spaces hfront c hc))
    (fun c hc => Text.isBlank_of_isSpace (hclean.2.spaces hback c hc)) hhead hlast).symm

theorem core_eq_nil_iff (h : Cut ps) : core ps = [] ↔ Text.trim (textAll ps) = [] := by
  rw [← h.textAll_core]
  constructor
  · intro he
    rw [he, textAll_nil]
  · intro he
    by_contra hne
    obtain ⟨p, hp, -⟩ := endsWell_core h.clean hne
    rw [he] at hp
    cases hp

/-- Parts without spaces at their ends begin with a code point that is no space. -/
theorem exists_core_eq_cons (h : Cut ps) (hne : Text.trim (textAll ps) ≠ []) (after : Text) :
    ∃ c t, textAll (core ps) ++ after = c :: t ∧ Name.isSpace c = false := by
  obtain ⟨c, t, hcons⟩ := List.exists_cons_of_ne_nil hne
  rw [← h.textAll_core] at hcons
  refine ⟨c, t ++ after, by rw [hcons]; rfl, ?_⟩
  exact isSpace_head_core (h.spelled_core stops_nil) c (by rw [hcons]; rfl)

end Cut

end Part

end FluidCss
