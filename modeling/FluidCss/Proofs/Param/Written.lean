import FluidCss.Param.Extract
import FluidCss.Proofs.Component.Spelling
import FluidCss.Proofs.Number.Numeral
import FluidCss.Proofs.Param.Symbol

/-!
# Parameters that are written

The parameters of a directive are written as a call with one object: keys and values stand in rows,
with a colon after a key and a comma between fields and between the items of a list. Each token is
read as what it was written for, wherever the value stands.

* `Part.item_listed`: rows that can stand in a list make a row when they are listed.
* `Part.item_ofList`, `Part.item_ofFields`: lists and objects can stand where values can.
-/

namespace FluidCss

open Param Piece

/-! ## Texts -/

theorem Text.joined_cons (between t : Text) (ts : List Text) :
    joined between (t :: ts) = t ++ ts.flatMap fun u => between ++ u := by
  induction ts generalizing t with
  | nil => simp [joined]
  | cons u ts ih => simp [joined, ih]

theorem normalizePoint_eq_self {c : CodePoint} (hreturn : c ≠ '\x0d') (hfeed : c ≠ '\x0c')
    (hzero : c ≠ '\x00') : normalizePoint c = c := by
  unfold normalizePoint
  rw [if_neg (not_or_intro hreturn hfeed), if_neg hzero]

theorem normal_of_isPart {t : Text} (h : ∀ c ∈ t, Name.isPart c) : IsNormal t := by
  intro c hc
  have hpart := h c hc
  refine normalizePoint_eq_self ?_ ?_ ?_
  all_goals
    rintro rfl
    exact absurd hpart (by decide)

namespace Param

def stringText (t : Text) : Text := "\"" ++ t ++ "\""

def listText (items : List Text) : Text := "[" ++ Text.joined ", " items ++ "]"

/-- The text of a key with its value. -/
def fieldText (key value : Text) : Text := key ++ ": " ++ value

def objectText (fields : List Text) : Text := "\x7b " ++ Text.joined ", " fields ++ " \x7d"

end Param

namespace Part

/-! ## Rows of parts -/

def comma : Part := leaf "," (.literal ",")

def colon : Part := leaf ":" (.literal ":")

/-- Rows of parts, with a comma and a space before each but the first. -/
def listed : List (List Part) → List Part
  | [] => []
  | row :: rows => row ++ rows.flatMap fun r => comma :: gap :: r

theorem textAll_flatMap {α : Type} (f : α → List Part) (as : List α) :
    textAll (as.flatMap f) = as.flatMap fun a => textAll (f a) := by
  induction as with
  | nil => rfl
  | cons a as ih => simp [ih]

theorem textAll_listed (rows : List (List Part)) :
    textAll (listed rows) = Text.joined ", " (rows.map textAll) := by
  cases rows with
  | nil => rfl
  | cons row rows =>
    rw [listed, textAll_append, textAll_flatMap, List.map_cons, Text.joined_cons, List.flatMap_map]
    rfl

/-- What may follow a key or a value. -/
def boundMarks : Text := ", :;]\x7d)"

/-- Nothing follows, or a mark that may follow a key or a value. -/
def Bounded (t : Text) : Prop := ∀ p ∈ t.head?, p ∈ boundMarks

theorem bounded_nil : Bounded [] := fun _ h => by cases h

theorem bounded_cons {p : CodePoint} (h : p ∈ boundMarks) (t : Text) : Bounded (p :: t) := by
  intro q hq
  obtain rfl := Option.some.inj hq
  exact h

theorem endsName_of_mem {p : CodePoint} (h : p ∈ boundMarks) : EndsName p :=
  (by decide : ∀ p ∈ boundMarks, EndsName p) p h

theorem endsDecimal_of_mem {p : CodePoint} (h : p ∈ boundMarks) : EndsDecimal p ∧ p ≠ '%' :=
  (by decide : ∀ p ∈ boundMarks, EndsDecimal p ∧ p ≠ '%') p h

theorem startsIdent_of_bounded {t : Text} (h : Bounded t) : Name.startsIdent t = false := by
  cases t with
  | nil => rfl
  | cons p t =>
    obtain ⟨hstart, hminus, hescape⟩ :=
      (by decide : ∀ p ∈ boundMarks, Name.isStart p = false ∧ p ≠ '-' ∧ p ≠ '\\') p (h p rfl)
    simp [Name.startsIdent, hstart, hminus, Name.startsEscape_cons hescape]

/-- A row that can stand in a list. -/
structure Item (row : List Part) : Prop where
  solid : ∃ p ps, row = p :: ps ∧ p.IsSolid
  short : Short row
  normal : IsNormal (textAll row)
  spelled : ∀ after, Bounded after → Spelled (piecesAll row) after

/-- What may follow an item. -/
structure Tail (ps : List Part) : Prop where
  short : Short ps
  normal : IsNormal (textAll ps)
  bounded : ∀ after, Bounded after → Bounded (textAll ps ++ after)
  spelled : ∀ after, Bounded after → Spelled (piecesAll ps) after

theorem tail_nil : Tail [] where
  short _ hp := absurd hp List.not_mem_nil
  normal _ hc := absurd hc List.not_mem_nil
  bounded _ hafter := hafter
  spelled _ _ := trivial

namespace Item

variable {row ps : List Part} {after : Text}

theorem sound (h : Item row) : Sound row := ⟨h.short, h.normal⟩

theorem isSpace_head (h : Item row) (hafter : Bounded after) :
    ∀ c ∈ (textAll row ++ after).head?, Name.isSpace c = false := by
  obtain ⟨p, ps, rfl, hsolid⟩ := h.solid
  obtain ⟨d, v, htext, hd⟩ := exists_text_eq_cons (h.spelled after hafter) hsolid.isSpace_eq
  intro c hc
  rw [textAll_cons, htext] at hc
  obtain rfl := Option.some.inj hc
  exact hd

theorem spelled_gap (h : Item row) (hafter : Bounded after) :
    Spelled (piecesAll (gap :: row)) after :=
  ⟨readsIn_gap (h.isSpace_head hafter), h.spelled after hafter⟩

theorem append (h : Item row) (hps : Tail ps) : Item (row ++ ps) where
  solid := by
    obtain ⟨p, qs, rfl, hsolid⟩ := h.solid
    exact ⟨p, qs ++ ps, rfl, hsolid⟩
  short := short_append.2 ⟨h.short, hps.short⟩
  normal := by
    rw [textAll_append]
    exact normal_append.2 ⟨h.normal, hps.normal⟩
  spelled after hafter := by
    rw [piecesAll_append, spelled_append]
    exact ⟨h.spelled _ (hps.bounded after hafter), hps.spelled after hafter⟩

end Item

theorem Tail.cons {mark : Part} {c : CodePoint} {row : List Part} (htext : mark.text = [c])
    (hc : c ∈ boundMarks) (hnormal : normalizePoint c = c) (hshort : Short [mark])
    (hspelled : ∀ v, Spelled mark.pieces v) (hrow : Item row) :
    Tail (mark :: gap :: row) where
  short := short_append.2 ⟨hshort, short_append.2 ⟨short_leaf rfl, hrow.short⟩⟩
  normal := by
    rw [textAll_cons, textAll_cons, htext]
    refine normal_append.2 ⟨?_, normal_append.2 ⟨by decide, hrow.normal⟩⟩
    intro d hd
    obtain rfl := List.mem_singleton.1 hd
    exact hnormal
  bounded after _ := by
    rw [textAll_cons, htext]
    exact bounded_cons hc _
  spelled after hafter := by
    rw [piecesAll_cons, spelled_append]
    exact ⟨hspelled _, hrow.spelled_gap hafter⟩

theorem Tail.append {ps qs : List Part} (hps : Tail ps) (hqs : Tail qs) : Tail (ps ++ qs) where
  short := short_append.2 ⟨hps.short, hqs.short⟩
  normal := by
    rw [textAll_append]
    exact normal_append.2 ⟨hps.normal, hqs.normal⟩
  bounded after hafter := by
    rw [textAll_append, List.append_assoc]
    exact hps.bounded _ (hqs.bounded after hafter)
  spelled after hafter := by
    rw [piecesAll_append, spelled_append]
    exact ⟨hps.spelled _ (hqs.bounded after hafter), hqs.spelled after hafter⟩

theorem tail_comma {row : List Part} (h : Item row) : Tail (comma :: gap :: row) :=
  Tail.cons rfl (by decide) (by decide) (short_leaf rfl) (fun v => ⟨readsIn_comma v, trivial⟩) h

theorem tail_colon {row : List Part} (h : Item row) : Tail (colon :: gap :: row) :=
  Tail.cons rfl (by decide) (by decide) (short_leaf rfl) (fun v => ⟨readsIn_colon v, trivial⟩) h

/-- **Items that are listed are an item.** -/
theorem item_listed {rows : List (List Part)} (hne : rows ≠ []) (h : ∀ row ∈ rows, Item row) :
    Item (listed rows) := by
  have htail : ∀ {rows : List (List Part)}, (∀ row ∈ rows, Item row) →
      Tail (rows.flatMap fun r => comma :: gap :: r) := by
    intro rows h
    -- Induction on those after the first.
    induction rows with
    | nil => exact tail_nil
    | cons row rows ih =>
      rw [List.flatMap_cons]
      exact (tail_comma (h row List.mem_cons_self)).append
        (ih fun r hr => h r (List.mem_cons_of_mem row hr))
  obtain ⟨row, rows, rfl⟩ := List.exists_cons_of_ne_nil hne
  exact (h row List.mem_cons_self).append (htail fun r hr => h r (List.mem_cons_of_mem row hr))

/-! ## Brackets -/

/-- Parts that are read to their end before a closing bracket stand in brackets as an item. -/
theorem item_block {b : Bracket} {content : List Part} (hsound : Sound content)
    (hspelled : ∀ v, Spelled (piecesAll content) (.char b.closeChar :: v)) :
    Item [block b content] where
  solid := ⟨_, _, rfl, trivial⟩
  short := (sound_block hsound).short
  normal := (sound_block hsound).normal
  spelled after _ := by
    simp only [piecesAll_cons, piecesAll_nil, List.append_nil, pieces]
    exact ⟨readsIn_opening b _, spelled_append.2 ⟨hspelled after, readsIn_closing b _, trivial⟩⟩

/-! ## Keys and values -/

def ofWord (t : Text) : Part := leaf t (.ident t)

/-- A text between double quotes. -/
def ofString (t : Text) : Part := leaf (stringText t) (.string t)

/-- An integer in decimal digits. -/
def ofInt (n : Int) : Part := leaf (Number.intText n) (.number (Number.intText n))

def ofList (items : List Part) : Part := block .square (listed (items.map fun p => [p]))

def field (key value : Part) : List Part := key :: colon :: gap :: [value]

def ofFields (fields : List (Part × Part)) : Part :=
  block .curly (gap :: (listed (fields.map fun f => field f.1 f.2) ++ [gap]))

@[simp] theorem text_ofWord (t : Text) : (ofWord t).text = t := text_leaf ..

@[simp] theorem text_ofString (t : Text) : (ofString t).text = stringText t := text_leaf ..

@[simp] theorem text_ofInt (n : Int) : (ofInt n).text = Number.intText n := text_leaf ..

theorem text_ofList (items : List Part) : (ofList items).text = listText (items.map text) := by
  have hrows : (items.map fun p => [p]).map textAll = items.map text := by
    simp [Function.comp_def]
  rw [ofList, text_block, textAll_listed, hrows]
  rfl

theorem textAll_field (key value : Part) :
    textAll (field key value) = fieldText key.text value.text := by
  simp [field, colon, gap, fieldText]
  rfl

theorem text_ofFields (fields : List (Part × Part)) :
    (ofFields fields).text = objectText (fields.map fun f => fieldText f.1.text f.2.text) := by
  have hrows : (fields.map fun f => field f.1 f.2).map textAll =
      fields.map fun f => fieldText f.1.text f.2.text := by
    rw [List.map_map]
    exact List.map_congr_left fun f _ => textAll_field f.1 f.2
  rw [ofFields, text_block, textAll_cons, textAll_append, textAll_listed, hrows]
  simp [gap, objectText]
  rfl

theorem item_ofWord {t : Text} (h : IsName t) : Item [ofWord t] where
  solid := ⟨_, _, rfl, rfl⟩
  short := short_leaf rfl
  normal := by
    rw [textAll_cons, textAll_nil, List.append_nil, ofWord, text_leaf]
    exact normal_of_isPart h.isPart
  spelled _ hafter := ⟨readsIn_ident h fun p hp => endsName_of_mem (hafter p hp), trivial⟩

/-- What cannot stand between double quotes as it is. -/
def quoteMarks : Text := "\"\\\n\x0d\x0c\x00"

/-- A text that can stand between double quotes as it is. -/
def IsPlain (t : Text) : Prop := ∀ p ∈ t, p ∉ quoteMarks

instance (t : Text) : Decidable (IsPlain t) := inferInstanceAs (Decidable (∀ p ∈ t, _))

theorem IsPlain.ne {t : Text} (h : IsPlain t) {p c : CodePoint} (hp : p ∈ t)
    (hc : c ∈ quoteMarks) : p ≠ c := fun he => h p hp (he ▸ hc)

theorem item_ofString {t : Text} (h : IsPlain t) : Item [ofString t] where
  solid := ⟨_, _, rfl, rfl⟩
  short := short_leaf rfl
  normal := by
    have hinside : IsNormal t := fun c hc =>
      normalizePoint_eq_self (h.ne hc (by decide)) (h.ne hc (by decide)) (h.ne hc (by decide))
    rw [textAll_cons, textAll_nil, List.append_nil, ofString, text_leaf]
    exact normal_append.2 ⟨normal_append.2 ⟨by decide, hinside⟩, by decide⟩
  spelled _ _ := ⟨readsIn_string (fun p hp =>
    ⟨h.ne hp (by decide), h.ne hp (by decide), h.ne hp (by decide)⟩) _, trivial⟩

theorem overlong?_intText {n : Int} (h : Numeral.IsShort n) :
    Component.overlong? ⟨0, .leaf (.number (Number.intText n))⟩ = none := by
  have hlength := Numeral.length_toDigits_le h
  have hdigits := isDigits_toDigits n.natAbs
  simp only [Component.overlong?, Leaf.numeral?, Option.bind_some, Component.integerDigits?,
    Numeral.sign_intText]
  rw [if_pos (List.all_eq_true.2 hdigits.isDigit), Option.filter_eq_none_iff]
  intro digits hdigits
  obtain rfl := Option.some.inj hdigits
  simp [hlength]

theorem item_ofInt {n : Int} (h : Numeral.IsShort n) : Item [ofInt n] := by
  obtain ⟨sign, whole, hdecimal, htext, -⟩ := Number.isDecimal_intText n
  refine ⟨⟨_, _, rfl, rfl⟩, short_leaf (overlong?_intText h), ?_, fun after hafter => ?_⟩
  · rw [textAll_cons, textAll_nil, List.append_nil, ofInt, text_leaf]
    intro c hc
    rw [htext, ← List.append_nil (sign ++ whole)] at hc
    rcases hdecimal.mem hc with hdigit | rfl | rfl
    · rcases CodePoint.isDigit_iff.1 hdigit with
        rfl | rfl | rfl | rfl | rfl | rfl | rfl | rfl | rfl | rfl <;> decide
    · decide
    · decide
  · have hread := readsIn_number hdecimal (startsIdent_of_bounded hafter) fun p hp =>
      endsDecimal_of_mem (hafter p hp)
    rw [List.append_nil, ← htext] at hread
    exact ⟨hread, trivial⟩

theorem item_ofList {items : List Part} (hne : items ≠ []) (h : ∀ p ∈ items, Item [p]) :
    Item [ofList items] := by
  have hrows : Item (listed (items.map fun p => [p])) :=
    item_listed (by simpa using hne) (by simpa using h)
  exact item_block hrows.sound fun v => hrows.spelled _ (bounded_cons (by decide) v)

theorem item_field {key value : Part} (hkey : Item [key]) (hvalue : Item [value]) :
    Item (field key value) := hkey.append (tail_colon hvalue)

theorem item_ofFields {fields : List (Part × Part)} (hne : fields ≠ [])
    (h : ∀ f ∈ fields, Item [f.1] ∧ Item [f.2]) : Item [ofFields fields] := by
  have hrows : Item (listed (fields.map fun f => field f.1 f.2)) := by
    refine item_listed (by simpa using hne) fun row hrow => ?_
    obtain ⟨f, hf, rfl⟩ := List.mem_map.1 hrow
    exact item_field (h f hf).1 (h f hf).2
  have hgap : Sound [gap] := clean_gap.sound
  have hsound : Sound ([gap] ++ (listed (fields.map fun f => field f.1 f.2) ++ [gap])) :=
    sound_append.2 ⟨hgap, sound_append.2 ⟨hrows.sound, hgap⟩⟩
  refine item_block hsound fun v => ?_
  rw [← List.cons_append, piecesAll_append, spelled_append]
  refine ⟨hrows.spelled_gap (bounded_cons (by decide) _), readsIn_gap fun c hc => ?_, trivial⟩
  obtain rfl := Option.some.inj hc
  decide

end Part

end FluidCss
