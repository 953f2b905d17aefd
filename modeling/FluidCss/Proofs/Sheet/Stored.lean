import FluidCss.Proofs.Component.Cutoff
import FluidCss.Proofs.Sheet.RoundTrip
import Mathlib.Data.List.Forall2

/-!
# What is stored of a statement

A selector, the parameters of an at-rule and a value are stored as a text, which is cut out of the
source and loses the blanks at its ends. Which blanks these are is not told by the grammar: there
are more of them than spaces, and some of them are part of a token.

**Theorem (`parse_keeps_tokens`).** In a source without faults and open brackets, what is stored of
a statement is read to the tokens that stand for it in the source, without the spaces at their ends,
if these tokens keep their ends.

The tokens of a text that is cut off before a stop are the same as in the text
(`Piece.Spelled.cut`), and the one thing that a token may lose is the space after an escape by its
number. Without the condition the theorem fails: `escaped_space_is_lost`. -/

namespace FluidCss

/-! ## Parts of a text -/

def Text.between (text : Text) (start stop : Nat) : Text := (text.drop start).take (stop - start)

namespace Component

/-- Where the first of some components begins, or `stop`. -/
def startOf (stop : Nat) : List Component → Nat
  | [] => stop
  | c :: _ => c.start

mutual

/-- A component with the texts of its tokens, given the text that it stands in and where it ends. -/
def part (text : Text) (stop : Nat) : Component → Part
  | leaf start l => .leaf (text.between start stop) l
  | fault start _ => .leaf (text.between start stop) (.literal (text.between start stop))
  | function start name content close =>
    .function (text.between start (startOf (close.getD stop) content)) name
      (parts text (close.getD stop) content)
  | block _ b content close => .block b (parts text (close.getD stop) content)

/-- Components in a row with the texts of their tokens. -/
def parts (text : Text) (stop : Nat) : List Component → List Part
  | [] => []
  | c :: cs => part text (startOf stop cs) c :: parts text stop cs

end

end Component

namespace Part

open Component (startOf part parts)

/-- The components of a source with the texts of their tokens. -/
def ofSource (source : Text) (cs : List Component) : List Part :=
  parts (normalize source) (normalize source).length cs

theorem Placed.between_eq {text : Text} {start stop : Nat} {ps : List Part}
    (h : Placed text start ps stop) : text.between start stop = textAll ps := by
  obtain ⟨before, after, rfl, rfl, rfl⟩ := h
  simp [Text.between]

theorem Placed.startOf_located {text : Text} {start stop : Nat} {ps : List Part}
    (h : Placed text start ps stop) : startOf stop (locatedAll start ps) = start := by
  cases ps with
  | nil =>
    obtain ⟨-, -, -, -, rfl⟩ := h
    rfl
  | cons p ps => exact located_start start p

theorem Placed.call {text : Text} {start stop : Nat} {t name : Text} {content : List Part}
    (h : Placed text start [function t name content] stop) :
    text.between start (start + t.length) = t ∧
      Placed text (start + t.length) content (start + t.length + (textAll content).length) := by
  obtain ⟨before, after, htext, rfl, -⟩ := h
  rw [textAll_cons, textAll_nil, List.append_nil, text_function] at htext
  exact ⟨by simp [Text.between, htext], before ++ t, .char ')' :: after, by simp [htext], by simp,
    rfl⟩

mutual

theorem part_located : ∀ (p : Part) {text : Text} {start stop : Nat},
    Placed text start [p] stop → part text stop (p.located start) = p
  | leaf t l, text, start, stop, h => by
    simp [located, part, h.between_eq]
  | function t name content, text, start, stop, h => by
    obtain ⟨htext, hinside⟩ := h.call
    simp only [located, part, Option.getD_some, hinside.startOf_located, htext,
      parts_located content hinside]
  | block b content, text, start, stop, h => by
    obtain ⟨stop', -, hinside, -⟩ := h.inside
    obtain ⟨-, -, -, -, rfl⟩ := id hinside
    simp only [located, part, Option.getD_some, parts_located content hinside]

/-- The parts of a text are the components that they are at their places, with their texts. -/
theorem parts_located : ∀ (ps : List Part) {text : Text} {start stop : Nat},
    Placed text start ps stop → parts text stop (locatedAll start ps) = ps
  | [], _, _, _, _ => rfl
  | p :: ps, text, start, stop, h => by
    have htail := h.tail
    have hhead : Placed text start [p] (start + p.text.length) := by
      have hleft : Placed text start [p] (start + (textAll [p]).length) := Placed.left h
      simpa using hleft
    rw [locatedAll, parts, htail.startOf_located, part_located p hhead,
      parts_located ps htail]

end

theorem ofSource_textAll {ps : List Part} (hnormal : IsNormal (textAll ps)) :
    ofSource (textAll ps) (locatedAll 0 ps) = ps := by
  rw [ofSource, normalize_eq_self hnormal]
  exact parts_located ps (Sheet.placed_zero ps)

/-! ## What parts say -/

mutual

/-- A part without the texts that its tokens were read from. A space says its text. -/
def value : Part → Part
  | leaf t .space => leaf t .space
  | leaf _ l => leaf [] l
  | function _ name content => function [] name (values content)
  | block b content => block b (values content)

/-- What parts in a row say. -/
def values : List Part → List Part
  | [] => []
  | p :: ps => value p :: values ps

end

theorem values_append (ps qs : List Part) : values (ps ++ qs) = values ps ++ values qs := by
  induction ps with
  | nil => rfl
  | cons p ps ih => simp [values, ih]

theorem value_leaf {l : Leaf} (h : l ≠ .space) (t : Text) : (leaf t l).value = leaf [] l := by
  cases l <;> first | rfl | exact absurd rfl h

/-! ## What is stored -/

/-- What is stored of a statement that begins with a name after an at-sign follows that name. Of
others `rest` is stored. -/
def params (rest : List Part → List Part) : List Part → List Part
  | leaf _ (.atKeyword _) :: ps => ps
  | ps => rest ps

/-- The parts of a statement that its text is stored of: the parameters, or what follows the first
colon. -/
def said : List Part → List Part := params fun ps => (ps.dropWhile fun p => !p.isColon).tail

/-- The parts before a block that the text is stored of: the parameters, or the selector. -/
def saidBefore : List Part → List Part := params id

mutual

/-- The slices of a part, if it is a block of statements. -/
def slicesIn : Part → List (List Part)
  | block .curly content => slices [] content
  | _ => []

/-- The parts that texts are stored of, in the order of the statements; `pending` is the statement
begun before. -/
def slices (pending : List Part) : List Part → List (List Part)
  | [] => if pending.isEmpty then [] else [said pending]
  | p :: ps =>
    match p.role, pending with
    | .space, [] => slices [] ps
    | .comment _, [] => slices [] ps
    | .semicolon, [] => slices [] ps
    | .semicolon, q :: qs => said (q :: qs) :: slices [] ps
    | .block, pending => saidBefore pending :: (slicesIn p ++ slices [] ps)
    | _, pending => slices (pending ++ [p]) ps

end

end Part

namespace Node

mutual

/-- The selectors, parameters and values of a node and of those in it. -/
def stored : Node → List Text
  | declaration _ value => [value]
  | comment _ => []
  | rule selector children => selector :: storedAll children
  | atRule _ params _ children => params :: storedAll children
  | root children => storedAll children

def storedAll : List Node → List Text
  | [] => []
  | n :: ns => stored n ++ storedAll ns

end

end Node

namespace Part

theorem params_of_isKeyword {rest : List Part → List Part} {ps : List Part}
    (h : ∀ p ∈ ps.head?, p.isKeyword = false) : params rest ps = rest ps := by
  unfold params
  split
  · exact absurd (h _ rfl) (by simp [isKeyword])
  · rfl

theorem Statement.stored_eq {ps : List Part} {node : Node} (h : Statement ps node) :
    node.stored = [Text.trim (textAll (said ps))] := by
  cases h with
  | atRule => rfl
  | @declaration front colon back hkeyword hfront hcolon hproperty =>
    have hdrop : (front ++ colon :: back).dropWhile (fun p => !p.isColon) = colon :: back := by
      rw [List.dropWhile_append_of_pos (by simpa using hfront)]
      simp [hcolon]
    rw [said, params_of_isKeyword (head?_divided hkeyword hproperty colon back), hdrop]
    rfl

theorem Opens.stored_eq {children : List Node} {ps : List Part} {node : Node}
    (h : Opens children ps node) :
    node.stored = Text.trim (textAll (saidBefore ps)) :: Node.storedAll children := by
  cases h with
  | atRule => rfl
  | rule hkeyword =>
    rw [saidBefore, params_of_isKeyword hkeyword]
    rfl

/-! ## Statements stand before stops -/

theorem Sound.subset {ps qs : List Part} (h : Sound qs)
    (hsub : ∀ p ∈ piecesAll ps, p ∈ piecesAll qs) : Sound ps := by
  refine ⟨fun p hp => h.short p (hsub p hp), fun c hc => ?_⟩
  obtain ⟨p, hp, hc⟩ := mem_textAll.1 hc
  exact h.normal c (mem_textAll.2 ⟨p, hsub p hp, hc⟩)

/-- Parts without faults that can be read as they stand, before a stop. -/
structure Stands (ps : List Part) : Prop where
  whole : ∀ p ∈ piecesAll ps, p.token.Whole
  sound : Sound ps
  before : BeforeStop ps

namespace Stands

variable {ps qs : List Part}

theorem suffix (h : Stands ps) (hqs : qs <:+ ps) : Stands qs := by
  obtain ⟨front, rfl⟩ := hqs
  have hsub : ∀ p ∈ piecesAll qs, p ∈ piecesAll (front ++ qs) := fun p hp => by
    rw [piecesAll_append]
    exact List.mem_append_right _ hp
  exact ⟨fun p hp => h.whole p (hsub p hp), h.sound.subset hsub, h.before.right⟩

theorem left (h : Stands (ps ++ qs)) (hqs : ∀ after, Stops after → Stops (textAll qs ++ after)) :
    Stands ps := by
  have hsub : ∀ p ∈ piecesAll ps, p ∈ piecesAll (ps ++ qs) := fun p hp => by
    rw [piecesAll_append]
    exact List.mem_append_left _ hp
  exact ⟨fun p hp => h.whole p (hsub p hp), h.sound.subset hsub, h.before.left hqs⟩

theorem inside {content : List Part} (h : Stands (block .curly content :: ps)) :
    Stands content := by
  have hsub : ∀ p ∈ piecesAll content, p ∈ piecesAll (block .curly content :: ps) := fun p hp => by
    rw [piecesAll_cons, pieces]
    simp [hp]
  exact ⟨fun p hp => h.whole p (hsub p hp), h.sound.subset hsub, h.before.inside⟩

theorem told (h : Stands ps) : ∀ p ∈ piecesAll ps, p.token.Told p.text := by
  obtain ⟨after, -, hspelled⟩ := h.before
  exact hspelled.forall Scan.token_told

theorem before_semicolon {p : Part} (h : Stands (ps ++ p :: qs)) (hrole : p.role = .semicolon) :
    Stands ps := by
  refine h.left fun after _ => ?_
  have htail := (h.suffix (List.suffix_append ps (p :: qs))).told
  obtain rfl := eq_of_role_semicolon (fun q hq => htail q (by
    rw [piecesAll_cons, piecesAll_nil, List.append_nil] at hq
    exact List.mem_append_left _ hq)) hrole
  exact stops_cons (by decide) _

theorem before_block {content : List Part} (h : Stands (ps ++ block .curly content :: qs)) :
    Stands ps := by
  refine h.left fun after _ => ?_
  rw [textAll_cons, text_block]
  exact stops_cons (by decide) _

theorem tail {p : Part} (h : Stands (ps ++ p :: qs)) : Stands qs :=
  h.suffix ⟨ps ++ [p], by simp⟩

end Stands

theorem params_suffix {rest : List Part → List Part} (h : ∀ ps, rest ps <:+ ps) (ps : List Part) :
    params rest ps <:+ ps := by
  unfold params
  split
  · exact List.suffix_cons _ _
  · exact h _

theorem said_suffix (ps : List Part) : said ps <:+ ps :=
  params_suffix (fun _ => (List.tail_suffix _).trans (List.dropWhile_suffix _)) ps

theorem saidBefore_suffix (ps : List Part) : saidBefore ps <:+ ps :=
  params_suffix (fun _ => List.suffix_rfl) ps

/-- **What is stored, text for text, and where it stood.** -/
theorem Reads.stored {pending parts : List Part} {nodes : List Node}
    (h : Reads pending parts nodes) (hstands : Stands (pending ++ parts)) :
    List.Forall₂ (fun slice stored => stored = Text.trim (textAll slice) ∧ Stands slice)
      (slices pending parts) (Node.storedAll nodes) := by
  induction h with
  | nil => exact .nil
  | @last pending node hstatement =>
    rw [List.append_nil] at hstands
    have hne : pending.isEmpty = false := by simpa using hstatement.ne_nil
    simp only [slices, hne, Bool.false_eq_true, if_false, Node.storedAll, hstatement.stored_eq,
      List.append_nil]
    exact .cons ⟨rfl, hstands.suffix (said_suffix pending)⟩ .nil
  | space hrole htail ih =>
    simp only [slices, hrole]
    exact ih (hstands.suffix (List.suffix_cons _ _))
  | comment hrole htail ih =>
    simp only [slices, hrole, Node.storedAll, Node.stored, List.nil_append]
    exact ih (hstands.suffix (List.suffix_cons _ _))
  | semicolon hrole htail ih =>
    simp only [slices, hrole]
    exact ih (hstands.suffix (List.suffix_cons _ _))
  -- The slice of a statement is a suffix of what stands before the semicolon.
  | @statement pending node p ps nodes hstatement hrole htail ih =>
    obtain ⟨q, qs, rfl⟩ := List.exists_cons_of_ne_nil hstatement.ne_nil
    simp only [slices, hrole, Node.storedAll, hstatement.stored_eq, List.singleton_append]
    exact .cons ⟨rfl, (hstands.before_semicolon hrole).suffix (said_suffix _)⟩ (ih hstands.tail)
  | @block pending content children node ps nodes hchildren hopens htail ihchildren ih =>
    have hrole : (Part.block .curly content).role = .block := rfl
    simp only [slices, hrole, slicesIn, Node.storedAll, hopens.stored_eq, List.cons_append]
    refine .cons ⟨rfl, hstands.before_block.suffix (saidBefore_suffix pending)⟩ ?_
    exact List.rel_append (ihchildren (hstands.suffix (List.suffix_append pending _)).inside)
      (ih hstands.tail)
  | @begin p ps nodes hrole htail ih =>
    simp only [slices, hrole, List.nil_append]
    exact ih hstands
  | @more pending p ps nodes hpending hsemicolon hblock htail ih =>
    obtain ⟨q, qs, rfl⟩ := List.exists_cons_of_ne_nil hpending
    have hslices : slices (q :: qs) (p :: ps) = slices (q :: qs ++ [p]) ps := by
      cases hrole : p.role with
      | semicolon => exact absurd hrole hsemicolon
      | block => exact absurd hrole hblock
      | _ => simp only [slices, hrole]
    rw [hslices]
    exact ih (by simpa using hstands)

/-! ## Tokens at the ends of a slice -/

/-- A backslash that begins no escape. -/
def isBackslash : Part → Bool
  | leaf _ (.literal t) => t == "\\"
  | _ => false

/-- Blanks that are taken off the text of parts take nothing off its tokens: the text begins with no
blank, and if it ends in one, that is the space after an escape by its number. A backslash that
stands for itself is not the last part, for at the end of a text it is an escape. -/
structure EndsKept (ps : List Part) : Prop where
  head : ∀ c ∈ (textAll ps).head?, Text.isBlank c = false
  last : ∀ c ∈ (textAll ps).getLast?, Text.isBlank c →
    Name.isSpace c ∧ ∃ d ∈ (textAll ps).dropLast.getLast?, Name.isHex d
  mark : ∀ p ∈ ps.getLast?, p.isBackslash = false

instance (ps : List Part) : Decidable (EndsKept ps) :=
  decidable_of_iff ((∀ c ∈ (textAll ps).head?, Text.isBlank c = false) ∧
    (∀ c ∈ (textAll ps).getLast?, Text.isBlank c →
      Name.isSpace c ∧ ∃ d ∈ (textAll ps).dropLast.getLast?, Name.isHex d) ∧
    ∀ p ∈ ps.getLast?, p.isBackslash = false)
    ⟨fun ⟨head, last, mark⟩ => ⟨head, last, mark⟩, fun h => ⟨h.head, h.last, h.mark⟩⟩

/-- Parts that are a text by themselves. -/
structure Closed (ps : List Part) : Prop where
  spelled : Piece.Spelled (piecesAll ps) []
  sound : Sound ps
  last : ∀ c ∈ (textAll ps).getLast?, Text.isBlank c = false

theorem not_isBlank_of_isHex {c : CodePoint} (h : Name.isHex c) : Text.isBlank c = false := by
  have hrange : 0x30 ≤ c.number ∧ c.number ≤ 0x66 := by
    unfold Name.isHex Name.hexDigit? CodePoint.isDigit at h
    simp only at h
    split_ifs at h with hdigit hlower hupper
    · simp at hdigit; omega
    · simp at hlower; omega
    · simp at hupper; omega
    · cases h
  unfold Text.isBlank
  simp
  omega

/-- The last token of a part that is no space. -/
theorem exists_last_piece {p : Part} (hspace : p.isSpace = false) :
    ∃ front text token, p.pieces = front ++ [⟨text, token⟩] ∧
      (token.Leads → p.isBackslash) := by
  cases p with
  | leaf t l =>
    refine ⟨[], t, .leaf l, rfl, ?_⟩
    rintro (⟨name, hname⟩ | hmark)
    · cases hname
    · rw [Token.leaf.inj hmark]
      rfl
  | function t name content =>
    refine ⟨⟨t, .function name⟩ :: piecesAll content, _, _, rfl, ?_⟩
    rintro (⟨name, hname⟩ | hmark) <;> contradiction
  | block b content =>
    refine ⟨opening b :: piecesAll content, _, _, rfl, ?_⟩
    rintro (⟨name, hname⟩ | hmark) <;> contradiction

/-- Parts whose last token may be cut off, or loses the space after an escape by its number. -/
theorem Stands.spelled_cut {ps : List Part} (h : Stands ps) {pieces : List Piece}
    {text rest : Text} {token : Token} (hps : piecesAll ps = pieces ++ [⟨text ++ rest, token⟩])
    (hlast : ∃ c ∈ text.getLast?, Name.isSpace c = false) (hleads : ¬ token.Leads)
    (hrest : rest = [] ∨ ∃ c, rest = [c] ∧ Name.isSpace c ∧ ∃ d ∈ text.getLast?, Name.isHex d) :
    Piece.Spelled (pieces ++ [⟨text, token⟩]) [] := by
  obtain ⟨after, hafter, hspelled⟩ := h.before
  have hwhole := h.whole
  rw [hps] at hspelled hwhole
  exact hspelled.cut hwhole hafter hlast hleads hrest

theorem Stands.text_ne_nil {ps : List Part} (h : Stands ps) {pieces : List Piece} {p : Piece}
    (hps : piecesAll ps = pieces ++ [p]) : p.text ≠ [] := by
  obtain ⟨after, -, hspelled⟩ := h.before
  rw [hps, Piece.spelled_append] at hspelled
  obtain ⟨⟨c, cs, htext, -⟩, -⟩ := hspelled.2
  rw [htext]
  exact List.cons_ne_nil c cs

/-- Parts that end in no blank are a text by themselves. -/
theorem Stands.closed {front : List Part} {p : Part} (h : Stands (front ++ [p]))
    (hspace : p.isSpace = false) (hmark : p.isBackslash = false)
    (hlast : ∀ c ∈ (textAll (front ++ [p])).getLast?, Text.isBlank c = false) :
    Closed (front ++ [p]) := by
  refine ⟨?_, h.sound, hlast⟩
  obtain ⟨pieces, text, token, hp, hleads⟩ := exists_last_piece hspace
  have hall : piecesAll (front ++ [p]) = (piecesAll front ++ pieces) ++ [⟨text ++ [], token⟩] := by
    simp [hp]
  have hne := h.text_ne_nil hall
  rw [List.append_nil] at hall hne
  -- The last point of the text is that of its last token.
  have hgetLast : (textAll (front ++ [p])).getLast? = text.getLast? := by
    rw [textAll, hall, Piece.textOf_append, List.getLast?_append]
    simp [List.getLast?_eq_some_getLast hne]
  rw [hall]
  refine h.spelled_cut (by rw [List.append_nil, hall]) ?_ (fun hl => ?_) (.inl rfl)
  · obtain ⟨c, hc⟩ := Option.isSome_iff_exists.1 (List.getLast?_isSome.2 hne)
    exact ⟨c, hc, Text.isSpace_eq_false_of_isBlank (hlast c (hgetLast ▸ hc))⟩
  · rw [hleads hl] at hmark
    cases hmark

/-- What ends in a space but is none is a leaf. -/
theorem exists_leaf_of_getLast? {p : Part} {c : CodePoint} (h : c ∈ p.text.getLast?)
    (hc : Name.isSpace c) : ∃ t l, p = leaf t l := by
  cases p with
  | leaf t l => exact ⟨t, l, rfl⟩
  | function t name content =>
    rw [text_function, List.getLast?_concat, Option.mem_some_iff] at h
    rw [← h] at hc
    cases hc
  | block b content =>
    rw [text_block, List.getLast?_concat, Option.mem_some_iff] at h
    rw [← h] at hc
    cases b <;> cases hc

theorem Stands.closed_leaf {front : List Part} {t : Text} {l : Leaf} {c : CodePoint}
    (h : Stands (front ++ [leaf (t ++ [c]) l])) (hmark : l ≠ .literal "\\")
    (hc : Name.isSpace c) (hhex : ∃ d ∈ t.getLast?, Name.isHex d) :
    Closed (front ++ [leaf t l]) := by
  have hall : ∀ t, piecesAll (front ++ [leaf t l]) = piecesAll front ++ [⟨t, .leaf l⟩] := by
    simp [pieces]
  obtain ⟨d, hd, hhex⟩ := hhex
  -- The escape by number is left at the end, and its last digit is no blank.
  refine ⟨?_, ⟨fun q hq => ?_, fun e he => h.sound.normal e ?_⟩, fun e he => ?_⟩
  · rw [hall]
    refine h.spelled_cut (hall _) ⟨d, hd, (Scan.isGood_of_isHex d hhex).1⟩ ?_
      (.inr ⟨c, rfl, hc, d, hd, hhex⟩)
    rintro (⟨name, hname⟩ | hl)
    · cases hname
    · exact hmark (Token.leaf.inj hl)
  · rw [hall, List.mem_append, List.mem_singleton] at hq
    rcases hq with hq | rfl
    · exact h.sound.short q (by rw [hall]; exact List.mem_append_left _ hq)
    · exact h.sound.short ⟨t ++ [c], .leaf l⟩ (by rw [hall]; simp)
  · simp only [textAll_append, textAll_cons, text_leaf, textAll_nil, List.append_nil,
      List.mem_append] at he ⊢
    exact he.imp_right .inl
  · simp only [textAll_append, textAll_cons, text_leaf, textAll_nil, List.append_nil,
      List.getLast?_append, Option.mem_def.1 hd, Option.some_or, Option.mem_some_iff] at he
    rw [← he]
    exact not_isBlank_of_isHex hhex

/-- **Parts that keep their ends are a text by themselves**, up to the space after an escape. -/
theorem EndsKept.exists_closed {ps : List Part} (h : EndsKept ps) (hstands : Stands ps)
    (hspace : ∀ p ∈ ps.getLast?, p.isSpace = false) : ∃ qs rest, textAll ps = textAll qs ++ rest ∧
      (∀ c ∈ rest, Text.isBlank c) ∧ Closed qs ∧ values qs = values ps := by
  rcases List.eq_nil_or_concat ps with rfl | ⟨front, p, hps⟩
  · exact ⟨[], [], rfl, by simp, ⟨trivial, sound_nil, fun c hc => by cases hc⟩, rfl⟩
  rw [List.concat_eq_append] at hps
  subst hps
  have hp : p.isSpace = false := hspace p (by simp)
  have hmark : p.isBackslash = false := h.mark p (by simp)
  by_cases hblank : ∀ c ∈ (textAll (front ++ [p])).getLast?, Text.isBlank c = false
  · exact ⟨front ++ [p], [], by simp, by simp, hstands.closed hp hmark hblank, rfl⟩
  -- The last code point is blank, so it is the space after an escape, and the part is a leaf.
  simp only [not_forall, Bool.not_eq_false] at hblank
  obtain ⟨c, hc, hblank⟩ := hblank
  obtain ⟨hends, d, hd, hhex⟩ := h.last c hc hblank
  obtain ⟨after, -, hspelled⟩ := (hstands.suffix (List.suffix_append front [p])).before
  obtain ⟨e, t, htext, he⟩ := exists_text_eq_cons hspelled hp
  have hall : ∀ p, textAll (front ++ [p]) = textAll front ++ p.text := by simp
  rw [hall, htext, List.getLast?_append_of_ne_nil _ (List.cons_ne_nil e t)] at hc
  obtain ⟨text, l, rfl⟩ := exists_leaf_of_getLast? (by rwa [htext]) hends
  rw [text_leaf] at htext
  subst htext
  obtain ⟨t', ht⟩ := List.getLast?_eq_some_iff.1 hc
  have hne : t' ≠ [] := by
    rintro rfl
    rw [(List.cons.inj ht).1, hends] at he
    cases he
  rw [hall, text_leaf, ht, ← List.append_assoc, List.dropLast_concat,
    List.getLast?_append_of_ne_nil _ hne] at hd
  rw [ht] at hstands ⊢
  have hleaf : l ≠ .space := by
    rintro rfl
    cases hp
  refine ⟨front ++ [leaf t' l], [c], by simp, ?_, hstands.closed_leaf ?_ hends ⟨d, hd, hhex⟩, ?_⟩
  · intro a ha
    rwa [List.mem_singleton.1 ha]
  · rintro rfl
    cases hmark
  · simp only [values_append, values, value_leaf hleaf]

/-- What is stored of parts that keep their ends is read to the parts without the spaces at their
ends. -/
theorem Stands.exists_read {ps : List Part} (h : Stands ps) (hkept : EndsKept (core ps)) :
    ∃ cs, Component.ofText (normalize (Text.trim (textAll ps))) = .ok cs ∧
      values (ofSource (Text.trim (textAll ps)) cs) = values (core ps) := by
  obtain ⟨front, back, (hps : ps = front ++ core ps ++ back), hfront, hback⟩ :=
    exists_stripped isSpace ps
  -- What is taken off as parts is taken off as blanks, and then perhaps one blank more.
  have hspaces : (∀ c ∈ textAll front, Name.isSpace c) ∧ ∀ c ∈ textAll back, Name.isSpace c := by
    have htold := h.told
    rw [hps, piecesAll_append, piecesAll_append] at htold
    exact ⟨isSpace_of_told (fun q hq => htold q (by simp [hq])) hfront,
      isSpace_of_told (fun q hq => htold q (by simp [hq])) hback⟩
  have hcore : Stands (core ps) := by
    rw [hps, List.append_assoc] at h
    exact (h.suffix (List.suffix_append front _)).left fun after => stops_of_spaces hspaces.2
  obtain ⟨qs, rest, htext, hrest, hclosed, hvalues⟩ :=
    hkept.exists_closed hcore getLast?_stripped
  have hhead : ∀ c ∈ (textAll qs).head?, Text.isBlank c = false := fun c hc =>
    hkept.head c (by rw [htext, List.head?_append, Option.mem_def.1 hc]; rfl)
  have hends : ∀ c ∈ rest ++ textAll back, Text.isBlank c := fun c hc =>
    (List.mem_append.1 hc).elim (hrest c) fun hc => Text.isBlank_of_isSpace (hspaces.2 c hc)
  have htrim : Text.trim (textAll ps) = textAll qs := by
    conv_lhs => rw [hps, textAll_append, textAll_append, htext]
    rw [← List.append_assoc, List.append_assoc]
    exact stripped_append (fun c hc => Text.isBlank_of_isSpace (hspaces.1 c hc)) hends hhead
      hclosed.last
  rw [htrim, normalize_eq_self hclosed.sound.normal]
  refine ⟨locatedAll 0 qs, ofText_textAll hclosed.sound.short hclosed.spelled, ?_⟩
  rw [ofSource_textAll hclosed.sound.normal, hvalues]

end Part

/-! ## Style sheets -/

namespace Sheet

open FluidCss.Part

/-- What is read of a text says the same as some parts do. -/
def ReadsTo (text : Text) (ps : List Part) : Prop :=
  ∃ cs, Component.ofText (normalize text) = .ok cs ∧ values (ofSource text cs) = values ps

/-- **What is stored of a statement says what the statement says.** In a source without faults and
open brackets, every selector, value and parameters are the text of a slice without the blanks at
its ends, and are read to the tokens of the slice without the spaces at its ends, if these tokens
keep their ends. -/
theorem parse_keeps_tokens {source : Text} {cs : List Component} {nodes : List Node}
    (hread : Component.ofText (normalize source) = .ok cs) (hwhole : Component.areWhole cs)
    (hparse : parse source = .ok nodes) :
    List.Forall₂ (fun slice stored => stored = Text.trim (textAll slice) ∧
      (EndsKept (core slice) → ReadsTo stored (core slice)))
      (slices [] (ofSource source cs)) (Node.storedAll nodes) := by
  obtain ⟨ps, htext, rfl, hspelled, htokens, hshort⟩ := exists_spelled hwhole hread
  obtain ⟨_, hok, hnodes⟩ := bind_eq_ok.1 hparse
  cases hread.symm.trans hok
  have hplaced : Placed (normalize source) 0 ps (normalize source).length := htext ▸ placed_zero ps
  have hstands : Stands ps :=
    ⟨htokens, ⟨hshort, htext ▸ normalizePoint_of_mem_normalize⟩, [], stops_nil, hspelled⟩
  rw [ofSource, parts_located ps hplaced]
  refine (((nodesOf_eq_ok_iff hplaced).1 hnodes).stored hstands).imp ?_
  rintro slice stored ⟨rfl, hslice⟩
  exact ⟨rfl, hslice.exists_read⟩

/-- A source in which a selector, a value and parameters end in escapes. -/
def escapedEnds : Text := "a\\ b\\41 \x7bc:'d\\'' \\e9 ;\x7d@f (g) \\68\n;"

def escapedTexts : List Text := ["a\\ b\\41", "'d\\'' \\e9", "(g) \\68"]

theorem exists_parse (source : Text) {f : List Node → List Text} {texts : List Text}
    (h : (parse source).toOption.map f = some texts) :
    ∃ nodes, parse source = .ok nodes ∧ f nodes = texts := by
  cases hparse : parse source with
  | error e =>
    rw [hparse] at h
    cases h
  | ok nodes =>
    rw [hparse] at h
    exact ⟨nodes, rfl, Option.some.inj h⟩

theorem parse_keeps_tokens_escapedEnds : ∃ cs nodes,
    Component.ofText (normalize escapedEnds) = .ok cs ∧ parse escapedEnds = .ok nodes ∧
    Node.storedAll nodes = escapedTexts ∧
    (∀ slice ∈ slices [] (ofSource escapedEnds cs), EndsKept (core slice)) ∧
    List.Forall₂ (fun slice stored => stored = Text.trim (textAll slice) ∧
      (EndsKept (core slice) → ReadsTo stored (core slice)))
      (slices [] (ofSource escapedEnds cs)) (Node.storedAll nodes) := by
  have hread : Component.ofText (normalize escapedEnds) =
      .ok (Component.ofLexemes (Lexeme.scan 0 0 escapedEnds)) := rfl
  have hstored : (parse escapedEnds).toOption.map Node.storedAll = some escapedTexts := by
    decide +kernel
  obtain ⟨nodes, hparse, hstored⟩ := exists_parse escapedEnds hstored
  exact ⟨_, nodes, hread, hparse, hstored, by decide +kernel,
    parse_keeps_tokens hread (by decide +kernel) hparse⟩

/-- The names that stand among parts. -/
def names (ps : List Part) : List Text :=
  ps.filterMap fun
    | leaf _ (.ident name) => some name
    | _ => none

/-- The names that are read of a text. -/
def namesRead (text : Text) : List Text :=
  match Component.ofText (normalize text) with
  | .ok cs => names (values (ofSource text cs))
  | .error _ => []

theorem ReadsTo.namesRead_eq {text : Text} {ps : List Part} (h : ReadsTo text ps) :
    names (values ps) = namesRead text := by
  obtain ⟨cs, hok, hvalues⟩ := h
  simp only [namesRead, hok, hvalues]

/-- The value of this declaration ends in an escaped space. -/
def escapedSpace : Text := "a: b\\ ;"

/-- **A blank that is part of a token is lost** at the end of what is stored. The escaped space
leaves a backslash behind, which stands for no code point at the end of a text. -/
theorem escaped_space_is_lost : ¬ ∀ (source : Text) (cs : List Component) (nodes : List Node),
    Component.ofText (normalize source) = .ok cs → Component.areWhole cs →
    parse source = .ok nodes → List.Forall₂ (fun slice stored => ReadsTo stored (core slice))
      (slices [] (ofSource source cs)) (Node.storedAll nodes) := by
  intro h
  have hstored : (parse escapedSpace).toOption.map Node.storedAll = some [("b\\" : Text)] := by
    decide +kernel
  obtain ⟨nodes, hparse, hstored⟩ := exists_parse escapedSpace hstored
  have hall := h escapedSpace (Component.ofLexemes (Lexeme.scan 0 0 escapedSpace)) nodes rfl
    (by decide +kernel) hparse
  rw [hstored] at hall
  have hnames := List.forall₂_eq_eq_eq ▸ List.forall₂_map_left_iff.2
    (List.forall₂_map_right_iff.2 (hall.imp fun _ _ => ReadsTo.namesRead_eq))
  exact absurd hnames (by decide +kernel)

end Sheet

end FluidCss
