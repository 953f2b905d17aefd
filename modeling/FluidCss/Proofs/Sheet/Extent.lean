import FluidCss.Proofs.Component.Tiling
import FluidCss.Proofs.Sheet.Stored

/-!
# Where values end

A value without a semicolon goes on to the end of the block that it is in. That end is not read off
the block: it is found from what follows the block in the block around it, and a closing bracket
just before that is taken for the block's own.

**Theorem (`parse_stores`).** In a source without faults every value is stored up to its true end,
unless its block is left open, or is the last thing in one that is, and a closing bracket stands
just before the end. Such a value loses the bracket, and perhaps others before it. None gains one.

The bracket that is lost is part of the value: it is escaped, for example, or it stands in a comment
or in a block in brackets of another kind (`escaped_bracket_is_lost`).

The components tile the source, so the offset that is found for the end of a block can be compared
with the true one (`Guess`). A guess for a block gives one for the last block in it
(`Guess.contentEnd`), and the induction is over the components.
-/

namespace FluidCss

namespace Text

theorem between_append {start mid stop : Nat} (t : Text) (hmid : start ≤ mid) (hstop : mid ≤ stop) :
    between t start mid ++ between t mid stop = between t start stop := by
  have hdrop : t.drop mid = (t.drop start).drop (mid - start) := by
    rw [List.drop_drop, Nat.add_sub_cancel' hmid]
  rw [between, between, between, hdrop, ← List.take_add]
  congr 1
  omega

theorem getElem?_of_mem_between {t : Text} {start stop : Nat} {c : CodePoint}
    (h : c ∈ between t start stop) : ∃ i, start ≤ i ∧ i < stop ∧ t[i]? = some c := by
  obtain ⟨i, hi⟩ := List.mem_iff_getElem?.1 h
  rw [between, List.getElem?_take] at hi
  split at hi
  · rw [List.getElem?_drop] at hi
    exact ⟨start + i, by omega, by omega, hi⟩
  · cases hi

end Text

namespace Node

mutual

/-- The values of the declarations in a node. -/
def values : Node → List Text
  | declaration _ value => [value]
  | comment _ => []
  | rule _ children | atRule _ _ _ children | root children => valuesAll children

def valuesAll : List Node → List Text
  | [] => []
  | n :: ns => values n ++ valuesAll ns

end

end Node

namespace Sheet

open Component

/-! ## Extents -/

/-- Where the value of a declaration stands in a source: up to a semicolon, or to the true end of
the block that it is in. -/
structure Extent where
  /-- Just behind the colon. -/
  start : Nat
  /-- At the semicolon or the closing bracket of the block, or at the end of the source. -/
  stop : Nat
  /-- The value ends with a block which is left open, or which is the last thing in another block of
  this kind. -/
  loose : Bool
  deriving DecidableEq

/-- The value of a statement without a block, if it is a declaration. -/
def extentOf (components : List Component) (stop : Nat) (loose : Bool) : List Extent :=
  match atKeyword? components with
  | some _ => []
  | none =>
    match components.dropWhile fun c => !isLiteral ":" c with
    | [] => []
    | colon :: _ => [⟨colon.start + 1, stop, loose⟩]

mutual

/-- The values in a block of a text of the given length; `loose` tells of the block around it, if
this is the last thing in it. -/
def extentsIn (length : Nat) (loose : Bool) : Component → List Extent
  | .block _ .curly content close =>
    extents length (close.getD length) (loose || close.isNone) [] content
  | _ => []

/-- The values in a block that ends at `stop`; `pending` is the statement begun before. -/
def extents (length stop : Nat) (loose : Bool) (pending : List Component) :
    List Component → List Extent
  | [] => extentOf pending stop loose
  | c :: cs =>
    match roleOf c, pending with
    | .space, [] => extents length stop loose [] cs
    | .comment _, [] => extents length stop loose [] cs
    | .semicolon, [] => extents length stop loose [] cs
    | .semicolon, p :: ps => extentOf (p :: ps) c.start false ++ extents length stop loose [] cs
    | .block, _ => extentsIn length (loose && cs.isEmpty) c ++ extents length stop loose [] cs
    | _, pending => extents length stop loose (pending ++ [c]) cs

end

/-- What is stored as a value: the text up to its end, or up to some closing brackets before that,
without the blanks around it. It is the whole text unless a bracket is taken for that of a block. -/
structure Stores (text : Text) (e : Extent) (value : Text) : Prop where
  cut : ∃ stop ≤ e.stop, value = Text.trim (text.between e.start stop) ∧
    ∀ p ∈ text.between stop e.stop, p = '\x7d'
  whole_iff : value = Text.trim (text.between e.start e.stop) ↔
    ¬ (e.loose ∧ text[e.stop - 1]? = some (.char '\x7d'))

/-! ## Guessed ends -/

/-- An offset that is found for the end of a block. Nothing but closing brackets stands between it
and the true end, and it is the true end unless that is loose with a bracket just before it. -/
structure Guess (text : Text) (stop : Nat) (loose : Bool) (found : Nat) : Prop where
  le : found ≤ stop
  brackets : ∀ i, found ≤ i → i < stop → text[i]? = some (.char '\x7d')
  eq_iff : found = stop ↔ ¬ (loose ∧ text[stop - 1]? = some (.char '\x7d'))

namespace Guess

variable {text : Text} {stop found : Nat} {loose : Bool}

theorem exact (text : Text) (stop : Nat) : Guess text stop false stop :=
  ⟨Nat.le_refl _, fun _ _ _ => by omega, by simp⟩

/-- A block that something follows is closed, and its closing bracket is found. -/
theorem contentEnd_cons {start : Nat} {content cs : List Component} {close : Option Nat}
    {c : Component} (hstop : stop ≤ text.length)
    (htiles : Tiles text start (.block start .curly content close :: c :: cs) stop) :
    ∃ i, close = some i ∧ contentEnd text (c :: cs) found = i := by
  cases htiles with
  | block _ hends htail =>
    have hlt := htail.lt
    cases hends with
    | left => omega
    | @closed i hclose =>
      refine ⟨i, rfl, ?_⟩
      rw [contentEnd, htail.start_eq]
      exact if_pos ⟨Nat.succ_ne_zero i, hclose⟩

/-- Where nothing follows a block, one bracket is taken off, if there is one. -/
theorem contentEnd_nil (text : Text) (found : Nat) :
    (contentEnd text [] found + 1 = found ∧ text[found - 1]? = some (.char '\x7d')) ∨
      (contentEnd text [] found = found ∧
        (found ≠ 0 → text[found - 1]? ≠ some (.char '\x7d'))) := by
  unfold contentEnd
  dsimp only
  split
  · rename_i h
    exact .inl ⟨by omega, h.2⟩
  · rename_i h
    exact .inr ⟨rfl, fun hne hbracket => h ⟨hne, hbracket⟩⟩

/-- A bracket that is taken off where none is the block's own is one too many. -/
theorem contentEnd_loose (hpos : 0 < stop) (hle : found ≤ stop)
    (hbrackets : ∀ i, found ≤ i → i < stop → text[i]? = some (.char '\x7d')) :
    Guess text stop true (contentEnd text [] found) := by
  have hfound := contentEnd_nil text found
  generalize Sheet.contentEnd text [] found = new at hfound
  refine ⟨by omega, fun i hi histop => ?_, fun heq hbracket => ?_, fun hbracket => ?_⟩
  · by_cases hfoundi : found ≤ i
    · exact hbrackets i hfoundi histop
    rcases hfound with ⟨hnew, htext⟩ | ⟨hnew, -⟩
    · rwa [show i = found - 1 by omega]
    · omega
  · obtain rfl : found = stop := by omega
    rcases hfound with ⟨hnew, -⟩ | ⟨-, hlast⟩
    · omega
    · exact hlast (by omega) hbracket.2
  · have hlast : text[stop - 1]? ≠ some (.char '\x7d') := fun h => hbracket ⟨rfl, h⟩
    obtain rfl : found = stop := by
      -- If there were brackets left, the last point before the end would be one.
      by_contra hne
      exact hlast (hbrackets (stop - 1) (by omega) (by omega))
    rcases hfound with ⟨-, htext⟩ | ⟨hnew, -⟩
    · exact absurd htext hlast
    · exact hnew

/-- Where the last block is closed its own bracket is taken off, unless one was lost before. -/
theorem contentEnd_closed {i : Nat} (h : Guess text (i + 1) loose found) (hpos : 0 < i)
    (hclose : text[i]? = some (.char '\x7d')) : Guess text i loose (contentEnd text [] found) := by
  by_cases hexact : found = i + 1
  · have hloose : loose = false := by
      simpa [hclose] using h.eq_iff.1 hexact
    have hfound : Sheet.contentEnd text [] found = i := by
      rcases contentEnd_nil text found with ⟨hnew, -⟩ | ⟨-, hlast⟩
      · omega
      · rw [hexact] at hlast
        exact absurd hclose (hlast (Nat.succ_ne_zero i))
    rw [hfound, hloose]
    exact exact text i
  -- The guess lies below the end already, since a bracket was lost before.
  · have hloose : loose = true := by
      by_contra hloose
      exact hexact (h.eq_iff.2 fun hboth => hloose hboth.1)
    have hle : found ≤ i := by
      have := h.le
      omega
    rw [hloose]
    exact contentEnd_loose hpos hle fun j hj hji => h.brackets j hj (by omega)

/-- **The end that is found for a block is a guess for its true end**, if so is the end that was
found for the block around it. -/
theorem contentEnd {start : Nat} {content cs : List Component} {close : Option Nat}
    (h : Guess text stop loose found) (hstop : stop ≤ text.length)
    (htiles : Tiles text start (.block start .curly content close :: cs) stop) :
    Guess text (close.getD text.length) (loose && cs.isEmpty || close.isNone)
      (contentEnd text cs found) := by
  cases cs with
  | cons c cs =>
    obtain ⟨i, rfl, hfound⟩ := contentEnd_cons hstop htiles
    rw [hfound]
    simpa using exact text i
  | nil =>
    cases htiles with
    | block hcontent hends htail =>
      cases htail
      have hpos : 0 < close.getD text.length := Nat.zero_lt_of_lt hcontent.le
      cases hends with
      | left => simpa using contentEnd_loose hpos h.le h.brackets
      | closed hclose => simpa using contentEnd_closed h hpos hclose

theorem stores {start : Nat} (h : Guess text stop loose found) (hstart : start ≤ found) :
    Stores text ⟨start, stop, loose⟩ (Text.trim (text.between start found)) := by
  have hbracket : ∀ p ∈ text.between found stop, p = '\x7d' := by
    intro p hp
    obtain ⟨i, hi, histop, htext⟩ := Text.getElem?_of_mem_between hp
    exact Option.some.inj (htext.symm.trans (h.brackets i hi histop))
  refine ⟨⟨found, h.le, rfl, hbracket⟩,
    Iff.trans ⟨fun htrim => ?_, fun heq => by rw [heq]⟩ h.eq_iff⟩
  -- With brackets cut off the text has lost a point that is no blank, so it differs.
  by_contra hne
  have hlt : found < stop := by
    have := h.le
    omega
  have hnil : text.between found stop ≠ [] := by
    have hfound := h.brackets found (Nat.le_refl _) hlt
    have hlength : found < text.length := (List.getElem?_eq_some_iff.1 hfound).1
    rw [← List.length_pos_iff, Text.between, List.length_take, List.length_drop]
    omega
  rw [← Text.between_append text hstart h.le] at htrim
  refine Text.trim_append_ne hnil (fun p hp => ?_) htrim.symm
  rw [hbracket p hp]
  decide

/-- A mark that is no bracket stands before a guessed end. -/
theorem lt_of_ne {i : Nat} {c : CodePoint} (h : Guess text stop loose found) (hi : i < stop)
    (htext : text[i]? = some c) (hc : c ≠ '\x7d') : i < found := by
  by_contra hle
  rw [h.brackets i (by omega) hi] at htext
  exact hc (Option.some.inj htext).symm

end Guess

/-! ## Statements -/

/-- What follows a colon is stored up to the end that was found. -/
theorem sliceFrom_eq {text : Text} {start stop found : Nat} {cs : List Component}
    (h : Tiles text start cs stop) (hfound : found ≤ stop) :
    sliceFrom text cs found = Text.trim (text.between start found) := by
  cases cs with
  | nil =>
    cases h
    rw [Text.between, Nat.sub_eq_zero_of_le hfound]
    rfl
  | cons c cs =>
    rw [sliceFrom, h.start_eq]
    rfl

/-- **The value of a statement is stored up to the end that was found for its block.** -/
theorem statementOf_stores {text : Text} {start stop found : Nat} {loose : Bool}
    {pending : List Component} {node : Node} (htiles : Tiles text start pending stop)
    (hguess : Guess text stop loose found) (hok : statementOf text pending found = .ok node) :
    List.Forall₂ (Stores text) (extentOf pending stop loose) node.values := by
  unfold statementOf at hok
  unfold extentOf
  cases hkeyword : atKeyword? pending with
  | some found =>
    rw [hkeyword] at hok
    cases hok
    exact .nil
  | none =>
    simp only [hkeyword] at hok ⊢
    rcases exists_first (isLiteral ":") pending with
      hnone | ⟨front, colon, back, rfl, hfront, hcolon⟩
    · rw [declarationOf_noColon text found hnone] at hok
      cases hok
    · rw [declarationOf_colon text found hfront hcolon] at hok
      rw [dropWhile_colon hfront hcolon]
      split at hok
      · cases hok
      cases hok
      obtain ⟨i, rfl⟩ := isLiteral_iff.1 hcolon
      obtain ⟨next, -, htiles⟩ := htiles.of_append
      have hlt := htiles.lt
      cases htiles with
      | leaf hne htext htold htail =>
        obtain rfl := htold
        have hcolon : text[i]? = some (.char ':') := by
          obtain ⟨rest, hrest⟩ := htext
          have hhead : (text.drop i)[0]? = some (.char ':') := by
            rw [← hrest]
            rfl
          rwa [List.getElem?_drop, Nat.add_zero] at hhead
        -- The colon is no bracket, so a guessed end cannot lie before it.
        have hfound := hguess.lt_of_ne hlt hcolon (by decide)
        rw [sliceFrom_eq htail hguess.le]
        exact .cons (hguess.stores hfound) .nil

theorem extents_more {length stop : Nat} {loose : Bool} {pending : List Component} {c : Component}
    {cs : List Component} (hpending : pending ≠ []) (hsemicolon : roleOf c ≠ .semicolon)
    (hblock : roleOf c ≠ .block) :
    extents length stop loose pending (c :: cs) =
      extents length stop loose (pending ++ [c]) cs := by
  obtain ⟨p, ps, rfl⟩ := List.exists_cons_of_ne_nil hpending
  cases hrole : roleOf c with
  | semicolon => exact absurd hrole hsemicolon
  | block => exact absurd hrole hblock
  | _ => simp only [extents, hrole]

theorem values_blockOf (text : Text) (components : List Component) (stop : Nat)
    (children : List Node) :
    (blockOf text components stop children).values = Node.valuesAll children := by
  unfold blockOf
  split <;> rw [Node.values]

/-! ## Blocks -/

mutual

theorem childrenOf_stores (text : Text) {start stop found : Nat} {loose : Bool}
    {cs : List Component} {children : List Node} :
    ∀ c : Component, roleOf c = .block → Tiles text start (c :: cs) stop → stop ≤ text.length →
      Guess text stop loose found → childrenOf text (contentEnd text cs found) c = .ok children →
      List.Forall₂ (Stores text) (extentsIn text.length (loose && cs.isEmpty) c)
        (Node.valuesAll children)
  | .block _ .curly content _, _, htiles, hstop, hguess, hok => by
    obtain rfl := htiles.start_eq
    have hcontent := hguess.contentEnd hstop htiles
    cases htiles with
    | block hinside hends htail =>
      have hclose := hends.le.trans htail.le
      exact nodesOf_stores text [] content hinside (by omega) hcontent hok
  | .block _ .round .., h, _, _, _, _ => by cases h
  | .block _ .square .., h, _, _, _, _ => by cases h
  | .fault .., h, _, _, _, _ => by cases h
  | .function .., h, _, _, _, _ => by cases h
  | .leaf start l, h, _, _, _, _ => absurd h (roleOf_leaf_ne_block start l)

/-- Reading a block stores its values up to their ends, whatever statement was begun before. -/
theorem nodesOf_stores (text : Text) {start stop found : Nat} {loose : Bool} {nodes : List Node}
    (pending : List Component) : ∀ cs : List Component, Tiles text start (pending ++ cs) stop →
      stop ≤ text.length → Guess text stop loose found →
      nodesOf text found pending cs = .ok nodes →
      List.Forall₂ (Stores text) (extents text.length stop loose pending cs) (Node.valuesAll nodes)
  | [], htiles, hstop, hguess, hok => by
    rw [List.append_nil] at htiles
    by_cases hpending : pending = []
    · subst hpending
      cases hok
      exact .nil
    · obtain ⟨node, hnode, rfl⟩ := (Part.nodesOf_nil_iff hpending).1 hok
      rw [Node.valuesAll, Node.valuesAll, List.append_nil, extents]
      exact statementOf_stores htiles hguess hnode
  | c :: cs, htiles, hstop, hguess, hok => by
    obtain ⟨mid, hbefore, hcs⟩ := htiles.of_append
    obtain ⟨next, -, htail⟩ : ∃ next, Tiles text mid [c] next ∧ Tiles text next cs stop :=
      hcs.of_append
    cases Part.taken_of_ok hok with
    | space hpending hrole hrest | semicolon hpending hrole hrest =>
      subst hpending
      simp only [extents, hrole]
      exact nodesOf_stores text [] cs htail hstop hguess hrest
    | comment hpending hrole hrest =>
      subst hpending
      simp only [extents, hrole, Node.valuesAll, Node.values, List.nil_append]
      exact nodesOf_stores text [] cs htail hstop hguess hrest
    | statement hpending hrole hnode hrest =>
      obtain ⟨p, ps, rfl⟩ := List.exists_cons_of_ne_nil hpending
      simp only [extents, hrole, Node.valuesAll]
      obtain rfl := hcs.start_eq
      exact List.rel_append (statementOf_stores hbefore (.exact text c.start) hnode)
        (nodesOf_stores text [] cs htail hstop hguess hrest)
    -- The end of the content is guessed anew, and what follows the block has the end that was
    -- given.
    | block hrole hchildren hrest =>
      simp only [extents, hrole, Node.valuesAll, values_blockOf]
      exact List.rel_append (childrenOf_stores text c hrole hcs hstop hguess hchildren)
        (nodesOf_stores text [] cs htail hstop hguess hrest)
    | begin hpending hrole hrest =>
      subst hpending
      simp only [extents, hrole, List.nil_append]
      exact nodesOf_stores text [c] cs htiles hstop hguess hrest
    | more hpending hsemicolon hblock hrest =>
      rw [extents_more hpending hsemicolon hblock]
      exact nodesOf_stores text (pending ++ [c]) cs (by simpa using htiles) hstop hguess hrest

end

/-! ## Style sheets -/

/-- **Each value is stored up to its true end**, unless its block is left open, or is the last thing
in one that is, and a closing bracket stands just before that end. -/
theorem parse_stores {source : Text} {cs : List Component} {nodes : List Node}
    (hread : ofText (normalize source) = .ok cs) (hfaults : faultsAll cs = [])
    (hparse : parse source = .ok nodes) :
    List.Forall₂ (Stores (normalize source))
      (extents (normalize source).length (normalize source).length false [] cs)
      (Node.valuesAll nodes) := by
  obtain ⟨_, hok, hnodes⟩ := bind_eq_ok.1 hparse
  cases hread.symm.trans hok
  exact nodesOf_stores _ [] cs (tiles_ofText hread hfaults) (Nat.le_refl _) (.exact _ _) hnodes

/-- A source with a block that is closed and two that are left open. -/
def nestedBlocks : Text := "a\x7bb:c\x7d d\x7be\x7bf: g\\\x7d"

theorem parse_stores_nestedBlocks : ∃ cs nodes,
    ofText (normalize nestedBlocks) = .ok cs ∧ faultsAll cs = [] ∧
    parse nestedBlocks = .ok nodes ∧ Node.valuesAll nodes = ["c", "g\\"] ∧
    List.Forall₂ (Stores (normalize nestedBlocks))
      (extents (normalize nestedBlocks).length (normalize nestedBlocks).length false [] cs)
      (Node.valuesAll nodes) := by
  have hread : ofText (normalize nestedBlocks) =
      .ok (ofLexemes (Lexeme.scan 0 0 nestedBlocks)) := rfl
  have hfaults : faultsAll (ofLexemes (Lexeme.scan 0 0 nestedBlocks)) = [] := by decide +kernel
  have hvalues : (parse nestedBlocks).toOption.map Node.valuesAll =
      some [("c" : Text), ("g\\" : Text)] := by decide +kernel
  obtain ⟨nodes, hparse, hvalues⟩ := exists_parse nestedBlocks hvalues
  exact ⟨_, nodes, hread, hfaults, hparse, hvalues, parse_stores hread hfaults hparse⟩

/-- A block that is left open, with an escaped bracket at its end. -/
def escapedBracket : Text := "a\x7bb:c\\\x7d"

/-- **A bracket can be lost**: an escaped one is part of the value, but it is taken for that of the
block. -/
theorem escaped_bracket_is_lost : ¬ ∀ (source : Text) (cs : List Component) (nodes : List Node),
    ofText (normalize source) = .ok cs → faultsAll cs = [] → parse source = .ok nodes →
    List.Forall₂ (fun e value => value = Text.trim ((normalize source).between e.start e.stop))
      (extents (normalize source).length (normalize source).length false [] cs)
      (Node.valuesAll nodes) := by
  intro h
  have hvalues : (parse escapedBracket).toOption.map Node.valuesAll = some [("c\\" : Text)] := by
    decide +kernel
  obtain ⟨nodes, hparse, hvalues⟩ := exists_parse escapedBracket hvalues
  have hall := h escapedBracket (ofLexemes (Lexeme.scan 0 0 escapedBracket)) nodes rfl
    (by decide +kernel) hparse
  have hextents : extents (normalize escapedBracket).length (normalize escapedBracket).length
      false [] (ofLexemes (Lexeme.scan 0 0 escapedBracket)) = [⟨4, 7, true⟩] := by decide +kernel
  rw [hvalues, hextents, List.forall₂_cons] at hall
  exact absurd hall.1 (by decide +kernel)

end Sheet

end FluidCss
