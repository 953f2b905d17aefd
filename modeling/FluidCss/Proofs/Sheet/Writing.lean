import FluidCss.Proofs.Sheet.Reading

/-!
# Writing what was read

**Theorem (`parse_css`).** A style sheet that was read without faults, escapes and odd blanks is
written in a form that reads as the same nodes.

The proof is an induction over the reading. A node is writable if at each depth its text, after
spaces, reads as the node wherever it stands (`ReadsAs`). Such a text ends in a semicolon, a bracket
or the mark of a comment, so nothing that follows can change its tokens. The parts that a selector,
a value or parameters were cut from are written again without the spaces at their ends, and a stop
follows them both times: they are steady, which is all that a rule or a declaration needs to be
writable (`Steady.writable_rule`, `Steady.writable_declaration`). -/

namespace FluidCss

open FluidCss.Part FluidCss.Piece

/-! ## Texts that read as nodes -/

/-- A text that reads as nodes wherever it stands. -/
def ReadsAs (t : Text) (nodes : List Node) : Prop :=
  ∃ ps : List Part, textAll ps = t ∧ Sound ps ∧ (∀ after, Spelled (piecesAll ps) after) ∧
    ∀ rest nodes', Reads [] rest nodes' → Reads [] (ps ++ rest) (nodes ++ nodes')

theorem ReadsAs.nil : ReadsAs [] [] :=
  ⟨[], rfl, sound_nil, fun _ => trivial, fun _ _ h => h⟩

theorem ReadsAs.append {t t' : Text} {nodes nodes' : List Node} (h : ReadsAs t nodes)
    (h' : ReadsAs t' nodes') : ReadsAs (t ++ t') (nodes ++ nodes') := by
  obtain ⟨ps, rfl, hsound, hspelled, hreads⟩ := h
  obtain ⟨ps', rfl, hsound', hspelled', hreads'⟩ := h'
  refine ⟨ps ++ ps', textAll_append ps ps', sound_append.2 ⟨hsound, hsound'⟩, fun after => ?_,
    fun rest nodes'' h => ?_⟩
  · rw [piecesAll_append, spelled_append]
    exact ⟨hspelled _, hspelled' after⟩
  · rw [List.append_assoc, List.append_assoc]
    exact hreads _ _ (hreads' _ _ h)

/-- The part of a row of spaces, if there is one. -/
def spaced (t : Text) : List Part := if t.isEmpty then [] else [leaf t .space]

@[simp] theorem textAll_spaced (t : Text) : textAll (spaced t) = t := by
  unfold spaced
  split
  · rename_i h
    simpa using (List.isEmpty_iff.1 h).symm
  · simp

theorem clean_spaced {t : Text} (h : ∀ c ∈ t, Name.isSpace c) : Clean (spaced t) := by
  unfold spaced
  split
  · exact fun p hp => absurd hp List.not_mem_nil
  · exact clean_leaf (clean_space h)

theorem spelled_spaced {t after : Text} (h : ∀ c ∈ t, Name.isSpace c)
    (hafter : ∀ c ∈ after.head?, Name.isSpace c = false) :
    Spelled (piecesAll (spaced t)) after := by
  unfold spaced
  split
  · trivial
  · rename_i hne
    exact ⟨readsIn_space (by simpa using hne) h hafter, trivial⟩

theorem Part.Reads.spaced {t : Text} {ps : List Part} {nodes : List Node} (h : Reads [] ps nodes) :
    Reads [] (spaced t ++ ps) nodes := by
  unfold FluidCss.spaced
  split
  · exact h
  · exact .space rfl h

theorem ReadsAs.spaces {s t : Text} {nodes : List Node} (hs : ∀ c ∈ s, Name.isSpace c)
    (ht : ∃ c t', t = c :: t' ∧ Name.isSpace c = false) (h : ReadsAs t nodes) :
    ReadsAs (s ++ t) nodes := by
  obtain ⟨ps, htext, hsound, hspelled, hreads⟩ := h
  obtain ⟨c, t', rfl, hc⟩ := ht
  refine ⟨spaced s ++ ps, by simp [htext], sound_append.2 ⟨(clean_spaced hs).sound, hsound⟩,
    fun after => ?_, fun rest nodes' h => ?_⟩
  · rw [piecesAll_append, spelled_append]
    refine ⟨spelled_spaced hs fun d hd => ?_, hspelled after⟩
    have htext : textOf (piecesAll ps) = c :: t' := htext
    rw [htext] at hd
    obtain rfl := Option.some.inj hd
    exact hc
  · rw [List.append_assoc]
    exact (hreads rest nodes' h).spaced

/-! ## Writable nodes -/

/-- At each depth the text of the node, after spaces, reads as the node wherever it stands. -/
def Writable (node : Node) : Prop := ∀ depth, ∃ s t, node.css depth = s ++ t ∧
  (∀ c ∈ s, Name.isSpace c) ∧ (∃ c t', t = c :: t' ∧ Name.isSpace c = false) ∧ ReadsAs t [node]

theorem isSpace_of_mem_indent {depth : Nat} : ∀ c ∈ Node.indent depth, Name.isSpace c := by
    intro c hc
    obtain rfl := List.eq_of_mem_replicate hc
    decide

theorem Writable.line {node : Node} (h : Writable node) (depth : Nat) {s : Text}
    (hs : ∀ c ∈ s, Name.isSpace c) : ReadsAs (s ++ node.css depth) [node] := by
  obtain ⟨s', t, hcss, hs', ht, hreads⟩ := h depth
  rw [hcss, ← List.append_assoc]
  refine hreads.spaces (fun c hc => ?_) ht
  exact (List.mem_append.1 hc).elim (hs c) (hs' c)

theorem Writable.css_ne_nil {node : Node} (h : Writable node) (depth : Nat) :
    node.css depth ≠ [] := by
  obtain ⟨s, t, hcss, -, ⟨c, t', rfl, -⟩, -⟩ := h depth
  simp [hcss]

/-- Nodes on lines of their own, a line end before each. -/
def lines (depth : Nat) (nodes : List Node) : Text := nodes.flatMap fun n => "\n" ++ n.css depth

theorem joinLines_cssAll (depth : Nat) (node : Node) (nodes : List Node) :
    Node.joinLines (Node.cssAll depth (node :: nodes)) = node.css depth ++ lines depth nodes := by
  induction nodes generalizing node with
  | nil => simp [Node.joinLines, Node.cssAll, Text.joined, lines]
  | cons n ns ih =>
    have hjoined : Node.joinLines (Node.cssAll depth (node :: n :: ns)) =
        node.css depth ++ "\n" ++ Node.joinLines (Node.cssAll depth (n :: ns)) := rfl
    rw [hjoined, ih]
    simp [lines]

theorem readsAs_lines {nodes : List Node} (h : ∀ n ∈ nodes, Writable n) (depth : Nat) :
    ReadsAs (lines depth nodes) nodes := by
  induction nodes with
  | nil => exact .nil
  | cons n ns ih =>
    exact ((h n List.mem_cons_self).line depth (by decide)).append
      (ih fun m hm => h m (List.mem_cons_of_mem n hm))

/-- The text of writable nodes reads as the nodes. -/
theorem readsAs_css {nodes : List Node} (h : ∀ n ∈ nodes, Writable n) :
    ReadsAs (Sheet.css nodes) nodes := by
  cases nodes with
  | nil => exact .nil
  | cons n ns =>
    have hcss : Sheet.css (n :: ns) = [] ++ n.css 0 ++ lines 0 ns := joinLines_cssAll 0 n ns
    rw [hcss]
    exact ((h n List.mem_cons_self).line 0 (fun c hc => by cases hc)).append
      (readsAs_lines (fun m hm => h m (List.mem_cons_of_mem n hm)) 0)

theorem exists_block {nodes : List Node} (h : ∀ n ∈ nodes, Writable n) (depth : Nat) :
    ∃ content, Reads [] content nodes ∧ Sound [block .curly content] ∧
      (block .curly content).text =
        Node.blockCss depth (Node.joinLines (Node.cssAll (depth + 1) nodes)) ∧
      ∀ after, Spelled (piecesAll [block .curly content]) after := by
  obtain ⟨ps, htext, hsound, hspelled, hreads⟩ := readsAs_lines h (depth + 1)
  -- The lines of the nodes are followed by the line break and the indent of the bracket.
  have hs : ∀ c ∈ ("\n" : Text) ++ Node.indent depth, Name.isSpace c := fun c hc =>
    (List.mem_append.1 hc).elim
      (fun hc => by obtain rfl := List.mem_singleton.1 hc; decide) (isSpace_of_mem_indent c)
  have hcontent : Sound (ps ++ spaced ("\n" ++ Node.indent depth)) :=
    sound_append.2 ⟨hsound, (clean_spaced hs).sound⟩
  refine ⟨ps ++ spaced ("\n" ++ Node.indent depth), ?_, ?_, ?_, fun after => ?_⟩
  · simpa using hreads _ _ (Reads.nil.spaced (t := "\n" ++ Node.indent depth))
  · exact sound_block hcontent
  · rw [text_block, textAll_append, textAll_spaced, htext]
    cases nodes with
    | nil => rfl
    | cons n ns =>
      have hne : (n.css (depth + 1) ++ lines (depth + 1) ns).isEmpty = false := by
        simp [(h n List.mem_cons_self).css_ne_nil]
      rw [joinLines_cssAll, Node.blockCss, hne, lines, List.flatMap_cons]
      simp [lines]
      rfl
  · have hclosing : Spelled [closing .curly] after := ⟨readsIn_closing .curly _, trivial⟩
    simp only [piecesAll_cons, piecesAll_nil, List.append_nil, pieces]
    refine ⟨readsIn_opening .curly _, spelled_append.2 ⟨?_, hclosing⟩⟩
    rw [piecesAll_append, spelled_append]
    refine ⟨hspelled _, spelled_spaced hs fun c hc => ?_⟩
    obtain rfl := Option.some.inj hc
    decide

/-! ## Begun statements -/

/-- The parts of a statement that has begun: no mark ends it, and neither space nor comment begins
it. -/
def Begun (ps : List Part) : Prop :=
  (∀ p ∈ ps, p.role ≠ .semicolon ∧ p.role ≠ .block) ∧ ∀ p ∈ ps.head?, p.role = .other

theorem begun_nil : Begun [] :=
  ⟨fun _ hp => absurd hp List.not_mem_nil, fun p hp => absurd hp (Option.not_mem_none p)⟩

theorem Begun.isSpace_head {ps : List Part} (h : Begun ps) :
    ∀ p ∈ ps.head?, p.isSpace = false := by
  intro p hp
  have hrole := h.2 p hp
  cases hspace : p.isSpace with
  | false => rfl
  | true =>
    unfold Part.isSpace at hspace
    split at hspace
    · cases hrole
    · cases hspace

/-- A statement that has begun keeps its first part. -/
theorem Begun.head?_core {ps : List Part} (h : Begun ps) : (core ps).head? = ps.head? :=
  head?_stripped_eq h.isSpace_head

theorem Begun.core {ps : List Part} (h : Begun ps) : Begun (core ps) :=
  ⟨fun p hp => h.1 p ((stripped_sublist isSpace ps).mem hp), by
    rw [h.head?_core]
    exact h.2⟩

theorem reads_append {pending ps rest : List Part} {nodes : List Node} (hpending : pending ≠ [])
    (hps : ∀ p ∈ ps, p.role ≠ .semicolon ∧ p.role ≠ .block) (h : Reads (pending ++ ps) rest nodes) :
    Reads pending (ps ++ rest) nodes := by
  induction ps generalizing pending with
  | nil => simpa using h
  | cons p ps ih =>
    obtain ⟨hsemicolon, hblock⟩ := hps p List.mem_cons_self
    refine .more hpending hsemicolon hblock (ih (by simp)
      (fun q hq => hps q (List.mem_cons_of_mem p hq)) ?_)
    simpa using h

theorem Begun.reads {ps rest : List Part} {nodes : List Node} (hps : Begun ps)
    (h : Reads ps rest nodes) : Reads [] (ps ++ rest) nodes := by
  cases ps with
  | nil => exact h
  | cons p ps =>
    exact .begin (hps.2 p rfl) (reads_append (List.cons_ne_nil _ _)
      (fun q hq => hps.1 q (List.mem_cons_of_mem p hq)) h)

theorem Begun.append {ps qs : List Part} (h : Begun ps) (hne : ps ≠ [])
    (hqs : ∀ p ∈ qs, p.role ≠ .semicolon ∧ p.role ≠ .block) : Begun (ps ++ qs) := by
  refine ⟨fun p hp => (List.mem_append.1 hp).elim (h.1 p) (hqs p), ?_⟩
  rw [List.head?_append_of_ne_nil _ hne]
  exact h.2

theorem Begun.left {ps qs : List Part} (h : Begun (ps ++ qs)) (hne : ps ≠ []) : Begun ps := by
  refine ⟨fun p hp => h.1 p (List.mem_append_left qs hp), ?_⟩
  rw [← List.head?_append_of_ne_nil _ hne]
  exact h.2

theorem role_gap : ∀ p ∈ [gap], p.role ≠ .semicolon ∧ p.role ≠ .block := by
  intro p hp
  obtain rfl := List.mem_singleton.1 hp
  exact ⟨nofun, nofun⟩

/-! ## Statements with their ends -/

theorem readsAs_statement {ps : List Part} {node : Node} (h : Statement ps node) (hbegun : Begun ps)
    (hsound : Sound ps) (hspelled : ∀ after, Spelled (piecesAll ps) (";" ++ after)) :
    ReadsAs (textAll ps ++ ";") [node] := by
  have hsemicolon : Sound [leaf ";" (.literal ";")] := (clean_leaf clean_semicolon).sound
  refine ⟨ps ++ [leaf ";" (.literal ";")], ?_, sound_append.2 ⟨hsound, hsemicolon⟩,
    fun after => ?_, fun rest nodes' hrest => ?_⟩
  · simp
  · rw [piecesAll_append, spelled_append]
    exact ⟨hspelled after, readsIn_semicolon _, trivial⟩
  · rw [List.append_assoc]
    exact hbegun.reads (.statement h rfl hrest)

theorem readsAs_block {ps : List Part} {children : List Node} {node : Node}
    (h : Opens children ps node) (hbegun : Begun ps) (hsound : Sound ps)
    (hspelled : ∀ after, Spelled (piecesAll ps) ("\x7b" ++ after))
    (hchildren : ∀ n ∈ children, Writable n) (depth : Nat) :
    ReadsAs (textAll ps ++ Node.blockCss depth (Node.joinLines (Node.cssAll (depth + 1) children)))
      [node] := by
  obtain ⟨content, hreads, hblock, htext, hends⟩ := exists_block hchildren depth
  refine ⟨ps ++ [block .curly content], ?_, sound_append.2 ⟨hsound, hblock⟩, fun after => ?_,
    fun rest nodes' hrest => ?_⟩
  · rw [textAll_append, textAll_cons, textAll_nil, List.append_nil, htext]
  · rw [piecesAll_append, spelled_append]
    exact ⟨hspelled _, hends after⟩
  · rw [List.append_assoc]
    exact hbegun.reads (.block hreads h hrest)

/-! ## Statements of steady parts -/

theorem trim_space_append (t : Text) : Text.trim (" " ++ Text.trim t) = Text.trim t := by
  rw [Text.trim_eq_stripped, stripped_append_left (by decide)]
  exact Text.trim_trim t

theorem trim_append_space (t : Text) : Text.trim (t ++ " ") = Text.trim t :=
  stripped_append_right (by decide)

theorem spelled_gap_block (after : Text) : Spelled (piecesAll [gap]) ("\x7b" ++ after) :=
  ⟨readsIn_space (by decide) (by decide) fun c hc => by
    obtain rfl := Option.some.inj hc
    decide, trivial⟩

/-- Parts before every stop, none of which ends a statement, with no blanks at their ends. -/
structure Part.Steady (ps : List Part) : Prop where
  sound : Sound ps
  spelled : ∀ after, Stops after → Spelled (piecesAll ps) after
  role : ∀ p ∈ ps, p.role ≠ .semicolon ∧ p.role ≠ .block
  trimmed : Text.trim (textAll ps) = textAll ps

namespace Part.Steady

variable {ps : List Part} {after : Text}

theorem isSpace_head (h : Steady ps) (hafter : ∀ c ∈ after.head?, Name.isSpace c = false) :
    ∀ c ∈ (textAll ps ++ after).head?, Name.isSpace c = false := by
  intro c hc
  cases htext : textAll ps with
  | nil =>
    rw [htext] at hc
    exact hafter c hc
  | cons d t =>
    refine Text.isSpace_eq_false_of_isBlank (Text.isBlank_head_of_trim h.trimmed c ?_)
    rw [htext] at hc ⊢
    exact hc

/-- Steady parts that have a text begin with no space. -/
theorem exists_textAll_eq_cons (h : Steady ps) (hne : textAll ps ≠ []) (after : Text) :
    ∃ c t, textAll ps ++ after = c :: t ∧ Name.isSpace c = false := by
  obtain ⟨c, t, hcons⟩ := List.exists_cons_of_ne_nil hne
  refine ⟨c, t ++ after, by rw [hcons]; rfl, ?_⟩
  exact Text.isSpace_eq_false_of_isBlank
    (Text.isBlank_head_of_trim h.trimmed c (by rw [hcons]; rfl))

/-- A declaration is written as its property and its value. -/
theorem writable_declaration {qs : List Part} (hps : Steady ps) (hqs : Steady qs)
    (hbegun : Begun ps) (hkeyword : ∀ p ∈ ps.head?, p.isKeyword = false)
    (hfront : ∀ p ∈ ps, p.isColon = false) (hproperty : textAll ps ≠ []) :
    Writable (.declaration (textAll ps) (textAll qs)) := by
  intro depth
  have hback : Text.trim (textAll (gap :: qs)) = textAll qs := by
    rw [textAll_cons, ← hqs.trimmed]
    exact trim_space_append _
  have hstatement : Statement (ps ++ leaf ":" (.literal ":") :: gap :: qs)
      (.declaration (Text.trim (textAll ps)) (Text.trim (textAll (gap :: qs)))) :=
    .declaration hkeyword hfront rfl (by rwa [hps.trimmed])
  rw [hps.trimmed, hback] at hstatement
  have hrole : ∀ p ∈ leaf ":" (.literal ":") :: gap :: qs,
      p.role ≠ .semicolon ∧ p.role ≠ .block := by
    intro p hp
    rcases List.mem_cons.1 hp with rfl | hp
    · exact ⟨nofun, nofun⟩
    rcases List.mem_cons.1 hp with rfl | hp
    · exact ⟨nofun, nofun⟩
    · exact hqs.role p hp
  have hparts : ps ≠ [] := fun he => hproperty (by rw [he]; rfl)
  have hsound : Sound (ps ++ leaf ":" (.literal ":") :: gap :: qs) :=
    sound_append.2 ⟨hps.sound, sound_append.2 ⟨(clean_leaf clean_colon).sound,
      sound_append.2 ⟨clean_gap.sound, hqs.sound⟩⟩⟩
  have hreads := readsAs_statement hstatement (hbegun.append hparts hrole) hsound fun after => by
    rw [piecesAll_append, spelled_append]
    refine ⟨hps.spelled _ (stops_cons (by decide) _), readsIn_colon _, readsIn_space (by decide)
      (by decide) (hqs.isSpace_head fun c hc => ?_), hqs.spelled _ (stops_cons (by decide) _)⟩
    obtain rfl := Option.some.inj hc
    decide
  refine ⟨Node.indent depth, _, ?_, isSpace_of_mem_indent, ?_, hreads⟩
  · simp [Node.css, gap]
    rfl
  · rw [textAll_append, List.append_assoc]
    exact hps.exists_textAll_eq_cons hproperty _

/-- A rule is written as its selector and the block of its children. Without a selector the space
before the block stands with the indent. -/
theorem writable_rule {children : List Node} (hps : Steady ps) (hbegun : Begun ps)
    (hkeyword : ∀ p ∈ ps.head?, p.isKeyword = false) (hchildren : ∀ n ∈ children, Writable n) :
    Writable (.rule (textAll ps) children) := by
  intro depth
  by_cases hselector : textAll ps = []
  · have hopens : Opens children [] (.rule (Text.trim (textAll [])) children) :=
      .rule fun p hp => absurd hp (Option.not_mem_none p)
    have hreads := readsAs_block hopens begun_nil sound_nil (fun _ => trivial) hchildren depth
    rw [hselector]
    refine ⟨Node.indent depth ++ " ", _, ?_, fun c hc => ?_, ?_, hreads⟩
    · simp [Node.css]
    · rcases List.mem_append.1 hc with hc | hc
      · exact isSpace_of_mem_indent c hc
      · obtain rfl := List.mem_singleton.1 hc
        decide
    · obtain ⟨content, -, -, htext, -⟩ := exists_block hchildren depth
      rw [← htext, text_block]
      exact ⟨'\x7b', _, rfl, by decide⟩
  · have hparts : ps ≠ [] := fun he => hselector (by rw [he]; rfl)
    have hopens : Opens children (ps ++ [gap]) (.rule (textAll ps) children) := by
      have htext : Text.trim (textAll (ps ++ [gap])) = textAll ps := by
        rw [textAll_append]
        exact (trim_append_space _).trans hps.trimmed
      rw [← htext]
      refine .rule ?_
      rwa [List.head?_append_of_ne_nil _ hparts]
    have hreads := readsAs_block hopens (hbegun.append hparts role_gap)
      (sound_append.2 ⟨hps.sound, clean_gap.sound⟩) (fun after => by
        rw [piecesAll_append, spelled_append]
        exact ⟨hps.spelled _ (stops_cons (by decide) _), spelled_gap_block after⟩) hchildren depth
    refine ⟨Node.indent depth, _, ?_, isSpace_of_mem_indent, ?_, hreads⟩
    · simp [Node.css, gap]
    · rw [textAll_append, List.append_assoc]
      exact hps.exists_textAll_eq_cons hselector _

end Part.Steady

/-! ## Statements that are written again -/

namespace Part.Cut

variable {ps : List Part}

/-- Clean parts of a statement are steady without the spaces at their ends. -/
theorem steady (h : Cut ps) (hrole : ∀ p ∈ ps, p.role ≠ .semicolon ∧ p.role ≠ .block) :
    Steady (core ps) where
  sound := h.clean.core.sound
  spelled _ hafter := h.spelled_core hafter
  role p hp := hrole p ((stripped_sublist isSpace ps).mem hp)
  trimmed := by rw [h.textAll_core, Text.trim_trim]

/-- A space before the parts, if there are any. -/
theorem spelled_gap_core (h : Cut ps) {after : Text} (hafter : Stops after) (hne : core ps ≠ []) :
    Spelled (piecesAll (gap :: core ps)) after := by
  have htrim : Text.trim (textAll ps) ≠ [] := mt h.core_eq_nil_iff.2 hne
  obtain ⟨d, t, hcons, hd⟩ := h.exists_core_eq_cons htrim after
  refine ⟨readsIn_space (by decide) (by decide) fun c hc => ?_, h.spelled_core hafter⟩
  have hc : c ∈ (textAll (core ps) ++ after).head? := hc
  rw [hcons] at hc
  obtain rfl := Option.some.inj hc
  exact hd

/-- The parameters of an at-rule with a space before them, if there are any. -/
def params (ps : List Part) : List Part := if (core ps).isEmpty then [] else gap :: core ps

theorem textAll_params (h : Cut ps) : textAll (params ps) =
    if (Text.trim (textAll ps)).isEmpty then [] else (" " : Text) ++ Text.trim (textAll ps) := by
  simp only [params, List.isEmpty_iff, h.core_eq_nil_iff]
  split
  · rfl
  · rw [textAll_cons, h.textAll_core]
    rfl

theorem trim_textAll_params (h : Cut ps) :
    Text.trim (textAll (params ps)) = Text.trim (textAll ps) := by
  rw [h.textAll_params]
  split
  · rename_i begun_nil
    rw [List.isEmpty_iff.1 begun_nil]
    rfl
  · exact trim_space_append _

theorem clean_params (h : Cut ps) : Clean (params ps) := by
  unfold params
  split
  · exact fun p hp => absurd hp List.not_mem_nil
  · exact clean_append.2 ⟨clean_gap, h.clean.core⟩

theorem spelled_params (h : Cut ps) {after : Text} (hafter : Stops after) :
    Spelled (piecesAll (params ps)) after := by
  unfold params
  split
  · trivial
  · rename_i hne
    exact h.spelled_gap_core hafter (by simpa using hne)

theorem stops_params {after : Text} (hafter : Stops after) :
    Stops (textOf (piecesAll (params ps)) ++ after) := by
  unfold params
  split
  · exact hafter
  · exact stops_cons (by decide) _

theorem role_params (hps : ∀ p ∈ ps, p.role ≠ .semicolon ∧ p.role ≠ .block) :
    ∀ p ∈ params ps, p.role ≠ .semicolon ∧ p.role ≠ .block := by
  intro p hp
  unfold params at hp
  split at hp
  · cases hp
  · rcases List.mem_cons.1 hp with rfl | hp
    · exact ⟨nofun, nofun⟩
    · exact hps p ((stripped_sublist isSpace ps).mem hp)

end Part.Cut

/-! ### At-rules -/

/-- An at-keyword with what belongs to it. -/
theorem spelled_keyword {t name : Text} {ps : List Part} {after : Text}
    (hclean : Clean [leaf t (.atKeyword name)]) (hps : Spelled (piecesAll ps) after)
    (hafter : Stops (textOf (piecesAll ps) ++ after)) :
    Spelled (piecesAll (leaf t (.atKeyword name) :: ps)) after := by
  obtain ⟨-, rfl, hident, hpart⟩ := (hclean ⟨t, .leaf (.atKeyword name)⟩ List.mem_cons_self).shape
  exact ⟨readsIn_atKeyword hident hpart hafter, hps⟩

theorem text_keyword {t name : Text} (hclean : Clean [leaf t (.atKeyword name)]) :
    t = "@" ++ name :=
  (hclean ⟨t, .leaf (.atKeyword name)⟩ List.mem_cons_self).shape.2.1

theorem Begun.params {p : Part} {rest : List Part} (h : Begun (p :: rest)) :
    Begun (p :: Cut.params rest) := by
  refine ⟨fun q hq => ?_, h.2⟩
  rcases List.mem_cons.1 hq with rfl | hq
  · exact h.1 _ List.mem_cons_self
  · exact Cut.role_params (fun q hq => h.1 q (List.mem_cons_of_mem _ hq)) q hq

theorem writable_atRule {t name : Text} {rest : List Part}
    (hcut : Cut (leaf t (.atKeyword name) :: rest))
    (hbegun : Begun (leaf t (.atKeyword name) :: rest)) :
    Writable (.atRule name (Text.trim (textAll rest)) false []) := by
  intro depth
  have hrest : Cut rest := hcut.tail
  have hkeyword : Clean [leaf t (.atKeyword name)] := hcut.clean.sublist (by simp)
  have hclean : Clean (leaf t (.atKeyword name) :: Cut.params rest) :=
    clean_append.2 ⟨hkeyword, hrest.clean_params⟩
  have hstatement : Statement (leaf t (.atKeyword name) :: Cut.params rest)
      (.atRule name (Text.trim (textAll rest)) false []) := by
    rw [← hrest.trim_textAll_params]
    exact .atRule
  have hreads := readsAs_statement hstatement hbegun.params hclean.sound fun after =>
    spelled_keyword hkeyword (hrest.spelled_params (stops_cons (by decide) _))
      (Cut.stops_params (stops_cons (by decide) _))
  refine ⟨Node.indent depth, _, ?_, isSpace_of_mem_indent, ?_, hreads⟩
  · rw [textAll_cons, text_leaf, hrest.textAll_params, text_keyword hkeyword]
    simp [Node.css, Node.atHead]
  · rw [textAll_cons, text_leaf, text_keyword hkeyword]
    exact ⟨'@', _, rfl, by decide⟩

theorem writable_atBlock {t name : Text} {rest : List Part} {children : List Node}
    (hcut : Cut (leaf t (.atKeyword name) :: rest))
    (hbegun : Begun (leaf t (.atKeyword name) :: rest))
    (hchildren : ∀ n ∈ children, Writable n) :
    Writable (.atRule name (Text.trim (textAll rest)) true children) := by
  intro depth
  have hrest : Cut rest := hcut.tail
  have hkeyword : Clean [leaf t (.atKeyword name)] := hcut.clean.sublist (by simp)
  have hclean : Clean (leaf t (.atKeyword name) :: Cut.params rest ++ [gap]) :=
    clean_append.2 ⟨clean_append.2 ⟨hkeyword, hrest.clean_params⟩, clean_gap⟩
  have hopens : Opens children (leaf t (.atKeyword name) :: Cut.params rest ++ [gap])
      (.atRule name (Text.trim (textAll rest)) true children) := by
    have htext : Text.trim (textAll (Cut.params rest ++ [gap])) = Text.trim (textAll rest) := by
      rw [textAll_append, ← hrest.trim_textAll_params]
      exact trim_append_space _
    rw [← htext]
    exact .atRule
  have hbegun' := hbegun.params.append (List.cons_ne_nil _ _) role_gap
  have hreads := readsAs_block hopens hbegun' hclean.sound (fun after => by
    rw [piecesAll_append, spelled_append]
    exact ⟨spelled_keyword hkeyword (hrest.spelled_params (stops_cons (by decide) _))
      (Cut.stops_params (stops_cons (by decide) _)), spelled_gap_block after⟩) hchildren depth
  refine ⟨Node.indent depth, _, ?_, isSpace_of_mem_indent, ?_, hreads⟩
  · rw [textAll_append, textAll_cons, text_leaf, hrest.textAll_params, text_keyword hkeyword]
    simp [Node.css, Node.atHead, gap]
  · rw [textAll_append, textAll_cons, text_leaf, text_keyword hkeyword]
    exact ⟨'@', _, rfl, by decide⟩

/-! ### Declarations and rules -/

theorem eq_of_isColon {colon : Part} (hclean : Clean [colon]) (h : colon.isColon) :
    colon = leaf ":" (.literal ":") := by
  unfold isColon at h
  split at h
  · rename_i t text
    obtain rfl := beq_iff_eq.1 h
    have hshape := (hclean ⟨t, .leaf (.literal ":")⟩ List.mem_cons_self).shape
    obtain rfl : t = ":" := hshape.2
    rfl
  · cases h

/-- A declaration. -/
theorem writable_declaration {front : List Part} {colon : Part} {back : List Part}
    (hcut : Cut (front ++ colon :: back)) (hbegun : Begun (front ++ colon :: back))
    (hkeyword : ∀ p ∈ front.head?, p.isKeyword = false) (hfront : ∀ p ∈ front, p.isColon = false)
    (hcolon : colon.isColon) (hproperty : Text.trim (textAll front) ≠ []) :
    Writable (.declaration (Text.trim (textAll front)) (Text.trim (textAll back))) := by
  obtain rfl := eq_of_isColon ((clean_append.1 hcut.clean).2.sublist (by simp)) hcolon
  have hne : front ≠ [] := fun he => hproperty (by rw [he]; rfl)
  have hproperty' : Cut front := hcut.left fun after _ => stops_cons (by decide) _
  have hvalue : Cut back := hcut.right.tail
  have hbegun' : Begun front := hbegun.left hne
  have hback : ∀ p ∈ back, p.role ≠ .semicolon ∧ p.role ≠ .block := fun p hp =>
    hbegun.1 p (List.mem_append_right front (List.mem_cons_of_mem _ hp))
  have hwritable := (hproperty'.steady hbegun'.1).writable_declaration (hvalue.steady hback)
    hbegun'.core (by rwa [hbegun'.head?_core])
    (fun p hp => hfront p ((stripped_sublist isSpace front).mem hp))
    (by rwa [hproperty'.textAll_core])
  rwa [hproperty'.textAll_core, hvalue.textAll_core] at hwritable

theorem writable_rule {ps : List Part} {children : List Node} (hcut : Cut ps) (hbegun : Begun ps)
    (hkeyword : ∀ p ∈ ps.head?, p.isKeyword = false) (hchildren : ∀ n ∈ children, Writable n) :
    Writable (.rule (Text.trim (textAll ps)) children) := by
  have hwritable := (hcut.steady hbegun.1).writable_rule hbegun.core (by rwa [hbegun.head?_core])
    hchildren
  rwa [hcut.textAll_core] at hwritable

/-! ### Comments -/

theorem eq_of_role_comment {p : Part} {text : Text} (h : p.role = .comment text) :
    ∃ t closed, p = leaf t (.comment text closed) := by
  obtain ⟨_, closed, hp⟩ := Sheet.Role.fits_of_roleOf h
  cases p with
  | leaf t l =>
    cases hp
    exact ⟨t, closed, rfl⟩
  | _ => cases hp

theorem eq_of_role_semicolon {p : Part} (htold : ∀ q ∈ piecesAll [p], q.token.Told q.text)
    (h : p.role = .semicolon) : p = leaf ";" (.literal ";") := by
  obtain ⟨_, hp⟩ := Sheet.Role.fits_of_roleOf h
  cases p with
  | leaf t l =>
    cases hp
    obtain rfl : t = ";" := htold ⟨t, .leaf (.literal ";")⟩ List.mem_cons_self
    rfl
  | _ => cases hp

theorem writable_comment {p : Part} {ps : List Part} {text : Text} (hcut : Cut (p :: ps))
    (hrole : p.role = .comment text) : Writable (.comment text) := by
  intro depth
  obtain ⟨t, closed, rfl⟩ := eq_of_role_comment hrole
  have hclean := hcut.clean ⟨t, .leaf (.comment text closed)⟩ List.mem_cons_self
  obtain rfl : closed = true := hclean.whole
  obtain ⟨after, -, hspelled⟩ := hcut.spelled
  have ht : t = "/*" ++ text ++ "*/" := hclean.shape.2
  refine ⟨Node.indent depth, t, ?_, isSpace_of_mem_indent, ?_,
    [leaf t (.comment text true)], by simp,
    (clean_leaf hclean).sound, fun after' => ⟨readsIn_comment hspelled.1 hclean _, trivial⟩,
    fun rest nodes h => .comment rfl h⟩
  · simp [Node.css, ht]
  · rw [ht]
    exact ⟨'/', _, rfl, by decide⟩

/-! ## What was read is writable -/

theorem writable_of_statement {ps : List Part} {node : Node} (h : Statement ps node) (hcut : Cut ps)
    (hbegun : Begun ps) : Writable node := by
  cases h with
  | atRule => exact writable_atRule hcut hbegun
  | declaration hkeyword hfront hcolon hproperty =>
    exact writable_declaration hcut hbegun hkeyword hfront hcolon hproperty

theorem writable_of_opens {ps : List Part} {children : List Node} {node : Node}
    (h : Opens children ps node) (hcut : Cut ps) (hbegun : Begun ps)
    (hchildren : ∀ n ∈ children, Writable n) : Writable node := by
  cases h with
  | atRule => exact writable_atBlock hcut hbegun hchildren
  | rule hkeyword => exact writable_rule hcut hbegun hkeyword hchildren

/-- **The nodes that clean parts are read as are writable**, by induction over the reading. -/
theorem writable_of_reads {pending parts : List Part} {nodes : List Node}
    (h : Reads pending parts nodes) (hcut : Cut (pending ++ parts)) (hbegun : Begun pending) :
    ∀ n ∈ nodes, Writable n := by
  induction h with
  | nil => exact fun n hn => absurd hn List.not_mem_nil
  | last hstatement =>
    rw [List.append_nil] at hcut
    intro n hn
    obtain rfl := List.mem_singleton.1 hn
    exact writable_of_statement hstatement hcut hbegun
  | space hrole htail ih => exact ih hcut.tail begun_nil
  | comment hrole htail ih =>
    intro n hn
    rcases List.mem_cons.1 hn with rfl | hn
    · exact writable_comment hcut hrole
    · exact ih hcut.tail begun_nil n hn
  | semicolon hrole htail ih => exact ih hcut.tail begun_nil
  | statement hstatement hrole htail ih =>
    intro n hn
    rcases List.mem_cons.1 hn with rfl | hn
    · have hclean := hcut.right.clean.sublist (List.singleton_sublist.2 List.mem_cons_self)
      obtain rfl := eq_of_role_semicolon (fun q hq => (hclean q hq).shape.told) hrole
      refine writable_of_statement hstatement (hcut.left fun after _ => ?_) hbegun
      exact stops_cons (by decide) _
    · exact ih hcut.right.tail begun_nil n hn
  | block hchildren hopens htail ihchildren ih =>
    intro n hn
    rcases List.mem_cons.1 hn with rfl | hn
    · refine writable_of_opens hopens (hcut.left fun after _ => ?_) hbegun
        (ihchildren hcut.right.inside begun_nil)
      rw [textAll_cons, text_block]
      exact stops_cons (by decide) _
    · exact ih hcut.right.tail begun_nil n hn
  | begin hrole htail ih =>
    refine ih hcut ⟨fun p hp => ?_, fun p hp => ?_⟩
    · obtain rfl := List.mem_singleton.1 hp
      rw [hrole]
      exact ⟨nofun, nofun⟩
    · obtain rfl := Option.some.inj hp
      exact hrole
  | more hpending hsemicolon hblock htail ih =>
    refine ih (by simpa using hcut) (hbegun.append hpending fun p hp => ?_)
    obtain rfl := List.mem_singleton.1 hp
    exact ⟨hsemicolon, hblock⟩

end FluidCss
