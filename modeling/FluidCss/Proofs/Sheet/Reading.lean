import FluidCss.Proofs.Component.Clean
import FluidCss.Proofs.Result
import FluidCss.Proofs.Sheet.Role

/-!
# Reading parts

Which statements a block is divided into, and what they say, depends on the parts in the block and
not on where it stands. The relation `Reads` tells the nodes of parts without offsets.

* `Part.nodesOf_eq_ok_iff`: parts that stand in a text are read to these nodes.
-/

namespace FluidCss.Part

open Sheet

/-! ## Statements without offsets -/

def isKeyword : Part → Bool
  | leaf _ (.atKeyword _) => true
  | _ => false

def isColon : Part → Bool
  | leaf _ (.literal t) => t == ":"
  | _ => false

def role (p : Part) : Role := roleOf (p.located 0)

/-- Parts are a statement that does not end in a block. -/
inductive Statement : List Part → Node → Prop
  | atRule {t name : Text} {rest : List Part} :
    Statement (leaf t (.atKeyword name) :: rest)
      (.atRule name (Text.trim (textAll rest)) false [])
  | declaration {front : List Part} {colon : Part} {back : List Part}
    (hkeyword : ∀ p ∈ front.head?, p.isKeyword = false) (hfront : ∀ p ∈ front, p.isColon = false)
    (hcolon : colon.isColon) (hproperty : Text.trim (textAll front) ≠ []) :
    Statement (front ++ colon :: back)
      (.declaration (Text.trim (textAll front)) (Text.trim (textAll back)))

/-- Parts before a block with the given children make a node. -/
inductive Opens (children : List Node) : List Part → Node → Prop
  | atRule {t name : Text} {rest : List Part} :
    Opens children (leaf t (.atKeyword name) :: rest)
      (.atRule name (Text.trim (textAll rest)) true children)
  | rule {ps : List Part} (hkeyword : ∀ p ∈ ps.head?, p.isKeyword = false) :
    Opens children ps (.rule (Text.trim (textAll ps)) children)

/-- Parts after a begun statement are the rest of that statement and further nodes. -/
inductive Reads : List Part → List Part → List Node → Prop
  | nil : Reads [] [] []
  | last {pending : List Part} {node : Node} (hstatement : Statement pending node) :
    Reads pending [] [node]
  | space {p : Part} {ps : List Part} {nodes : List Node} (hrole : p.role = .space)
    (htail : Reads [] ps nodes) : Reads [] (p :: ps) nodes
  | comment {p : Part} {text : Text} {ps : List Part} {nodes : List Node}
    (hrole : p.role = .comment text) (htail : Reads [] ps nodes) :
    Reads [] (p :: ps) (.comment text :: nodes)
  | semicolon {p : Part} {ps : List Part} {nodes : List Node} (hrole : p.role = .semicolon)
    (htail : Reads [] ps nodes) : Reads [] (p :: ps) nodes
  | statement {pending : List Part} {node : Node} {p : Part} {ps : List Part} {nodes : List Node}
    (hstatement : Statement pending node) (hrole : p.role = .semicolon)
    (htail : Reads [] ps nodes) : Reads pending (p :: ps) (node :: nodes)
  | block {pending content : List Part} {children : List Node} {node : Node} {ps : List Part}
    {nodes : List Node} (hchildren : Reads [] content children)
    (hopens : Opens children pending node) (htail : Reads [] ps nodes) :
    Reads pending (.block .curly content :: ps) (node :: nodes)
  | begin {p : Part} {ps : List Part} {nodes : List Node} (hrole : p.role = .other)
    (htail : Reads [p] ps nodes) : Reads [] (p :: ps) nodes
  | more {pending : List Part} {p : Part} {ps : List Part} {nodes : List Node}
    (hpending : pending ≠ []) (hsemicolon : p.role ≠ .semicolon) (hblock : p.role ≠ .block)
    (htail : Reads (pending ++ [p]) ps nodes) : Reads pending (p :: ps) nodes

/-! ## Parts in a text -/

/-- Parts stand in a text from an offset to an offset. -/
def Placed (text : Text) (start : Nat) (ps : List Part) (stop : Nat) : Prop :=
  ∃ before after, text = before ++ textAll ps ++ after ∧ start = before.length ∧
    stop = start + (textAll ps).length

theorem Placed.left {text : Text} {start stop : Nat} {ps qs : List Part}
    (h : Placed text start (ps ++ qs) stop) :
    Placed text start ps (start + (textAll ps).length) := by
  obtain ⟨before, after, htext, hstart, -⟩ := h
  exact ⟨before, textAll qs ++ after, by simp [htext], hstart, rfl⟩

theorem Placed.right {text : Text} {start stop : Nat} {ps qs : List Part}
    (h : Placed text start (ps ++ qs) stop) :
    Placed text (start + (textAll ps).length) qs stop := by
  obtain ⟨before, after, htext, hstart, hstop⟩ := h
  refine ⟨before ++ textAll ps, after, by simp [htext], by simp [hstart], ?_⟩
  rw [hstop, textAll_append, List.length_append, Nat.add_assoc]

theorem Placed.tail {text : Text} {start stop : Nat} {p : Part} {ps : List Part}
    (h : Placed text start (p :: ps) stop) : Placed text (start + p.text.length) ps stop := by
  have hright : Placed text (start + (textAll [p]).length) ps stop := Placed.right h
  simpa using hright

/-- What is between the brackets of a block, and where its closing bracket stands. -/
theorem Placed.inside {text : Text} {start stop : Nat} {b : Bracket} {content : List Part}
    (h : Placed text start [block b content] stop) :
    ∃ stop', stop = stop' + 1 ∧ Placed text (start + 1) content stop' ∧
      text[stop']? = some (.char b.closeChar) := by
  obtain ⟨before, after, htext, hstart, hstop⟩ := h
  rw [textAll_cons, textAll_nil, List.append_nil, text_block] at htext hstop
  have hcut : text = before ++ [.char b.openChar] ++ textAll content ++
      (.char b.closeChar :: after) := by simp [htext]
  refine ⟨start + 1 + (textAll content).length, by simp at hstop; omega,
    ⟨before ++ [.char b.openChar], _, hcut, by simp [hstart], rfl⟩, ?_⟩
  have hlength : start + 1 + (textAll content).length =
      (before ++ [CodePoint.char b.openChar] ++ textAll content).length := by
    simp [hstart]
    omega
  rw [hlength, hcut, List.getElem?_append_right (Nat.le_refl _), Nat.sub_self]
  rfl

theorem Placed.slice {text : Text} {start stop : Nat} {ps : List Part}
    (h : Placed text start ps stop) : slice text start stop = Text.trim (textAll ps) := by
  obtain ⟨before, after, rfl, rfl, rfl⟩ := h
  simp [Sheet.slice]

theorem Placed.sliceFrom {text : Text} {start stop : Nat} {ps : List Part}
    (h : Placed text start ps stop) :
    sliceFrom text (locatedAll start ps) stop = Text.trim (textAll ps) := by
  cases ps with
  | nil => rfl
  | cons p ps =>
    simp only [locatedAll, Sheet.sliceFrom, located_start]
    exact h.slice

/-! ## Statements in a text -/

theorem roleOf_located (start : Nat) (p : Part) : roleOf (p.located start) = p.role := by
  cases p with
  | leaf t l => cases l <;> rfl
  | function t name content => rfl
  | block b content => cases b <;> rfl

theorem isLiteral_located (start : Nat) (p : Part) :
    isLiteral ":" (p.located start) = p.isColon := by
  cases p with
  | leaf t l => cases l <;> rfl
  | function t name content => rfl
  | block b content => rfl

theorem isLiteral_locatedAll {ps : List Part} (h : ∀ p ∈ ps, p.isColon = false) (start : Nat) :
    ∀ c ∈ locatedAll start ps, isLiteral ":" c = false := by
  induction ps generalizing start with
  | nil => exact fun c hc => absurd hc List.not_mem_nil
  | cons p ps ih =>
    obtain ⟨hp, hps⟩ := List.forall_mem_cons.1 h
    exact List.forall_mem_cons.2 ⟨(isLiteral_located start p).trans hp, ih hps _⟩

theorem atKeyword?_located_eq_none {ps : List Part} (h : ∀ p ∈ ps.head?, p.isKeyword = false)
    (start : Nat) : atKeyword? (locatedAll start ps) = none := by
  cases ps with
  | nil => rfl
  | cons p ps =>
    have hp := h p rfl
    cases p with
    | leaf t l => cases l <;> first | rfl | cases hp
    | function t name content => rfl
    | block b content => rfl

theorem exists_of_isKeyword {p : Part} (h : p.isKeyword) :
    ∃ t name, p = leaf t (.atKeyword name) := by
  unfold isKeyword at h
  split at h
  · exact ⟨_, _, rfl⟩
  · cases h

theorem keyword_cases (ps : List Part) : (∃ t name rest, ps = leaf t (.atKeyword name) :: rest) ∨
    ∀ p ∈ ps.head?, p.isKeyword = false := by
  cases ps with
  | nil => exact .inr nofun
  | cons p ps =>
    cases hp : p.isKeyword with
    | true =>
      obtain ⟨t, name, rfl⟩ := exists_of_isKeyword hp
      exact .inl ⟨t, name, ps, rfl⟩
    | false => exact .inr (by simpa using hp)

/-- A declaration is what a colon divides. -/
theorem declarationOf_located {text : Text} {start stop : Nat} {front : List Part} {colon : Part}
    {back : List Part} (h : Placed text start (front ++ colon :: back) stop)
    (hfront : ∀ p ∈ front, p.isColon = false) (hcolon : colon.isColon) :
    declarationOf text (locatedAll start (front ++ colon :: back)) stop =
      if Text.trim (textAll front) = [] then
        .error (notStatement text (locatedAll start (front ++ colon :: back)) stop)
      else .ok (.declaration (Text.trim (textAll front)) (Text.trim (textAll back))) := by
  have hback := h.right.tail
  rw [locatedAll_append, locatedAll, declarationOf_colon text stop
    (isLiteral_locatedAll hfront start) ((isLiteral_located _ colon).trans hcolon), located_start,
    h.left.sliceFrom, hback.sliceFrom]

theorem statementOf_atKeyword {text t name : Text} {start stop : Nat} {ps : List Part}
    (h : Placed text start (leaf t (.atKeyword name) :: ps) stop) :
    statementOf text (locatedAll start (leaf t (.atKeyword name) :: ps)) stop =
      .ok (.atRule name (Text.trim (textAll ps)) false []) := by
  have hrest : Placed text (start + t.length) ps stop := by simpa using h.tail
  simp only [locatedAll, located, statementOf, atKeyword?, text_leaf, hrest.sliceFrom]

/-- What is divided by a colon does not begin with an at-keyword, if the property does not. -/
theorem head?_divided {front : List Part} (hkeyword : ∀ p ∈ front.head?, p.isKeyword = false)
    (hproperty : Text.trim (textAll front) ≠ []) (colon : Part) (back : List Part) :
    ∀ p ∈ (front ++ colon :: back).head?, p.isKeyword = false := by
  cases front with
  | nil => exact absurd rfl hproperty
  | cons q front => exact hkeyword

/-- **A statement in a text is the statement that its parts are.** -/
theorem statementOf_eq_ok_iff {text : Text} {start stop : Nat} {ps : List Part} {node : Node}
    (h : Placed text start ps stop) :
    statementOf text (locatedAll start ps) stop = .ok node ↔ Statement ps node := by
  constructor
  · intro hok
    rcases keyword_cases ps with ⟨t, name, rest, rfl⟩ | hkeyword
    · rw [statementOf_atKeyword h] at hok
      cases hok
      exact .atRule
    simp only [statementOf, atKeyword?_located_eq_none hkeyword] at hok
    -- A declaration is divided at its first colon, and there is none without one.
    rcases exists_first isColon ps with hnone | ⟨front, colon, back, rfl, hfront, hcolon⟩
    · rw [declarationOf_noColon text stop (isLiteral_locatedAll hnone start)] at hok
      cases hok
    · rw [declarationOf_located h hfront hcolon] at hok
      split at hok
      · cases hok
      · rename_i hproperty
        cases hok
        refine .declaration (fun p hp => hkeyword p ?_) hfront hcolon hproperty
        cases front with
        | nil => cases hp
        | cons q front => exact hp
  · intro hstatement
    cases hstatement with
    | atRule => exact statementOf_atKeyword h
    | declaration hkeyword hfront hcolon hproperty =>
      rename_i front colon back
      rw [statementOf, atKeyword?_located_eq_none (head?_divided hkeyword hproperty colon back)]
      simp only
      rw [declarationOf_located h hfront hcolon, if_neg hproperty]

/-- The node of a block in a text is the node that the parts before the block make. -/
theorem blockOf_eq_iff {text : Text} {start stop : Nat} {ps : List Part} {children : List Node}
    {node : Node} (h : Placed text start ps stop) :
    blockOf text (locatedAll start ps) stop children = node ↔ Opens children ps node := by
  rcases keyword_cases ps with ⟨t, name, rest, rfl⟩ | hkeyword
  · have hrest : Placed text (start + t.length) rest stop := by simpa using h.tail
    simp only [locatedAll, located, blockOf, atKeyword?, text_leaf, hrest.sliceFrom]
    constructor
    · rintro rfl
      exact .atRule
    · intro hopens
      cases hopens with
      | atRule => rfl
      | rule hkeyword => exact absurd (hkeyword _ rfl) (by simp [isKeyword])
  · simp only [blockOf, atKeyword?_located_eq_none hkeyword, h.sliceFrom]
    constructor
    · rintro rfl
      exact .rule hkeyword
    · intro hopens
      cases hopens with
      | atRule => exact absurd (hkeyword _ rfl) (by simp [isKeyword])
      | rule => rfl

/-! ## Blocks in a text -/

theorem contentEnd_located {text : Text} {start stop : Nat} {ps : List Part}
    (h : Placed text (start + 1) ps stop) (hclose : text[start]? = some (.char '\x7d')) :
    contentEnd text (locatedAll (start + 1) ps) stop = start := by
  have hend : ∀ after, after = start + 1 →
      (if after ≠ 0 ∧ text[after - 1]? = some (.char '\x7d') then after - 1 else after) =
        start := by
    rintro _ rfl
    rw [Nat.add_sub_cancel, if_pos ⟨Nat.succ_ne_zero start, hclose⟩]
  obtain ⟨before, after, -, -, hstop⟩ := h
  cases ps with
  | nil => exact hend stop (by simpa using hstop)
  | cons p ps => exact hend _ (located_start _ p)

/-! ### One step of the division -/

section

variable {text : Text} {stop : Nat} {pending : List Component} {c : Component}
  {cs : List Component} {nodes : List Node}

theorem nodesOf_nil_iff (hpending : pending ≠ []) :
    nodesOf text stop pending [] = .ok nodes ↔
      ∃ node, statementOf text pending stop = .ok node ∧ [node] = nodes := by
  simp only [nodesOf, List.isEmpty_iff, hpending, if_false, bind_eq_ok, pure_eq_ok]

theorem nodesOf_skip (h : roleOf c = .space ∨ roleOf c = .semicolon) :
    nodesOf text stop [] (c :: cs) = nodesOf text stop [] cs := by
  rcases h with h | h <;> simp only [nodesOf, h]

theorem nodesOf_comment_iff {t : Text} (h : roleOf c = .comment t) :
    nodesOf text stop [] (c :: cs) = .ok nodes ↔
      ∃ nodes', nodesOf text stop [] cs = .ok nodes' ∧ .comment t :: nodes' = nodes := by
  simp only [nodesOf, h, bind_eq_ok, pure_eq_ok]

theorem nodesOf_semicolon_iff (hpending : pending ≠ []) (h : roleOf c = .semicolon) :
    nodesOf text stop pending (c :: cs) = .ok nodes ↔
      ∃ node, statementOf text pending c.start = .ok node ∧
        ∃ nodes', nodesOf text stop [] cs = .ok nodes' ∧ node :: nodes' = nodes := by
  obtain ⟨p, ps, rfl⟩ := List.exists_cons_of_ne_nil hpending
  simp only [nodesOf, h, bind_eq_ok, pure_eq_ok]

theorem nodesOf_block_iff (h : roleOf c = .block) :
    nodesOf text stop pending (c :: cs) = .ok nodes ↔
      ∃ children, childrenOf text (contentEnd text cs stop) c = .ok children ∧
        ∃ nodes', nodesOf text stop [] cs = .ok nodes' ∧
          blockOf text pending c.start children :: nodes' = nodes := by
  simp only [nodesOf, h, bind_eq_ok, pure_eq_ok]

theorem nodesOf_begin (h : roleOf c = .other) :
    nodesOf text stop [] (c :: cs) = nodesOf text stop [c] cs := by
  simp only [nodesOf, h, List.nil_append]

theorem nodesOf_more (hpending : pending ≠ []) (hfault : ∀ f, roleOf c ≠ .fault f)
    (hsemicolon : roleOf c ≠ .semicolon) (hblock : roleOf c ≠ .block) :
    nodesOf text stop pending (c :: cs) = nodesOf text stop (pending ++ [c]) cs := by
  obtain ⟨p, ps, rfl⟩ := List.exists_cons_of_ne_nil hpending
  cases hrole : roleOf c with
  | fault f => exact absurd hrole (hfault f)
  | semicolon => exact absurd hrole hsemicolon
  | block => exact absurd hrole hblock
  | _ => simp [nodesOf, hrole]

end

/-- What is done with a component of a block that has nodes, where the statement `pending` was begun
before. -/
inductive Taken (text : Text) (stop : Nat) (pending : List Component) (c : Component)
    (cs : List Component) : List Node → Prop
  | space {nodes : List Node} (hpending : pending = []) (hrole : roleOf c = .space)
    (hok : nodesOf text stop [] cs = .ok nodes) : Taken text stop pending c cs nodes
  | comment {t : Text} {nodes : List Node} (hpending : pending = []) (hrole : roleOf c = .comment t)
    (hok : nodesOf text stop [] cs = .ok nodes) : Taken text stop pending c cs (.comment t :: nodes)
  | semicolon {nodes : List Node} (hpending : pending = []) (hrole : roleOf c = .semicolon)
    (hok : nodesOf text stop [] cs = .ok nodes) : Taken text stop pending c cs nodes
  | statement {node : Node} {nodes : List Node} (hpending : pending ≠ [])
    (hrole : roleOf c = .semicolon) (hnode : statementOf text pending c.start = .ok node)
    (hok : nodesOf text stop [] cs = .ok nodes) : Taken text stop pending c cs (node :: nodes)
  | block {children nodes : List Node} (hrole : roleOf c = .block)
    (hchildren : childrenOf text (contentEnd text cs stop) c = .ok children)
    (hok : nodesOf text stop [] cs = .ok nodes) :
    Taken text stop pending c cs (blockOf text pending c.start children :: nodes)
  | begin {nodes : List Node} (hpending : pending = []) (hrole : roleOf c = .other)
    (hok : nodesOf text stop [c] cs = .ok nodes) : Taken text stop pending c cs nodes
  | more {nodes : List Node} (hpending : pending ≠ []) (hsemicolon : roleOf c ≠ .semicolon)
    (hblock : roleOf c ≠ .block) (hok : nodesOf text stop (pending ++ [c]) cs = .ok nodes) :
    Taken text stop pending c cs nodes

/-- **A component of a block that has nodes is taken in one of these ways.** -/
theorem taken_of_ok {text : Text} {stop : Nat} {pending : List Component} {c : Component}
    {cs : List Component} {nodes : List Node}
    (h : nodesOf text stop pending (c :: cs) = .ok nodes) : Taken text stop pending c cs nodes := by
  have hfault : ∀ f, roleOf c ≠ .fault f := by
    intro f hrole
    simp only [nodesOf, hrole] at h
    cases h
  by_cases hblock : roleOf c = .block
  · obtain ⟨children, hchildren, nodes', hok, rfl⟩ := (nodesOf_block_iff hblock).1 h
    exact .block hblock hchildren hok
  -- Blanks and semicolons are taken by themselves only where no statement has begun.
  by_cases hpending : pending = []
  · subst hpending
    cases hrole : roleOf c with
    | fault f => exact absurd hrole (hfault f)
    | space => exact .space rfl hrole (nodesOf_skip (.inl hrole) ▸ h)
    | comment t =>
      obtain ⟨nodes', hok, rfl⟩ := (nodesOf_comment_iff hrole).1 h
      exact .comment rfl hrole hok
    | semicolon => exact .semicolon rfl hrole (nodesOf_skip (.inr hrole) ▸ h)
    | block => exact absurd hrole hblock
    | other => exact .begin rfl hrole (nodesOf_begin hrole ▸ h)
  by_cases hsemicolon : roleOf c = .semicolon
  · obtain ⟨node, hnode, nodes', hok, rfl⟩ := (nodesOf_semicolon_iff hpending hsemicolon).1 h
    exact .statement hpending hsemicolon hnode hok
  · rw [nodesOf_more hpending hfault hsemicolon hblock] at h
    exact .more hpending hsemicolon hblock h

/-! ### The nodes of parts -/

theorem role_ne_fault (p : Part) (f : Fault) : p.role ≠ .fault f := by
  intro h
  obtain ⟨_, hp⟩ := Role.fits_of_roleOf h
  cases p <;> cases hp

theorem locatedAll_eq_nil_iff {start : Nat} {ps : List Part} :
    locatedAll start ps = [] ↔ ps = [] := by
  cases ps <;> simp [locatedAll]

theorem locatedAll_ne_nil {ps : List Part} (h : ps ≠ []) (start : Nat) :
    locatedAll start ps ≠ [] := fun hnil => h (locatedAll_eq_nil_iff.1 hnil)

theorem locatedAll_concat (start : Nat) (ps : List Part) (p : Part) :
    locatedAll start (ps ++ [p]) =
    locatedAll start ps ++ [p.located (start + (textAll ps).length)] :=
  locatedAll_append start ps [p]

theorem exists_of_role_block {p : Part} (h : p.role = .block) :
    ∃ content, p = block .curly content := by
  obtain ⟨_, _, _, hp⟩ := Role.fits_of_roleOf h
  cases p with
  | block b content =>
    cases hp
    exact ⟨content, rfl⟩
  | _ => cases hp

/-- Where the content of a block in a text ends. -/
theorem contentEnd_block {text : Text} {start stop : Nat} {p : Part} {ps : List Part}
    (h : Placed text start (p :: ps) stop) (hrole : p.role = .block) :
    ∃ stop', contentEnd text (locatedAll (start + p.text.length) ps) stop = stop' ∧
      Placed text start [p] (stop' + 1) := by
  obtain ⟨content, rfl⟩ := exists_of_role_block hrole
  have hblock : Placed text start [block .curly content]
      (start + (block .curly content).text.length) := by
    have hleft : Placed text start [block .curly content]
        (start + (textAll [block .curly content]).length) := Placed.left h
    simpa using hleft
  have hrest := h.tail
  obtain ⟨stop', hstop, -, hclose⟩ := hblock.inside
  rw [hstop] at hrest hblock ⊢
  exact ⟨stop', contentEnd_located hrest hclose, hblock⟩

mutual

/-- What is read inside a block. -/
theorem reads_of_childrenOf : ∀ (p : Part) {text : Text} {start stop : Nat} {children : List Node},
    Placed text start [p] (stop + 1) → p.role = .block →
    childrenOf text stop (p.located start) = .ok children →
    ∃ content, p = block .curly content ∧ Reads [] content children
  | leaf _ _, _, _, _, _, _, hrole, _ => by
    obtain ⟨content, hp⟩ := exists_of_role_block hrole
    cases hp
  | function .., _, _, _, _, _, hrole, _ => by cases hrole
  | block .round _, _, _, _, _, _, hrole, _ => by cases hrole
  | block .square _, _, _, _, _, _, hrole, _ => by cases hrole
  | block .curly content, _, _, _, _, h, _, hok => by
    obtain ⟨stop', hstop, hinside, -⟩ := h.inside
    obtain rfl := Nat.succ.inj hstop
    exact ⟨content, rfl, reads_of_nodesOf content hinside hok⟩

/-- What is read of parts in a text is what they are read as without offsets. -/
theorem reads_of_nodesOf : ∀ (parts : List Part) {pending : List Part} {text : Text}
    {start stop : Nat} {nodes : List Node}, Placed text start (pending ++ parts) stop →
    nodesOf text stop (locatedAll start pending)
      (locatedAll (start + (textAll pending).length) parts) = .ok nodes →
    Reads pending parts nodes
  | [], pending, text, start, stop, nodes, h, hok => by
    rw [List.append_nil] at h
    by_cases hpending : pending = []
    · subst hpending
      cases hok
      exact .nil
    · obtain ⟨node, hnode, rfl⟩ := (nodesOf_nil_iff (locatedAll_ne_nil hpending start)).1 hok
      exact .last ((statementOf_eq_ok_iff h).1 hnode)
  | p :: ps, pending, text, start, stop, nodes, h, hok => by
    have hrole : roleOf (p.located (start + (textAll pending).length)) = p.role :=
      roleOf_located _ p
    have htail : ∀ {nodes}, nodesOf text stop []
        (locatedAll (start + (textAll pending).length + p.text.length) ps) = .ok nodes →
        Reads [] ps nodes :=
      fun hok => reads_of_nodesOf ps h.right.tail hok
    -- The parts of the statement begun before stand without a gap before the part at hand.
    have hnext : nodesOf text stop
        (locatedAll start pending ++ [p.located (start + (textAll pending).length)])
        (locatedAll (start + (textAll pending).length + p.text.length) ps) = .ok nodes →
        Reads (pending ++ [p]) ps nodes := by
      intro hok
      refine reads_of_nodesOf ps (by simpa using h) ?_
      rw [locatedAll_concat]
      simpa [Nat.add_assoc] using hok
    rw [locatedAll] at hok
    cases taken_of_ok hok with
    | space hpending hspace hrest =>
      obtain rfl := locatedAll_eq_nil_iff.1 hpending
      exact .space (hrole ▸ hspace) (htail hrest)
    | comment hpending hcomment hrest =>
      obtain rfl := locatedAll_eq_nil_iff.1 hpending
      exact .comment (hrole ▸ hcomment) (htail hrest)
    | semicolon hpending hsemicolon hrest =>
      obtain rfl := locatedAll_eq_nil_iff.1 hpending
      exact .semicolon (hrole ▸ hsemicolon) (htail hrest)
    | statement hpending hsemicolon hnode hrest =>
      rw [located_start] at hnode
      exact .statement ((statementOf_eq_ok_iff h.left).1 hnode) (hrole ▸ hsemicolon) (htail hrest)
    | block hblock hchildren hrest =>
      obtain ⟨stop', hend, hplaced⟩ := contentEnd_block h.right (hrole ▸ hblock)
      rw [hend] at hchildren
      obtain ⟨content, rfl, hcontent⟩ := reads_of_childrenOf p hplaced (hrole ▸ hblock) hchildren
      exact .block hcontent ((blockOf_eq_iff h.left).1 (by rw [located_start])) (htail hrest)
    | begin hpending hother hrest =>
      obtain rfl := locatedAll_eq_nil_iff.1 hpending
      exact .begin (hrole ▸ hother) (hnext hrest)
    | more hpending hsemicolon hblock hrest =>
      exact .more (fun hnil => hpending (locatedAll_eq_nil_iff.2 hnil)) (hrole ▸ hsemicolon)
        (hrole ▸ hblock) (hnext hrest)

end

theorem Statement.ne_nil {ps : List Part} {node : Node} (h : Statement ps node) : ps ≠ [] := by
  cases h <;> simp

/-- What parts are read as without offsets is what is read of them in a text. -/
theorem Reads.nodesOf_eq {pending parts : List Part} {nodes : List Node}
    (h : Reads pending parts nodes) {text : Text} {start stop : Nat}
    (hplaced : Placed text start (pending ++ parts) stop) :
    nodesOf text stop (locatedAll start pending)
      (locatedAll (start + (textAll pending).length) parts) = .ok nodes := by
  induction h generalizing start stop with
  | nil => rfl
  | last hstatement =>
    rw [List.append_nil] at hplaced
    exact (nodesOf_nil_iff (locatedAll_ne_nil hstatement.ne_nil start)).2
      ⟨_, (statementOf_eq_ok_iff hplaced).2 hstatement, rfl⟩
  | space hrole htail ih =>
    exact (nodesOf_skip (.inl ((roleOf_located _ _).trans hrole))).trans (ih hplaced.tail)
  | comment hrole htail ih =>
    exact (nodesOf_comment_iff ((roleOf_located _ _).trans hrole)).2 ⟨_, ih hplaced.tail, rfl⟩
  | semicolon hrole htail ih =>
    exact (nodesOf_skip (.inr ((roleOf_located _ _).trans hrole))).trans (ih hplaced.tail)
  | statement hstatement hrole htail ih =>
    have hnode := (statementOf_eq_ok_iff hplaced.left).2 hstatement
    refine (nodesOf_semicolon_iff (locatedAll_ne_nil hstatement.ne_nil start)
      ((roleOf_located _ _).trans hrole)).2 ⟨_, ?_, _, ih hplaced.right.tail, rfl⟩
    rw [located_start]
    exact hnode
  -- The content ends where the block does, less its closing bracket.
  | @block pending content children node ps nodes _ hopens _ ihchildren ih =>
    obtain ⟨stop', hend, hblock⟩ := contentEnd_block hplaced.right rfl
    obtain ⟨stop'', hstop, hinside, -⟩ := hblock.inside
    obtain rfl := Nat.succ.inj hstop
    have hnode := (blockOf_eq_iff hplaced.left).2 hopens
    refine (nodesOf_block_iff ((roleOf_located _ _).trans rfl)).2
      ⟨children, ?_, nodes, ih hplaced.right.tail, ?_⟩
    · rw [hend]
      exact ihchildren hinside
    · rw [located_start, hnode]
  | begin hrole htail ih =>
    have hok := ih hplaced
    rw [locatedAll, locatedAll, nodesOf_begin ((roleOf_located _ _).trans hrole)]
    simpa [locatedAll] using hok
  | more hpending hsemicolon hblock htail ih =>
    rw [← List.singleton_append, ← List.append_assoc] at hplaced
    have hok := ih hplaced
    rw [locatedAll, nodesOf_more (locatedAll_ne_nil hpending start)
      (fun f => by rw [roleOf_located]; exact role_ne_fault _ f) (by rwa [roleOf_located])
      (by rwa [roleOf_located])]
    rw [locatedAll_concat] at hok
    simpa [Nat.add_assoc] using hok

/-- **Parts in a text are read to the nodes that they are read as without offsets.** -/
theorem nodesOf_eq_ok_iff {parts : List Part} {nodes : List Node} {text : Text} {start stop : Nat}
    (h : Placed text start parts stop) :
    nodesOf text stop [] (locatedAll start parts) = .ok nodes ↔ Reads [] parts nodes :=
  ⟨fun hok => reads_of_nodesOf parts h hok, fun hreads =>
    hreads.nodesOf_eq h⟩

end FluidCss.Part
