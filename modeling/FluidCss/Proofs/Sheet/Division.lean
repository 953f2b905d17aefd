import FluidCss.Proofs.Sheet.Fault
import FluidCss.Proofs.Sheet.Reading
import FluidCss.Proofs.Sheet.Segment

/-!
# Statements divide a block

**Theorem (`nodesOf_follows_division`).** A block is read to one node for each comment, statement
and block of its division, in their order. It is refused exactly if there is a fault in it, or a
statement that is neither an at-rule nor a declaration, directly or in a block of it.

The reader carries the statement that it has begun. Over a whole run it only adds to it
(`nodesOf_run`), so that a segment is one step (`Segment.IsInner.nodesOf_eq_ok_iff`), and a block is
read by induction on its division (`IsDivision.nodesOf_eq_ok_iff`). Whether it is refused is then
shown by induction on the nesting. -/

namespace FluidCss

namespace Sheet

open Component

variable {text : Text} {stop : Nat}

/-! ## What segments are read as -/

/-- The components begin with an at-sign and a name. -/
def BeginsRule (cs : List Component) : Prop :=
  ∃ start name rest, cs = .leaf start (.atKeyword name) :: rest

/-- A statement that ends at `stop`, without a block, has the node. -/
inductive IsStatement (text : Text) (stop : Nat) : List Component → Node → Prop
  | atRule {start : Nat} {name : Text} {rest : List Component} :
    IsStatement text stop (.leaf start (.atKeyword name) :: rest)
      (.atRule name (sliceFrom text rest stop) false [])
  | declaration {front back : List Component} {colon : Component}
    (hkeyword : ¬BeginsRule (front ++ colon :: back))
    (hfront : ∀ c ∈ front, isLiteral ":" c = false) (hcolon : isLiteral ":" colon)
    (hproperty : sliceFrom text front colon.start ≠ []) :
    IsStatement text stop (front ++ colon :: back)
      (.declaration (sliceFrom text front colon.start) (sliceFrom text back stop))

/-- A prelude before a block with the given children, which begins at `stop`, has the node. -/
inductive IsBlock (text : Text) (stop : Nat) (children : List Node) : List Component → Node → Prop
  | atRule {start : Nat} {name : Text} {rest : List Component} :
    IsBlock text stop children (.leaf start (.atKeyword name) :: rest)
      (.atRule name (sliceFrom text rest stop) true children)
  | rule {prelude : List Component} (hkeyword : ¬BeginsRule prelude) :
    IsBlock text stop children prelude (.rule (sliceFrom text prelude stop) children)

/-- A comment, a statement or a block has a node, with `after` behind it in a block that ends at
`stop`; what is passed over between statements has none. -/
inductive Segment.HasNode (text : Text) (stop : Nat) (after : List Component) :
    Segment → Option Node → Prop
  | space {start : Nat} : HasNode text stop after (.space start) none
  | semicolon {start : Nat} : HasNode text stop after (.semicolon start) none
  | comment {start : Nat} {t : Text} {closed : Bool} :
    HasNode text stop after (.comment start t closed) (some (.comment t))
  | ended {run : List Component} {mark : Nat} {node : Node}
      (hnode : IsStatement text mark run node) :
    HasNode text stop after (.ended run mark) (some node)
  | last {run : List Component} {node : Node} (hnode : IsStatement text stop run node) :
    HasNode text stop after (.last run) (some node)
  | block {prelude content : List Component} {start : Nat} {close : Option Nat}
    {children : List Node} {node : Node}
    (hchildren : nodesOf text (contentEnd text after stop) [] content = .ok children)
    (hnode : IsBlock text start children prelude node) :
    HasNode text stop after (.block prelude start content close) (some node)

/-- Segments of a block that ends at `stop` have the nodes, in their order. -/
inductive HaveNodes (text : Text) (stop : Nat) : List Segment → List Node → Prop
  | nil : HaveNodes text stop [] []
  | cons {segment : Segment} {node? : Option Node} {segments : List Segment} {nodes : List Node}
    (hsegment : segment.HasNode text stop (componentsAll segments) node?)
    (htail : HaveNodes text stop segments nodes) :
    HaveNodes text stop (segment :: segments) (node?.toList ++ nodes)

/-- A statement that is no at-rule and no declaration: there is no colon in it, or no property
before the first one. -/
inductive IsBroken (text : Text) : List Component → Prop
  | noColon {run : List Component} (hkeyword : ¬BeginsRule run)
    (hcolon : ∀ c ∈ run, isLiteral ":" c = false) : IsBroken text run
  | noProperty {front back : List Component} {colon : Component}
    (hkeyword : ¬BeginsRule (front ++ colon :: back))
    (hfront : ∀ c ∈ front, isLiteral ":" c = false) (hcolon : isLiteral ":" colon)
    (hproperty : sliceFrom text front colon.start = []) : IsBroken text (front ++ colon :: back)

/-- There is a fault or a broken statement in a block, or in a block in curly brackets in it. -/
inductive IsRefused (text : Text) : List Component → Prop
  | fault {cs : List Component} {start : Nat} {f : Fault} (hfault : .fault start f ∈ cs) :
    IsRefused text cs
  | statement {cs : List Component} {segments : List Segment} {segment : Segment}
    {run : List Component} (hdivision : IsDivision segments cs) (hsegment : segment ∈ segments)
    (hrun : segment.statement? = some run) (hbroken : IsBroken text run) : IsRefused text cs
  | inside {cs : List Component} {start : Nat} {content : List Component} {close : Option Nat}
    (hblock : .block start .curly content close ∈ cs) (hcontent : IsRefused text content) :
    IsRefused text cs

/-! ## Steps over single components -/

theorem roleOf_eq_semicolon_iff {c : Component} :
    roleOf c = .semicolon ↔ isLiteral ";" c = true := by
  constructor
  · intro h
    obtain ⟨start, rfl⟩ := Role.fits_of_roleOf h
    rfl
  · intro h
    unfold isLiteral at h
    split at h
    · rw [beq_iff_eq] at h
      rw [roleOf, if_pos h]
    · cases h

theorem roleOf_eq_block_iff {c : Component} : roleOf c = .block ↔ c.isCurly = true := by
  constructor
  · intro h
    obtain ⟨_, _, _, rfl⟩ := Role.fits_of_roleOf h
    rfl
  · intro h
    unfold isCurly at h
    split at h
    · rfl
    · cases h

theorem isBlank_of_roleOf {c : Component} (h : roleOf c = .space ∨ ∃ t, roleOf c = .comment t) :
    c.isBlank = true := by
  rcases h with h | ⟨t, h⟩
  · obtain ⟨_, rfl⟩ := Role.fits_of_roleOf h
    rfl
  · obtain ⟨_, _, rfl⟩ := Role.fits_of_roleOf h
    rfl

theorem roleOf_eq_other {c : Component} (hblank : c.isBlank = false)
    (hfault : ∀ start f, c ≠ .fault start f) (hsemicolon : isLiteral ";" c = false)
    (hcurly : c.isCurly = false) : roleOf c = .other := by
  cases hrole : roleOf c with
  | other => rfl
  | fault f =>
    obtain ⟨start, rfl⟩ := roleOf_eq_fault_iff.1 hrole
    exact absurd rfl (hfault start f)
  | semicolon => simp [roleOf_eq_semicolon_iff.1 hrole] at hsemicolon
  | block => simp [roleOf_eq_block_iff.1 hrole] at hcurly
  | space => simp [isBlank_of_roleOf (.inl hrole)] at hblank
  | comment t => simp [isBlank_of_roleOf (.inr ⟨t, hrole⟩)] at hblank

/-! ## Statements -/

theorem atKeyword?_eq_none {cs : List Component} (h : ¬BeginsRule cs) : atKeyword? cs = none := by
  unfold atKeyword?
  split
  · exact absurd ⟨_, _, _, rfl⟩ h
  · rfl

theorem statementOf_eq_declarationOf {run : List Component} (h : ¬BeginsRule run) :
    statementOf text run stop = declarationOf text run stop := by
  simp only [statementOf, atKeyword?_eq_none h]

/-- A run without a block is a statement or broken. -/
theorem isStatement_or_isBroken (text : Text) (stop : Nat) (run : List Component) :
    (∃ node, IsStatement text stop run node) ∨ IsBroken text run := by
  by_cases hkeyword : BeginsRule run
  · obtain ⟨start, name, rest, rfl⟩ := hkeyword
    exact .inl ⟨_, .atRule⟩
  rcases exists_first (isLiteral ":") run with hcolon | ⟨front, colon, back, rfl, hfront, hcolon⟩
  · exact .inr (.noColon hkeyword hcolon)
  by_cases hproperty : sliceFrom text front colon.start = []
  · exact .inr (.noProperty hkeyword hfront hcolon hproperty)
  · exact .inl ⟨_, .declaration hkeyword hfront hcolon hproperty⟩

theorem IsStatement.statementOf_eq {run : List Component} {node : Node}
    (h : IsStatement text stop run node) : statementOf text run stop = .ok node := by
  cases h with
  | atRule => rfl
  | declaration hkeyword hfront hcolon hproperty =>
    rw [statementOf_eq_declarationOf hkeyword, declarationOf_colon text _ hfront hcolon,
      if_neg hproperty]

theorem IsBroken.exists_error {run : List Component} (h : IsBroken text run) (stop : Nat) :
    ∃ e, statementOf text run stop = .error e := by
  cases h with
  | noColon hkeyword hcolon =>
    rw [statementOf_eq_declarationOf hkeyword, declarationOf_noColon text stop hcolon]
    exact ⟨_, rfl⟩
  | noProperty hkeyword hfront hcolon hproperty =>
    rw [statementOf_eq_declarationOf hkeyword, declarationOf_colon text _ hfront hcolon,
      if_pos hproperty]
    exact ⟨_, rfl⟩

/-- **A run without a block is read to the node that it has**, and to none if it is broken. -/
theorem statementOf_eq_ok_iff {run : List Component} {node : Node} :
    statementOf text run stop = .ok node ↔ IsStatement text stop run node := by
  refine ⟨fun hok => ?_, IsStatement.statementOf_eq⟩
  rcases isStatement_or_isBroken text stop run with ⟨node', hnode⟩ | hbroken
  · rwa [← Except.ok.inj (hnode.statementOf_eq.symm.trans hok)]
  · obtain ⟨e, he⟩ := hbroken.exists_error stop
    cases he.symm.trans hok

theorem blockOf_eq_iff {prelude : List Component} {children : List Node} {node : Node} :
    blockOf text prelude stop children = node ↔ IsBlock text stop children prelude node := by
  by_cases hkeyword : BeginsRule prelude
  · obtain ⟨start, name, rest, rfl⟩ := hkeyword
    constructor
    · rintro rfl
      exact .atRule
    · intro h
      cases h with
      | atRule => rfl
      | rule hkeyword => exact absurd ⟨_, _, _, rfl⟩ hkeyword
  · simp only [blockOf, atKeyword?_eq_none hkeyword]
    constructor
    · rintro rfl
      exact .rule hkeyword
    · intro h
      cases h with
      | atRule => exact absurd ⟨_, _, _, rfl⟩ hkeyword
      | rule => rfl

/-! ## Blocks -/

/-- A run is added to the statement begun before. -/
theorem nodesOf_run {pending run : List Component} (h : IsRun (pending ++ run))
    (hfault : ∀ start f, .fault start f ∉ run) (cs : List Component) :
    nodesOf text stop pending (run ++ cs) = nodesOf text stop (pending ++ run) cs := by
  induction run generalizing pending with
  | nil => simp
  | cons c run ih =>
    have hne : ∀ start f, c ≠ .fault start f := fun start f hc =>
      hfault start f (by simp [hc])
    obtain ⟨hsemicolon, hcurly⟩ := h.within c (by simp)
    have hmore : nodesOf text stop pending (c :: (run ++ cs)) =
        nodesOf text stop (pending ++ [c]) (run ++ cs) := by
      by_cases hpending : pending = []
      · subst hpending
        exact Part.nodesOf_begin (roleOf_eq_other (h.front c rfl) hne hsemicolon hcurly)
      -- Within a statement only a fault, a semicolon or a block would not be added to it.
      · refine Part.nodesOf_more hpending (fun f hrole => ?_) ?_ ?_
        · obtain ⟨start, hc⟩ := roleOf_eq_fault_iff.1 hrole
          exact hne start f hc
        · simp [roleOf_eq_semicolon_iff, hsemicolon]
        · simp [roleOf_eq_block_iff, hcurly]
    rw [List.cons_append, hmore, ih (by simpa using h)]
    · simp
    · exact fun start f hmem => hfault start f (List.mem_cons_of_mem c hmem)

theorem IsRun.nodesOf_eq {run : List Component} (h : IsRun run)
    (hfault : ∀ start f, .fault start f ∉ run) (cs : List Component) :
    nodesOf text stop [] (run ++ cs) = nodesOf text stop run cs :=
  @nodesOf_run text stop [] run h hfault cs

/-- **A segment is one step of the reader**: its node comes before those of what follows it. -/
theorem Segment.IsInner.nodesOf_eq_ok_iff {segment : Segment} (h : segment.IsInner)
    (hfault : ∀ start f, .fault start f ∉ segment.components) {cs : List Component}
    {nodes : List Node} : nodesOf text stop [] (segment.components ++ cs) = .ok nodes ↔
      ∃ node? nodes', segment.HasNode text stop cs node? ∧ nodesOf text stop [] cs = .ok nodes' ∧
        node?.toList ++ nodes' = nodes := by
  cases segment with
  | space start =>
    have hread : nodesOf text stop [] (.leaf start .space :: cs) = nodesOf text stop [] cs :=
      Part.nodesOf_skip (.inl rfl)
    rw [Segment.components, List.singleton_append, hread]
    constructor
    · exact fun hok => ⟨none, nodes, .space, hok, rfl⟩
    · rintro ⟨_, nodes', ⟨⟩, hok, rfl⟩
      exact hok
  | semicolon start =>
    have hread : nodesOf text stop [] (.leaf start (.literal ";") :: cs) =
        nodesOf text stop [] cs := Part.nodesOf_skip (.inr rfl)
    rw [Segment.components, List.singleton_append, hread]
    constructor
    · exact fun hok => ⟨none, nodes, .semicolon, hok, rfl⟩
    · rintro ⟨_, nodes', ⟨⟩, hok, rfl⟩
      exact hok
  | comment start t closed =>
    have hread : nodesOf text stop [] (.leaf start (.comment t closed) :: cs) = .ok nodes ↔
        ∃ nodes', nodesOf text stop [] cs = .ok nodes' ∧ .comment t :: nodes' = nodes :=
      Part.nodesOf_comment_iff rfl
    rw [Segment.components, List.singleton_append, hread]
    constructor
    · rintro ⟨nodes', hok, rfl⟩
      exact ⟨_, nodes', .comment, hok, rfl⟩
    · rintro ⟨_, nodes', ⟨⟩, hok, rfl⟩
      exact ⟨nodes', hok, rfl⟩
  | last run => exact absurd h id
  -- The run is added to an empty statement, and the semicolon behind it ends that.
  | ended run mark =>
    obtain ⟨hne, hrun⟩ := h
    have hread := @IsRun.nodesOf_eq text stop run hrun
      (fun start f hmem => hfault start f (List.mem_append_left _ hmem))
      (.leaf mark (.literal ";") :: cs)
    rw [Segment.components, List.append_assoc, List.singleton_append, hread,
      Part.nodesOf_semicolon_iff hne rfl]
    simp only [statementOf_eq_ok_iff]
    constructor
    · rintro ⟨node, hnode, nodes', hok, rfl⟩
      exact ⟨_, nodes', .ended hnode, hok, rfl⟩
    · rintro ⟨_, nodes', hsegment, hok, rfl⟩
      cases hsegment with
      | ended hnode => exact ⟨_, hnode, nodes', hok, rfl⟩
  | block prelude start content close =>
    have hread := @IsRun.nodesOf_eq text stop prelude h
      (fun start f hmem => hfault start f (List.mem_append_left _ hmem))
      (.block start .curly content close :: cs)
    rw [Segment.components, List.append_assoc, List.singleton_append, hread,
      Part.nodesOf_block_iff rfl]
    constructor
    · rintro ⟨children, hchildren, nodes', hok, rfl⟩
      exact ⟨_, nodes', .block hchildren (blockOf_eq_iff.1 rfl), hok, rfl⟩
    · rintro ⟨_, nodes', hsegment, hok, rfl⟩
      cases hsegment with
      | block hchildren hnode =>
        obtain rfl := blockOf_eq_iff.2 hnode
        exact ⟨_, hchildren, nodes', hok, rfl⟩

/-- **Without faults a block is read by its division.** -/
theorem IsDivision.nodesOf_eq_ok_iff {segments : List Segment} {cs : List Component}
    (h : IsDivision segments cs) (hfault : ∀ start f, .fault start f ∉ cs) {nodes : List Node} :
    nodesOf text stop [] cs = .ok nodes ↔ HaveNodes text stop segments nodes := by
  -- Induction on the division.
  induction h generalizing nodes with
  | nil =>
    constructor
    · rintro ⟨⟩
      exact .nil
    · rintro ⟨⟩
      rfl
  | @last run hne hrun =>
    have hread := @IsRun.nodesOf_eq text stop run hrun hfault []
    rw [List.append_nil] at hread
    rw [hread, Part.nodesOf_nil_iff hne]
    simp only [statementOf_eq_ok_iff]
    constructor
    · rintro ⟨node, hnode, rfl⟩
      exact .cons (.last hnode) .nil
    · intro hnodes
      cases hnodes with
      | cons hsegment hnil =>
        cases hsegment with
        | last hnode =>
          cases hnil
          exact ⟨_, hnode, rfl⟩
  | @inner segment segments cs hsegment htail ih =>
    have hrest := @ih fun start f hmem => hfault start f (List.mem_append_right _ hmem)
    rw [hsegment.nodesOf_eq_ok_iff fun start f hmem => hfault start f (List.mem_append_left _ hmem)]
    simp only [hrest]
    constructor
    -- Where the content of a block ends is told by what follows, which is the rest of the division.
    · rintro ⟨node?, nodes', hnode, hnodes, rfl⟩
      exact .cons (htail.componentsAll_eq ▸ hnode) hnodes
    · intro hnodes
      cases hnodes with
      | cons hnode hnodes =>
        rw [htail.componentsAll_eq] at hnode
        exact ⟨_, _, hnode, hnodes, rfl⟩

/-! ## Refusals -/

theorem mem_exposedAll {c : Component} {cs : List Component} (h : c ∈ cs) {e : Nat × Fault}
    (he : e ∈ exposed c) : e ∈ exposedAll cs := by
  induction cs with
  | nil => exact absurd h List.not_mem_nil
  | cons d cs ih =>
    rw [exposedAll]
    rcases List.mem_cons.1 h with rfl | h
    · exact List.mem_append_left _ he
    · exact List.mem_append_right _ (ih h)

theorem not_fault_of_ok {cs : List Component} {nodes : List Node}
    (h : nodesOf text stop [] cs = .ok nodes) : ∀ start f, .fault start f ∉ cs := by
  intro start f hmem
  have haccounts := nodesOf_accounts text stop [] cs
  rw [h] at haccounts
  have hnil : exposedAll cs = [] := haccounts
  have hexposed : (start, f) ∈ exposedAll cs := mem_exposedAll hmem (List.mem_singleton.2 rfl)
  simp [hnil] at hexposed

theorem kind_of_error {cs : List Component} {e : Error}
    (h : nodesOf text stop [] cs = .error e) : e.kind = .sheet := by
  have haccounts := nodesOf_accounts text stop [] cs
  rw [h] at haccounts
  rcases haccounts with ⟨place, found, rfl⟩ | ⟨start, f, -, rfl⟩ <;> rfl

theorem HaveNodes.exists_node {segments : List Segment} {nodes : List Node}
    (h : HaveNodes text stop segments nodes) {segment : Segment} (hsegment : segment ∈ segments) :
    ∃ after node?, segment.HasNode text stop after node? := by
  induction h with
  | nil => exact absurd hsegment List.not_mem_nil
  | cons hnode _ ih =>
    rcases List.mem_cons.1 hsegment with rfl | hmem
    · exact ⟨_, _, hnode⟩
    · exact ih hmem

theorem exists_haveNodes {segments : List Segment}
    (h : ∀ segment ∈ segments, ∀ after, ∃ node?, segment.HasNode text stop after node?) :
    ∃ nodes, HaveNodes text stop segments nodes := by
  induction segments with
  | nil => exact ⟨[], .nil⟩
  | cons segment segments ih =>
    obtain ⟨hsegment, hsegments⟩ := List.forall_mem_cons.1 h
    obtain ⟨node?, hnode⟩ := hsegment (componentsAll segments)
    obtain ⟨nodes, hnodes⟩ := ih hsegments
    exact ⟨_, .cons hnode hnodes⟩

theorem IsBroken.not_hasNode {run : List Component} (h : IsBroken text run) {segment : Segment}
    (hrun : segment.statement? = some run) {after : List Component} {node? : Option Node} :
    ¬segment.HasNode text stop after node? := by
  have hnone : ∀ stop node, ¬IsStatement text stop run node := by
    intro stop node hnode
    obtain ⟨e, he⟩ := h.exists_error stop
    cases he.symm.trans hnode.statementOf_eq
  intro hnode
  cases hnode with
  | ended hnode =>
    cases hrun
    exact hnone _ _ hnode
  | last hnode =>
    cases hrun
    exact hnone _ _ hnode
  | _ => cases hrun

theorem IsRefused.not_ok {cs : List Component} (h : IsRefused text cs) :
    ∀ stop nodes, nodesOf text stop [] cs ≠ .ok nodes := by
  -- Induction on how deep the fault or the broken statement is.
  induction h with
  | fault hfault => exact fun stop nodes hok => not_fault_of_ok hok _ _ hfault
  | statement hdivision hsegment hrun hbroken =>
    intro stop nodes hok
    have hnodes := (hdivision.nodesOf_eq_ok_iff (not_fault_of_ok hok)).1 hok
    obtain ⟨after, node?, hnode⟩ := hnodes.exists_node hsegment
    exact hbroken.not_hasNode hrun hnode
  | @inside cs start content close hblock _ ih =>
    intro stop nodes hok
    obtain ⟨segments, hdivision⟩ := exists_division cs isRun_nil
    have hnodes := (hdivision.nodesOf_eq_ok_iff (not_fault_of_ok hok)).1 hok
    obtain ⟨prelude, hmem⟩ := hdivision.exists_block hblock
    obtain ⟨after, node?, hnode⟩ := hnodes.exists_node hmem
    cases hnode with
    | block hchildren _ => exact ih _ _ hchildren

/-- **A block is read unless it is refused.** -/
theorem exists_nodes (cs : List Component) (stop : Nat) (h : ¬IsRefused text cs) :
    ∃ nodes, nodesOf text stop [] cs = .ok nodes := by
  -- Induction on the nesting: the blocks in it are.
  obtain ⟨segments, hdivision⟩ := exists_division cs isRun_nil
  have hstatement : ∀ run stop, (∃ segment ∈ segments, segment.statement? = some run) →
      ∃ node, IsStatement text stop run node := by
    rintro run stop ⟨segment, hsegment, hrun⟩
    rcases isStatement_or_isBroken text stop run with hnode | hbroken
    · exact hnode
    · exact absurd (.statement hdivision hsegment hrun hbroken) h
  have hnodes : ∀ segment ∈ segments, ∀ after, ∃ node?, segment.HasNode text stop after node? := by
    intro segment hsegment after
    cases segment with
    | space start => exact ⟨_, .space⟩
    | comment start t closed => exact ⟨_, .comment⟩
    | semicolon start => exact ⟨_, .semicolon⟩
    | ended run mark =>
      obtain ⟨node, hnode⟩ := hstatement run mark ⟨_, hsegment, rfl⟩
      exact ⟨_, .ended hnode⟩
    | last run =>
      obtain ⟨node, hnode⟩ := hstatement run stop ⟨_, hsegment, rfl⟩
      exact ⟨_, .last hnode⟩
    | block prelude start content close =>
      have hblock : .block start .curly content close ∈ cs :=
        hdivision.mem_of_mem hsegment (List.mem_append_right _ (List.mem_singleton.2 rfl))
      -- The content of a block is smaller than the row that the block is in.
      have hsmaller : sizeOf content < sizeOf cs := by
        have hlt := List.sizeOf_lt_of_mem hblock
        simp only [Component.block.sizeOf_spec] at hlt
        omega
      obtain ⟨children, hchildren⟩ :=
        exists_nodes content (contentEnd text after stop) fun hcontent =>
          h (.inside hblock hcontent)
      exact ⟨_, .block hchildren (blockOf_eq_iff.1 rfl)⟩
  obtain ⟨nodes, hnodes⟩ := exists_haveNodes hnodes
  have hfault : ∀ start f, .fault start f ∉ cs := fun start f hmem => h (.fault hmem)
  exact ⟨nodes, (hdivision.nodesOf_eq_ok_iff hfault).2 hnodes⟩
termination_by sizeOf cs

/-- **A block is read by its one division**: to the nodes of its comments, statements and blocks, in
their order. It is refused exactly if a fault stands in it or a statement in it is broken, directly
or in a block of it, and always as a style sheet. -/
theorem nodesOf_follows_division (text : Text) (stop : Nat) (cs : List Component) :
    ∃ segments, IsDivision segments cs ∧ (∀ other, IsDivision other cs → other = segments) ∧
      (∀ nodes, nodesOf text stop [] cs = .ok nodes ↔
        (∀ start f, .fault start f ∉ cs) ∧ HaveNodes text stop segments nodes) ∧
      ((∃ e, nodesOf text stop [] cs = .error e) ↔ IsRefused text cs) ∧
      ∀ e, nodesOf text stop [] cs = .error e → e.kind = .sheet := by
  obtain ⟨segments, hdivision⟩ := exists_division cs isRun_nil
  refine ⟨segments, hdivision, fun other hother => ?_, fun nodes => ?_, ?_, fun e => kind_of_error⟩
  · exact hdivision.unique hother
  · constructor
    · intro hok
      have hfault := not_fault_of_ok hok
      exact ⟨hfault, (hdivision.nodesOf_eq_ok_iff hfault).1 hok⟩
    · exact fun ⟨hfault, hnodes⟩ => (hdivision.nodesOf_eq_ok_iff hfault).2 hnodes
  · constructor
    · rintro ⟨e, he⟩
      -- What is not refused has nodes, so an error means that it is refused.
      by_contra hrefused
      obtain ⟨nodes, hok⟩ := exists_nodes cs stop hrefused
      cases he.symm.trans hok
    · intro hrefused
      cases hread : nodesOf text stop [] cs with
      | error e => exact ⟨e, rfl⟩
      | ok nodes => exact absurd hread (hrefused.not_ok stop nodes)

end Sheet

end FluidCss
