import FluidCss.Proofs.Sheet.Edit

/-!
# Work on the children of one container

A visitor works on the children of a container from left to right. What it has to know of the forest
is a window: the container lists some branches between other children. What it does to the forest is
a rewriting: cells outside the branches of the window stay as they are, apart from the container
itself, and the branches that come in hold nodes of the old ones or new nodes.

* `Window.next`: after work on the first branch the window moves on to the others.
* `Window.join`: the windows on what is done and on what comes after it are one window.
* `Window.splice`: work on a single branch gives a window again.
-/

namespace FluidCss.Forest

open Branch

/-- A container lists branches between other children; `before` and the branches have no nodes in
common. -/
structure Window (f : Forest) (id : NodeId) (content : Content) (above : Option NodeId)
    (before : List NodeId) (bs : List Branch) (after : List NodeId) : Prop where
  get? : f.get? id = some ⟨content, above, before ++ bs.map Branch.root ++ after⟩
  holds : f.HoldsAll (some id) bs
  nodup : (idsAll bs).Nodup
  notMem : id ∉ idsAll bs
  before_lt : ∀ i ∈ before, i < f.size
  before_notMem : ∀ i ∈ before, i ∉ idsAll bs

/-- Branches of a container become others, and no other cell changes. -/
structure Rewrites (f g : Forest) (id : NodeId) (bs bs' : List Branch) : Prop where
  size_le : f.size ≤ g.size
  get?_eq : ∀ i < f.size, i ≠ id → i ∉ idsAll bs → g.get? i = f.get? i
  origin : ∀ i ∈ idsAll bs', i ∈ idsAll bs ∨ f.size ≤ i

theorem Rewrites.refl (f : Forest) (id : NodeId) (bs : List Branch) : Rewrites f f id bs bs :=
  ⟨Nat.le_refl _, fun _ _ _ _ => rfl, fun _ hi => .inl hi⟩

theorem Rewrites.append {f g h : Forest} {id : NodeId} {as as' bs bs' : List Branch}
    (h₁ : Rewrites f g id as as') (h₂ : Rewrites g h id bs bs') :
    Rewrites f h id (as ++ bs) (as' ++ bs') where
  size_le := Nat.le_trans h₁.size_le h₂.size_le
  get?_eq i hi hid hn := by
    rw [idsAll_append, List.mem_append, not_or] at hn
    rw [h₂.get?_eq i (Nat.lt_of_lt_of_le hi h₁.size_le) hid hn.2, h₁.get?_eq i hi hid hn.1]
  origin i hi := by
    rw [idsAll_append, List.mem_append] at hi ⊢
    rcases hi with hi | hi
    · exact (h₁.origin i hi).imp_left .inl
    · rcases h₂.origin i hi with hi | hi
      · exact .inl (.inr hi)
      · exact .inr (Nat.le_trans h₁.size_le hi)

namespace Window

variable {f g h : Forest} {id : NodeId} {content : Content} {above : Option NodeId}
  {before after : List NodeId} {b : Branch} {bs bs' cs : List Branch}

theorem lt_size (hw : Window f id content above before bs after) : id < f.size :=
  lt_size_of_get? hw.get?

theorem children_eq (hw : Window f id content above [] bs []) :
    f.children id = bs.map Branch.root := by
  simp [children, hw.get?]

theorem holds_mk (hw : Window f id content above [] bs []) : f.Holds above ⟨id, content, bs⟩ :=
  ⟨by simpa using hw.get?, hw.holds⟩

theorem nodup_mk (hw : Window f id content above [] bs []) :
    (Branch.ids ⟨id, content, bs⟩).Nodup := List.nodup_cons.2 ⟨hw.notMem, hw.nodup⟩

theorem of_holds (hb : f.Holds above ⟨id, content, bs⟩)
    (hn : (Branch.ids ⟨id, content, bs⟩).Nodup) : Window f id content above [] bs [] where
  get? := by simpa using hb.1
  holds := hb.2
  nodup := (List.nodup_cons.1 hn).2
  notMem := (List.nodup_cons.1 hn).1
  before_lt i hi := absurd hi List.not_mem_nil
  before_notMem i hi := absurd hi List.not_mem_nil

theorem head (hw : Window f id content above before (b :: bs) after) :
    Window f id content above before [b] (bs.map Branch.root ++ after) where
  get? := by simpa using hw.get?
  holds := ⟨hw.holds.1, trivial⟩
  nodup := by simpa using (List.nodup_append.1 hw.nodup).1
  notMem hmem := hw.notMem (List.mem_append_left _ (by simpa using hmem))
  before_lt := hw.before_lt
  before_notMem i hi hmem := hw.before_notMem i hi (List.mem_append_left _ (by simpa using hmem))

/-- The branches beside those that are worked on are not affected. -/
theorem notMem_of_rewrites (hw : Window f id content above before (b :: bs) after)
    (hr : Rewrites f g id [b] bs') {i : NodeId} (hi : i ∈ idsAll bs) : i ∉ idsAll bs' := by
  intro hmem
  have hlt : i < f.size := hw.holds.2.lt_size i hi
  rcases hr.origin i hmem with ho | ho
  · exact (List.nodup_append.1 hw.nodup).2.2 i (by simpa using ho) i hi rfl
  · exact Nat.not_lt_of_le ho hlt

/-- **The window moves on** when the first branch is done. -/
theorem next (hw : Window f id content above before (b :: bs) after)
    (hg : Window g id content above before bs' (bs.map Branch.root ++ after))
    (hr : Rewrites f g id [b] bs') :
    Window g id content above (before ++ bs'.map Branch.root) bs after where
  get? := by simpa using hg.get?
  -- The branches to come are apart from the first one, so its rewriting leaves them alone.
  holds := hw.holds.2.congr fun i hi => by
    refine hr.get?_eq i (hw.holds.2.lt_size i hi) ?_ ?_
    · rintro rfl
      exact hw.notMem (List.mem_append_right _ hi)
    · intro hmem
      exact (List.nodup_append.1 hw.nodup).2.2 i (by simpa using hmem) i hi rfl
  nodup := (List.nodup_append.1 hw.nodup).2.1
  notMem hmem := hw.notMem (List.mem_append_right _ hmem)
  before_lt i hi := by
    rcases List.mem_append.1 hi with hi | hi
    · exact hg.before_lt i hi
    · obtain ⟨b', hb', rfl⟩ := List.mem_map.1 hi
      exact hg.holds.lt_size _ (root_mem_idsAll hb')
  before_notMem i hi hmem := by
    rcases List.mem_append.1 hi with hi | hi
    · exact hw.before_notMem i hi (List.mem_append_right _ hmem)
    · obtain ⟨b', hb', rfl⟩ := List.mem_map.1 hi
      exact hw.notMem_of_rewrites hr hmem (root_mem_idsAll hb')

/-- **What is done and what comes after it** are listed side by side. -/
theorem join (hg : Window g id content above before bs' (bs.map Branch.root ++ after))
    (hdisjoint : ∀ i ∈ idsAll bs, i ∉ idsAll bs')
    (hr : Rewrites g h id bs cs)
    (hh : Window h id content above (before ++ bs'.map Branch.root) cs after) :
    Window h id content above before (bs' ++ cs) after where
  get? := by simpa using hh.get?
  holds := holdsAll_append.2 ⟨hg.holds.congr fun i hi => by
    refine hr.get?_eq i (hg.holds.lt_size i hi) ?_ fun hmem => hdisjoint i hmem hi
    rintro rfl
    exact hg.notMem hi, hh.holds⟩
  nodup := by
    rw [idsAll_append]
    refine List.nodup_append.2 ⟨hg.nodup, hh.nodup, ?_⟩
    rintro i hi j hj rfl
    rcases hr.origin i hj with ho | ho
    -- A node of the later branches is one of the old ones there or newer than all that were done.
    · exact hdisjoint i ho hi
    · exact Nat.not_lt_of_le ho (hg.holds.lt_size i hi)
  notMem hmem := by
    rw [idsAll_append] at hmem
    exact (List.mem_append.1 hmem).elim hg.notMem hh.notMem
  before_lt i hi := hh.before_lt i (List.mem_append_left _ hi)
  before_notMem i hi hmem := by
    rw [idsAll_append] at hmem
    exact (List.mem_append.1 hmem).elim (hg.before_notMem i hi)
      (hh.before_notMem i (List.mem_append_left _ hi))

/-- **Work on one branch**: the container lists other branches in its place. -/
theorem splice (hw : Window f id content above before [b] after)
    (hget : g.get? id = some ⟨content, above, before ++ bs'.map Branch.root ++ after⟩)
    (hholds : g.HoldsAll (some id) bs') (hnodup : (idsAll bs').Nodup)
    (hr : Rewrites f g id [b] bs') : Window g id content above before bs' after where
  get? := hget
  holds := hholds
  nodup := hnodup
  notMem hmem := by
    rcases hr.origin id hmem with ho | ho
    · exact hw.notMem ho
    · exact Nat.not_lt_of_le ho hw.lt_size
  before_lt i hi := Nat.lt_of_lt_of_le (hw.before_lt i hi) hr.size_le
  before_notMem i hi hmem := by
    rcases hr.origin i hmem with ho | ho
    · exact hw.before_notMem i hi ho
    · exact Nat.not_lt_of_le ho (hw.before_lt i hi)

/-- A container among the branches has a window on its own children. -/
theorem inner {root : NodeId} {inside : Content} {children : List Branch}
    (hw : Window f id content above before [⟨root, inside, children⟩] after) :
    Window f root inside (some id) [] children [] :=
  of_holds hw.holds.1 (by simpa using hw.nodup)

/-- What happens to the children of a container among the branches happens to the branch. -/
theorem outer {root : NodeId} {inside : Content} {children children' : List Branch}
    (hw : Window f id content above before [⟨root, inside, children⟩] after)
    (hg : Window g root inside (some id) [] children' [])
    (hr : Rewrites f g root children children') :
    Window g id content above before [⟨root, inside, children'⟩] after ∧
      Rewrites f g id [⟨root, inside, children⟩] [⟨root, inside, children'⟩] := by
  have hids : ∀ cs : List Branch, idsAll [⟨root, inside, cs⟩] = root :: idsAll cs := by
    intro cs
    simp [ids]
  -- The container of the window is above the branch, so its own cell is not rewritten.
  have hnotMem : id ∉ root :: idsAll children := hids children ▸ hw.notMem
  have hrewrites : Rewrites f g id [⟨root, inside, children⟩] [⟨root, inside, children'⟩] := by
    refine ⟨hr.size_le, fun i hi _ hn => ?_, fun i hi => ?_⟩
    · rw [hids, List.mem_cons, not_or] at hn
      exact hr.get?_eq i hi hn.1 hn.2
    · rw [hids] at hi ⊢
      rcases List.mem_cons.1 hi with rfl | hi
      · exact .inl List.mem_cons_self
      · exact (hr.origin i hi).imp_left (List.mem_cons_of_mem _)
  refine ⟨hw.splice ?_ ⟨hg.holds_mk, trivial⟩ (by simpa using hg.nodup_mk) hrewrites, hrewrites⟩
  rw [List.mem_cons, not_or] at hnotMem
  rw [hr.get?_eq id hw.lt_size hnotMem.1 hnotMem.2, hw.get?]
  rfl

theorem setContent {root : NodeId} {inside inside' : Content} {children : List Branch}
    (hw : Window f id content above before [⟨root, inside, children⟩] after) :
    Window (f.setContent root inside') id content above before [⟨root, inside', children⟩] after ∧
      Rewrites f (f.setContent root inside') id [⟨root, inside, children⟩]
        [⟨root, inside', children⟩] := by
  have hother : ∀ i, i ≠ root → (f.setContent root inside').get? i = f.get? i := by
    intro i hi
    rw [get?_setContent, if_neg (Ne.symm hi)]
  have hrewrites : Rewrites f (f.setContent root inside') id [⟨root, inside, children⟩]
      [⟨root, inside', children⟩] :=
    ⟨by simp, fun i _ _ hi => hother i fun he => hi (he ▸ List.mem_cons_self),
      fun i hi => .inl hi⟩
  refine ⟨hw.splice ?_ ⟨⟨?_, ?_⟩, trivial⟩ hw.nodup hrewrites, hrewrites⟩
  · rw [hother id fun he => hw.notMem (he ▸ List.mem_cons_self), hw.get?]
    rfl
  · rw [get?_setContent, if_pos rfl, hw.holds.1.1]
    rfl
  · exact hw.inner.holds.congr fun i hi => hother i fun he => hw.inner.notMem (he ▸ hi)

end Window

/-! ## Putting new branches in the place of one -/

theorem nodup_roots {bs : List Branch} (h : (idsAll bs).Nodup) : (bs.map Branch.root).Nodup := by
  induction bs with
  | nil => exact List.nodup_nil
  | cons b bs ih =>
    obtain ⟨-, hbs, hdisjoint⟩ := List.nodup_append.1 h
    refine List.nodup_cons.2 ⟨fun hmem => ?_, ih hbs⟩
    obtain ⟨c, hc, hroot⟩ := List.mem_map.1 hmem
    exact hdisjoint b.root (root_mem_ids b) c.root (root_mem_idsAll hc) hroot.symm

theorem HoldsAll.reparent {f g : Forest} {old new : Option NodeId} :
    ∀ {bs : List Branch}, f.HoldsAll old bs → (idsAll bs).Nodup →
      (∀ b ∈ bs, g.get? b.root = (f.get? b.root).map fun c => { c with parent := new }) →
      (∀ i ∈ idsAll bs, i ∉ bs.map Branch.root → g.get? i = f.get? i) → g.HoldsAll new bs
  | [], _, _, _, _ => trivial
  | ⟨root, content, children⟩ :: bs, h, hn, hroots, hothers => by
    obtain ⟨hb, hbs, hdisjoint⟩ := List.nodup_append.1 hn
    obtain ⟨hroot, -⟩ := List.nodup_cons.1 hb
    refine ⟨⟨?_, h.1.2.congr fun i hi => hothers i ?_ ?_⟩, h.2.reparent hbs ?_ ?_⟩
    · rw [hroots _ List.mem_cons_self, h.1.1]
      rfl
    · exact List.mem_append_left _ (List.mem_cons_of_mem _ hi)
    -- Nodes below a root are no roots themselves.
    · rw [List.map_cons, List.mem_cons, not_or]
      refine ⟨fun he : i = root => hroot (he ▸ hi), fun hmem => ?_⟩
      obtain ⟨c, hc, rfl⟩ := List.mem_map.1 hmem
      exact hdisjoint c.root (List.mem_cons_of_mem _ hi) c.root (root_mem_idsAll hc) rfl
    · exact fun b hb => hroots b (List.mem_cons_of_mem _ hb)
    · intro i hi hnot
      refine hothers i (List.mem_append_right _ hi) ?_
      rw [List.map_cons, List.mem_cons, not_or]
      exact ⟨fun he => hdisjoint root List.mem_cons_self i hi he.symm, hnot⟩

/-- **A branch is replaced by trees**: they are planted, and then they take its place. Neither step
can fail. -/
theorem Window.replaceWith_planted {f : Forest} {id : NodeId} {content : Content}
    {above : Option NodeId} {before after : List NodeId} {b : Branch}
    (hw : Window f id content above before [b] after) (trees : List Node) :
    ∃ g bs, Edit.replaceWith b.root (f.plantAll none trees).1 (f.plantAll none trees).2 = .ok () g ∧
      Window g id content above before bs after ∧ Rewrites f g id [b] bs ∧ nodes bs = trees := by
  obtain ⟨bs, hids, hnodes, hfresh⟩ := plantAll_fresh f none trees
  have hroot : b.root < f.size := hw.holds.1.lt_size _ (root_mem_ids b)
  have hb : b.root ∈ idsAll [b] := by simpa using root_mem_ids b
  have hne : b.root ≠ id := fun he => hw.notMem (he ▸ hb)
  -- Planted nodes are newer than the container and the branch.
  have hnew : ∀ i ∈ idsAll bs, i ≠ id ∧ i ≠ b.root := fun i hi =>
    ⟨Nat.ne_of_gt (Nat.lt_of_lt_of_le hw.lt_size (hfresh.size_le i hi)),
      Nat.ne_of_gt (Nat.lt_of_lt_of_le hroot (hfresh.size_le i hi))⟩
  have hold : ∀ {i}, i ∈ bs.map Branch.root → i ∈ idsAll bs := by
    intro i hi
    obtain ⟨c, hc, rfl⟩ := List.mem_map.1 hi
    exact root_mem_idsAll hc
  obtain ⟨g, hg, hsize, hget, hroots, hothers⟩ := Edit.replaceWith_eq_ok
    ((hfresh.grows.get?_eq _ hroot).trans hw.holds.1.get?) rfl
    ((hfresh.grows.get?_eq id hw.lt_size).trans hw.get?)
    (by simp only [List.map_cons, List.map_nil, List.append_assoc, List.singleton_append]; rfl)
    hne (fun hmem => hw.before_notMem _ hmem hb) (nodup_roots hfresh.nodup)
    (fun hmem => (hnew id (hold hmem)).1 rfl)
    (fun n hn => by
      obtain ⟨c, hc, rfl⟩ := List.mem_map.1 hn
      simp [parent?, (holdsAll_iff.1 hfresh.holds c hc).get?])
  have hrewrites : Rewrites f g id [b] bs := by
    refine ⟨?_, fun i hi hid hn => ?_, fun i hi => .inr (hfresh.size_le i hi)⟩
    · rw [hsize]
      exact hfresh.grows.size_le
    · rw [hothers i hid (fun he => hn (he ▸ hb)) fun hmem =>
        Nat.not_lt_of_le (hfresh.size_le i (hold hmem)) hi]
      exact hfresh.grows.get?_eq i hi
  refine ⟨g, bs, hids ▸ hg, hw.splice hget ?_ hfresh.nodup hrewrites, hrewrites, hnodes⟩
  refine hfresh.holds.reparent hfresh.nodup (fun c hc => hroots c.root (List.mem_map_of_mem hc)) ?_
  exact fun i hi hnot => hothers i (hnew i hi).1 (hnew i hi).2 hnot

end FluidCss.Forest
