import FluidCss.Proofs.Run.Visit

/-!
# Runs that fail

A call that fails stops at a declaration or a directive. It has not begun to work on that item: no
effect of a directive comes before a step that can fail, and in a well-formed forest the replacement
of a directive cannot fail.

* `Fold.Stops.unchanged`: the item, what is in it and what comes after it keep their cells.
* `Run.process_stops`: what a call that fails leaves behind.
-/

namespace FluidCss

open Branch Forest

namespace Fold.Stops

variable {settings : Settings} {registry registry' : Registry} {bs bs' : List Branch} {d : Branch}
  {e : Error}

/-- The fold fails on the item, with the registry that is left. -/
theorem fails (h : Stops settings registry bs d e registry' bs') :
    d.content.IsItem ∧ node settings registry' d.node = .error e := by
  induction h with
  | item hitem herror => exact ⟨hitem, herror⟩
  | inside _ _ ih => exact ih
  | past _ _ ih => exact ih

/-- **The item, what is in it and what comes after it keep their cells**, and with them their
places. Containers of the item count as coming before it. -/
theorem unchanged {f g : Forest} {parent : Option NodeId}
    (h : Stops settings registry bs d e registry' bs') (hf : f.HoldsAll parent bs)
    (hg : g.HoldsAll parent bs') :
    ∃ earlier earlier' later, idsAll bs = earlier ++ d.ids ++ later ∧
      idsAll bs' = earlier' ++ d.ids ++ later ∧ ∀ i ∈ d.ids ++ later, g.get? i = f.get? i := by
  induction h generalizing parent with
  | @item _ b bs _ _ _ => exact ⟨[], [], idsAll bs, rfl, rfl, hf.get?_eq hg⟩
  | @inside _ _ root _ _ _ bs _ _ _ _ ih =>
    obtain ⟨earlier, earlier', later, hids, hids', hget⟩ := ih hf.1.2 hg.1.2
    refine ⟨root :: earlier, root :: earlier', later ++ idsAll bs, ?_, ?_, fun i hi => ?_⟩
    · simp [ids, hids]
    · simp [ids, hids']
    · rw [← List.append_assoc] at hi
      rcases List.mem_append.1 hi with hi | hi
      · exact hget i hi
      · exact hf.2.get?_eq hg.2 i hi
  | @past _ _ _ b _ _ new _ _ _ _ ih =>
    obtain ⟨earlier, earlier', later, hids, hids', hget⟩ := ih hf.2 (holdsAll_append.1 hg).2
    exact ⟨b.ids ++ earlier, idsAll new ++ earlier', later, by simp [hids], by simp [hids'], hget⟩

end Fold.Stops

namespace Run

/-- What a failed call on a container leaves behind: its branches were `bs` and are `bs'`, and `d`
is the item that it failed on. -/
structure Stopped (settings : Settings) (run run' : Run) (id : NodeId) (bs bs' : List Branch)
    (d : Branch) (e : Error) : Prop where
  /-- The container has kept its own cell but for the children. -/
  holds : ∃ content above, run.forest.Holds above ⟨id, content, bs⟩ ∧
    run'.forest.Holds above ⟨id, content, bs'⟩
  /-- What comes before the item is what the fold makes of it, and so is the registry. -/
  stops : Fold.Stops settings run.registry bs d e run'.registry bs'
  /-- The item is one on which the fold fails, with the registry that is left. -/
  fails : d.content.IsItem ∧ Fold.node settings run'.registry d.node = .error e
  /-- The item and what comes after it are as they were, and where they were. -/
  unchanged : ∃ earlier earlier' later, idsAll bs = earlier ++ d.ids ++ later ∧
    idsAll bs' = earlier' ++ d.ids ++ later ∧
    ∀ i ∈ d.ids ++ later, run'.forest.get? i = run.forest.get? i
  /-- So is all that is not in the container. -/
  outside : ∀ i < run.forest.size, i ≠ id → i ∉ idsAll bs →
    run'.forest.get? i = run.forest.get? i

/-- **A call that fails stops at an item** and leaves nothing half-done. -/
theorem process_stops {settings : Settings} {run run' : Run} {id : NodeId} {e : Error}
    (hf : run.forest.WellFormed) (h : process settings id run = .error e run') :
    ∃ bs bs' d, Stopped settings run run' id bs bs' d e := by
  by_cases hid : id < run.forest.size
  · obtain ⟨⟨_, content, bs⟩, rfl, hholds, hnodup, -⟩ := hf.exists_holds hid
    have hvisited := process_visited settings (Window.of_holds hholds hnodup)
    rw [h] at hvisited
    obtain ⟨d, bs', hw, hr, hstops, -⟩ := hvisited
    exact ⟨bs, bs', d, ⟨content, _, hholds, hw.holds_mk⟩, hstops, hstops.fails,
      hstops.unchanged hholds.2 hw.holds, hr.get?_eq⟩
  · have hnone : run.forest.get? id = none := Array.getElem?_eq_none (Nat.le_of_not_lt hid)
    have hok : process settings id run = .ok () run := by
      show (run.forest.children id).forM (visit settings (processChildren settings run.forest.size))
        run = _
      rw [Forest.children, hnone]
      rfl
    rw [hok] at h
    cases h

/-- A style sheet with an inline call, and a directive with another one after it. -/
def brokenSheet : Forest :=
  (Forest.empty.plant none (.root [.declaration "a" "ruler.fluid(1, 2)",
    .rule "b" [.atRule "ruler" "scale(3)" false [], .declaration "c" "ruler.fluid(1, 2)"]])).2

theorem process_stops_brokenSheet : ∃ e run',
    process .default 0 ⟨.empty, brokenSheet, []⟩ = .error e run' ∧
    ∃ bs bs' d, Stopped .default ⟨.empty, brokenSheet, []⟩ run' 0 bs bs' d e := by
  have hf : brokenSheet.WellFormed :=
    wellFormed_of_forall_lt (by decide +kernel) (by decide +kernel) (by decide +kernel)
  have herror : ¬ (Step.outcome (process .default 0) ⟨.empty, brokenSheet, []⟩).isOk := by
    decide +kernel
  cases h : process .default 0 ⟨.empty, brokenSheet, []⟩ with
  | ok _ run' =>
    rw [Step.outcome, h] at herror
    exact absurd rfl herror
  | error e run' => exact ⟨e, run', rfl, process_stops hf h⟩

end Run

end FluidCss
