import FluidCss.Run.Step

/-!
# Records and trees

A directive that is replaced leaves a record, and the nodes that stand in its place are those that
the record tells of.

* `Node.Stands`: nodes stand in a row somewhere in a tree.
* `Run.Tells`: what a run has recorded since stands in the tree.
-/

namespace FluidCss

/-- Nodes stand in a row among others, or inside one of them. -/
inductive Node.Stands (row : List Node) : List Node → Prop
  | here (front back : List Node) : Stands row (front ++ row ++ back)
  | rule {front back : List Node} {selector : Text} {children : List Node} :
    Stands row children → Stands row (front ++ .rule selector children :: back)
  | atRule {front back : List Node} {name params : Text} {block : Bool} {children : List Node} :
    Stands row children → Stands row (front ++ .atRule name params block children :: back)

namespace Node.Stands

variable {row ns : List Node}

theorem append_right (h : Stands row ns) (others : List Node) : Stands row (ns ++ others) := by
  cases h with
  | here front back =>
    rw [List.append_assoc]
    exact .here front (back ++ others)
  | rule h =>
    rw [List.append_assoc]
    exact .rule h
  | atRule h =>
    rw [List.append_assoc]
    exact .atRule h

theorem append_left (h : Stands row ns) (others : List Node) : Stands row (others ++ ns) := by
  cases h with
  | here front back =>
    rw [← List.append_assoc, ← List.append_assoc]
    exact .here (others ++ front) back
  | rule h =>
    rw [← List.append_assoc]
    exact .rule h
  | atRule h =>
    rw [← List.append_assoc]
    exact .atRule h

/-- What is part of a row stands where the row does. -/
theorem of_part {front back : List Node} (h : Stands (front ++ row ++ back) ns) :
    Stands row ns := by
  induction h with
  | here front' back' =>
    have hrow : Stands row ((front' ++ front) ++ row ++ (back ++ back')) := .here _ _
    simpa only [List.append_assoc] using hrow
  | rule _ ih => exact .rule ih
  | atRule _ ih => exact .atRule ih

end Node.Stands

/-- The nodes that took the place of a directive, as its record tells. -/
def Record.placed? : Record → Option (List Node)
  | .scaleRegistered scale entries => some (Directive.scaleNodes scale.name entries)
  | .utilityExpanded _ rules => some (Directive.utilityNodes rules)
  | .settingsLoading _ | .scaleCompiled .. | .directiveIgnored _ | .callResolved .. |
    .outputWritten .. => none

namespace Run

/-- What a run has recorded since stands among the nodes. -/
def Tells (run run' : Run) (ns : List Node) : Prop :=
  ∃ records, run'.log = records ++ run.log ∧
    ∀ r ∈ records, ∀ row, r.placed? = some row → Node.Stands row ns

namespace Tells

variable {run run₁ run₂ : Run} {ns ns₁ ns₂ : List Node}

theorem refl (run : Run) (ns : List Node) : Tells run run ns :=
  ⟨[], rfl, fun _ hr => absurd hr List.not_mem_nil⟩

theorem imp (h : Tells run run₁ ns₁) (hns : ∀ row, Node.Stands row ns₁ → Node.Stands row ns₂) :
    Tells run run₁ ns₂ := by
  obtain ⟨records, hlog, hstands⟩ := h
  exact ⟨records, hlog, fun r hr row hrow => hns row (hstands r hr row hrow)⟩

theorem trans (h₁ : Tells run run₁ ns₁) (h₂ : Tells run₁ run₂ ns₂) :
    Tells run run₂ (ns₁ ++ ns₂) := by
  obtain ⟨records₁, hlog₁, hstands₁⟩ := h₁
  obtain ⟨records₂, hlog₂, hstands₂⟩ := h₂
  refine ⟨records₂ ++ records₁, by rw [hlog₂, hlog₁, List.append_assoc], fun r hr row hrow => ?_⟩
  rcases List.mem_append.1 hr with hr | hr
  · exact (hstands₂ r hr row hrow).append_left ns₁
  · exact (hstands₁ r hr row hrow).append_right ns₂

theorem of_none {records : List Record} (hlog : run₁.log = records ++ run.log)
    (h : ∀ r ∈ records, r.placed? = none) (ns : List Node) : Tells run run₁ ns :=
  ⟨records, hlog, fun r hr row hrow => by rw [h r hr] at hrow; cases hrow⟩

end Tells

end Run

end FluidCss
