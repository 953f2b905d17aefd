import FluidCss.Proofs.Result
import FluidCss.Proofs.Sheet.Role

/-!
# Faults of a style sheet

Statements are divided at the components of a block and of the blocks in curly brackets in it. A
fault that stands there is *exposed*: it ends the reading, and the first one is reported. What is in
round or square brackets, or in a function call, is cut out as text with the faults in it, so a
sheet can be read although its tokens are faulty.

* `parse_refuses_exposed`: a sheet with an exposed fault is not read, and a fault that is reported
  is the first exposed one, at its place.
* `nested_fault_passes`: a fault at another depth can be passed over.
-/

namespace FluidCss

namespace Component

mutual

/-- The faults in a component, at every depth, with their offsets. -/
def faults : Component → List (Nat × Fault)
  | leaf .. => []
  | fault start f => [(start, f)]
  | function _ _ content _ => faultsAll content
  | block _ _ content _ => faultsAll content

def faultsAll : List Component → List (Nat × Fault)
  | [] => []
  | c :: cs => faults c ++ faultsAll cs

end

mutual

/-- The faults of a component where statements are divided. -/
def exposed : Component → List (Nat × Fault)
  | fault start f => [(start, f)]
  | block _ .curly content _ => exposedAll content
  | _ => []

/-- The faults of components where statements are divided, in the order of the text. -/
def exposedAll : List Component → List (Nat × Fault)
  | [] => []
  | c :: cs => exposed c ++ exposedAll cs

end

mutual

theorem exposed_sublist : ∀ c : Component, (exposed c).Sublist (faults c)
  | leaf .. => .slnil
  | fault .. => .refl _
  | function .. => List.nil_sublist _
  | block _ .round .. => List.nil_sublist _
  | block _ .square .. => List.nil_sublist _
  | block _ .curly content _ => exposedAll_sublist content

theorem exposedAll_sublist : ∀ cs : List Component, (exposedAll cs).Sublist (faultsAll cs)
  | [] => .slnil
  | c :: cs => (exposed_sublist c).append (exposedAll_sublist cs)

end

end Component

namespace Sheet

open Component

/-- A component that is no fault and no block in curly brackets exposes nothing. -/
theorem exposed_eq_nil {c : Component} (hfault : ∀ f, roleOf c ≠ .fault f)
    (hblock : roleOf c ≠ .block) : exposed c = [] := by
  cases c with
  | fault start f => exact absurd rfl (hfault f)
  | block start bracket content close =>
    cases bracket with
    | curly => exact absurd rfl hblock
    | _ => rfl
  | _ => rfl

theorem exposed_of_roleOf_fault {c : Component} {f : Fault} (h : roleOf c = .fault f) :
    exposed c = [(c.start, f)] := by
  obtain ⟨start, rfl⟩ := Role.fits_of_roleOf h
  rfl

/-! ## What an outcome tells of faults -/

/-- An outcome of reading components fits the faults they expose: there is no result if there is
one, and a failure is either a broken statement or the first exposed fault. -/
def Accounts {α : Type} (text : Text) (exposed : List (Nat × Fault)) : Except Error α → Prop
  | .ok _ => exposed = []
  | .error e => (∃ place found, e = .statementExpected place found) ∨
      ∃ start f, exposed.head? = some (start, f) ∧
        e = .sheetFault f (Location.ofOffset text start)

section

variable {α β : Type} {text : Text} {first second : List (Nat × Fault)} {x : Except Error α}

/-- A failure tells of the faults that come first, so more faults may follow. -/
theorem Accounts.append_of_error {e : Error}
    (h : Accounts (α := α) text first (.error e)) :
    Accounts (α := β) text (first ++ second) (.error e) := by
  rcases h with h | ⟨start, f, hhead, he⟩
  · exact .inl h
  · refine .inr ⟨start, f, ?_, he⟩
    rw [List.head?_append, hhead]
    rfl

theorem Accounts.bind {next : α → Except Error β} (hx : Accounts text first x)
    (hnext : ∀ a, Accounts text second (next a)) :
    Accounts text (first ++ second) (x >>= next) := by
  cases x with
  | error e => exact hx.append_of_error
  | ok a =>
    have hfirst : first = [] := hx
    rw [hfirst]
    exact hnext a

theorem Accounts.map (g : α → β) (hx : Accounts text first x) :
    Accounts text first (x >>= fun a => pure (g a)) := by
  cases x with
  | error e => exact hx
  | ok a => exact hx

end

/-- A statement fails as a statement only. -/
theorem statementOf_accounts (text : Text) (components : List Component) (stop : Nat) :
    Accounts text [] (statementOf text components stop) := by
  unfold statementOf
  split
  · rfl
  · unfold declarationOf
    split
    · exact .inl ⟨_, _, rfl⟩
    · dsimp only
      split
      · exact .inl ⟨_, _, rfl⟩
      · rfl

mutual

theorem childrenOf_accounts (text : Text) (stop : Nat) :
    ∀ c : Component, roleOf c = .block → Accounts text (exposed c) (childrenOf text stop c)
  | block _ .curly content _, _ => nodesOf_accounts text stop [] content
  | block _ .round .., h => by cases h
  | block _ .square .., h => by cases h
  | fault .., h => by cases h
  | function .., h => by cases h
  | leaf start l, h => absurd h (roleOf_leaf_ne_block start l)

/-- Reading a block fits the faults exposed in it, whatever statement was begun before. -/
theorem nodesOf_accounts (text : Text) (stop : Nat) (pending : List Component) :
    ∀ cs : List Component, Accounts text (exposedAll cs) (nodesOf text stop pending cs)
  | [] => by
    unfold nodesOf
    split
    · rfl
    · exact (statementOf_accounts text pending stop).map _
  | c :: cs => by
    have hrest := fun pending => nodesOf_accounts text stop pending cs
    -- Faults are exposed by themselves or within blocks, and nothing else has any to show.
    have hquiet : (∀ f, roleOf c ≠ .fault f) → roleOf c ≠ .block →
        exposedAll (c :: cs) = exposedAll cs := by
      intro hfault hblock
      rw [exposedAll, exposed_eq_nil hfault hblock, List.nil_append]
    cases hrole : roleOf c with
    | fault f =>
      simp only [nodesOf, hrole]
      refine .inr ⟨c.start, f, ?_, rfl⟩
      rw [exposedAll, exposed_of_roleOf_fault hrole]
      rfl
    | block =>
      simp only [nodesOf, hrole]
      exact (childrenOf_accounts text _ c hrole).bind fun children => (hrest []).map _
    | space =>
      rw [hquiet (by simp [hrole]) (by simp [hrole])]
      cases pending with
      | nil => simpa only [nodesOf, hrole] using hrest []
      | cons p ps => simpa only [nodesOf, hrole] using hrest (p :: ps ++ [c])
    | comment t =>
      rw [hquiet (by simp [hrole]) (by simp [hrole])]
      cases pending with
      | nil => simpa only [nodesOf, hrole] using (hrest []).map _
      | cons p ps => simpa only [nodesOf, hrole] using hrest (p :: ps ++ [c])
    | semicolon =>
      rw [hquiet (by simp [hrole]) (by simp [hrole])]
      cases pending with
      | nil => simpa only [nodesOf, hrole] using hrest []
      | cons p ps =>
        simp only [nodesOf, hrole]
        exact (statementOf_accounts text (p :: ps) c.start).bind fun node => (hrest []).map _
    | other =>
      rw [hquiet (by simp [hrole]) (by simp [hrole])]
      cases pending with
      | nil => simpa only [nodesOf, hrole, List.nil_append] using hrest [c]
      | cons p ps => simpa only [nodesOf, hrole] using hrest (p :: ps ++ [c])

end

/-! ## Style sheets -/

theorem parse_accounts {source : Text} {cs : List Component}
    (h : ofText (normalize source) = .ok cs) :
    Accounts (normalize source) (exposedAll cs) (parse source) := by
  have hparse : parse source =
      nodesOf (normalize source) (normalize source).length [] cs := by
    simp only [parse, h]
    rfl
  rw [hparse]
  exact nodesOf_accounts _ _ [] cs

/-- **A sheet with an exposed fault is refused**, and a fault that is reported is the first exposed
one, at its place. -/
theorem parse_refuses_exposed {source : Text} {cs : List Component}
    (h : ofText (normalize source) = .ok cs) :
    (exposedAll cs ≠ [] → ∃ e, parse source = .error e ∧ e.kind = .sheet) ∧
    ∀ f place, parse source = .error (.sheetFault f place) →
      ∃ start, (exposedAll cs).head? = some (start, f) ∧
        place = Location.ofOffset (normalize source) start := by
  have haccounts := parse_accounts h
  constructor
  · intro hexposed
    cases hparse : parse source with
    | ok nodes =>
      rw [hparse] at haccounts
      exact absurd haccounts hexposed
    | error e =>
      rw [hparse] at haccounts
      refine ⟨e, rfl, ?_⟩
      rcases haccounts with ⟨place, found, rfl⟩ | ⟨start, f, -, rfl⟩ <;> rfl
  -- A statement that is broken is reported as such, so a fault that is reported is an exposed one.
  · intro f place hparse
    rw [hparse] at haccounts
    rcases haccounts with ⟨_, _, he⟩ | ⟨start, f', hhead, he⟩
    · cases he
    · cases he
      exact ⟨start, hhead, rfl⟩

/-- The text of a sheet with a fault in the second of two nested blocks. -/
def faultyBlocks : Text := "a { b: c; d { e: (f); ] } }"

theorem parse_refuses_exposed_faultyBlocks : ∃ cs, ofText (normalize faultyBlocks) = .ok cs ∧
    exposedAll cs ≠ [] ∧ ∃ e, parse faultyBlocks = .error e ∧ e.kind = .sheet := by
  have hread : ofText (normalize faultyBlocks) = .ok (ofLexemes (Lexeme.scan 0 0 faultyBlocks)) :=
    rfl
  have hexposed : exposedAll (ofLexemes (Lexeme.scan 0 0 faultyBlocks)) ≠ [] := by decide +kernel
  exact ⟨_, hread, hexposed, (parse_refuses_exposed hread).1 hexposed⟩

/-- **A fault in brackets can be passed over**: a closing bracket that closes nothing makes its way
into a value. -/
theorem nested_fault_passes : ¬ ∀ (source : Text) (cs : List Component),
    ofText (normalize source) = .ok cs → faultsAll cs ≠ [] →
    ∃ e, parse source = .error e ∧ e.kind = .sheet := by
  intro h
  obtain ⟨e, he, -⟩ := h "a:(])" (ofLexemes (Lexeme.scan 0 0 "a:(])")) rfl (by decide +kernel)
  have hok : parse "a:(])" = .ok [.declaration "a" "(])"] := rfl
  rw [hok] at he
  cases he

end Sheet

end FluidCss
