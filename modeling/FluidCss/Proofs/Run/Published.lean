import FluidCss.Proofs.Param.Key
import FluidCss.Proofs.Run.Invariant
import FluidCss.Proofs.Run.Visit
import FluidCss.Proofs.Scale.Label
import Mathlib.Data.List.Induction

/-!
# References to published custom properties

A scale directive publishes its entries as custom properties, and a utility with an attribute refers
to them by name. The records of a run tell what it has published, which scales it knows and what its
utilities have become, in the order in which this happened.

* `Run.callAll_traced`: the records account for the registry and for every utility, after any calls.
* `Run.callAll_tells`: what a call records of directives stands in the tree that it works on, so what
  the records of all calls tell of was put into a tree by one of them (`Run.emitted_of_published`).
* `latest?_published`: what the registry has for a label is what was last published under its name.
* `Run.attribute_refers_to_published`: a utility with an attribute refers to custom properties that
  are published, with the right values, and both stand in the trees.
-/

namespace FluidCss

/-! ## Records -/

/-- The scales of a registry that had none at first, as the records have it. -/
def Registry.ofRecords (records : List Record) : Registry :=
  records.foldl (fun registry record =>
    match record with
    | .scaleRegistered scale entries => registry.register scale.name entries
    | _ => registry) .empty

/-- The custom properties that scale directives have put in their places, each with its value. They
are those that `Run.callAll_tells` finds in the trees. -/
def published (records : List Record) : List (Text × Text) :=
  records.flatMap fun record =>
    match record with
    | .scaleRegistered scale entries =>
      entries.map fun e => (Scale.propertyName scale.name e.label, e.rendered)
    | _ => []

/-- The value that a property was given last. -/
def latest? (property : Text) (declarations : List (Text × Text)) : Option Text :=
  Ordered.get? property declarations.reverse

/-- A scale directive puts in its place the declarations of what it publishes. -/
theorem scaleNodes_eq_published (scale : Scale) (entries : List Scale.Entry) :
    Directive.scaleNodes scale.name entries =
      (published [.scaleRegistered scale entries]).map fun (p, v) => .declaration p v := by
  simp [Directive.scaleNodes, published]

namespace Record

/-- A record that tells of no scale directive. -/
def IsSilent (r : Record) : Prop := ∀ scale entries, r ≠ .scaleRegistered scale entries

theorem ofRecords_silent {r : Record} (h : r.IsSilent) (records : List Record) :
    Registry.ofRecords (records ++ [r]) = .ofRecords records := by
  cases r with
  | scaleRegistered scale entries => exact absurd rfl (h scale entries)
  | _ => simp [Registry.ofRecords]

theorem published_silent {r : Record} (h : r.IsSilent) (records : List Record) :
    published (records ++ [r]) = published records := by
  cases r with
  | scaleRegistered scale entries => exact absurd rfl (h scale entries)
  | _ => simp [published]

end Record

theorem ofRecords_register (records : List Record) (scale : Scale) (entries : List Scale.Entry) :
    Registry.ofRecords (records ++ [.scaleRegistered scale entries]) =
      (Registry.ofRecords records).register scale.name entries := by
  simp [Registry.ofRecords]

theorem published_register (records : List Record) (scale : Scale) (entries : List Scale.Entry) :
    published (records ++ [.scaleRegistered scale entries]) = published records ++
      entries.map fun e => (Scale.propertyName scale.name e.label, e.rendered) := by
  simp [published]

theorem latest?_append (property : Text) (as bs : List (Text × Text)) :
    latest? property (as ++ bs) = (latest? property bs).or (latest? property as) := by
  rw [latest?, List.reverse_append, Ordered.get?_append]
  rfl

/-! ## What a run records -/

/-- A record of a scale that was compiled from pairs with different names. -/
structure Record.Scaled (scale : Scale) (entries : List Scale.Entry) : Prop where
  compile : scale.compile = .ok entries
  nodup : (scale.pairs.map SizePair.name).Nodup

/-- The records account for the registry, for the scales and for the utilities. -/
structure Run.Traced (settings : Settings) (run : Run) : Prop where
  registry_eq : run.registry = .ofRecords run.records
  scaled : ∀ scale entries, .scaleRegistered scale entries ∈ run.records →
    Record.Scaled scale entries
  expanded : ∀ earlier utility rules later,
    run.records = earlier ++ .utilityExpanded utility rules :: later →
    utility.expand (.ofRecords earlier) settings = .ok rules

namespace Run

variable {settings : Settings}

theorem traced_ignoresForest : IgnoresForest (Traced settings) := fun _ _ h =>
  ⟨h.registry_eq, h.scaled, h.expanded⟩

theorem records_cons (registry : Registry) (f : Forest) (r : Record) (log : List Record) :
    records ⟨registry, f, r :: log⟩ = records ⟨registry, f, log⟩ ++ [r] := List.reverse_cons

theorem Traced.snoc {registry registry' : Registry} {f f' : Forest} {log : List Record}
    {r : Record} (h : Traced settings ⟨registry, f, log⟩)
    (hregistry : registry' = .ofRecords (records ⟨registry, f, log⟩ ++ [r]))
    (hscaled : ∀ scale entries, r = .scaleRegistered scale entries → Record.Scaled scale entries)
    (hexpanded : ∀ utility rules, r = .utilityExpanded utility rules →
      utility.expand registry settings = .ok rules) :
    Traced settings ⟨registry', f', r :: log⟩ := by
  have hrecords : records ⟨registry', f', r :: log⟩ = records ⟨registry, f, log⟩ ++ [r] :=
    records_cons ..
  refine ⟨hrecords ▸ hregistry, fun scale entries hmem => ?_, ?_⟩
  · rw [hrecords, List.mem_append, List.mem_singleton] at hmem
    rcases hmem with hmem | hmem
    · exact h.scaled scale entries hmem
    · exact hscaled scale entries hmem.symm
  · intro earlier utility rules later hsplit
    rw [hrecords] at hsplit
    -- The new record is the expansion in question, or the expansion stands among the old ones.
    rcases List.eq_nil_or_concat later with rfl | ⟨later, last, rfl⟩
    · obtain ⟨hearlier, hr⟩ := List.append_inj' hsplit rfl
      rw [← hearlier, ← h.registry_eq]
      exact hexpanded utility rules (List.cons.inj hr).1
    · rw [List.concat_eq_append, ← List.cons_append, ← List.append_assoc] at hsplit
      exact h.expanded earlier utility rules later (List.append_inj' hsplit rfl).1

theorem Traced.note_silent {run : Run} (h : Traced settings run) {r : Record} (hr : r.IsSilent)
    (hr' : ∀ utility rules, r ≠ .utilityExpanded utility rules) :
    Traced settings { run with log := r :: run.log } :=
  Traced.snoc h (by rw [Record.ofRecords_silent hr]; exact h.registry_eq)
    (fun scale entries he => absurd he (hr scale entries))
    (fun utility rules he => absurd he (hr' utility rules))

/-- A scale directive registers what it records, before anything else can happen. A utility is
expanded with the scales that are known at that moment. -/
theorem traced_keptByItems : KeptByItems settings (Traced settings) where
  ignoresForest := traced_ignoresForest
  scale := by
    intro run params scale entries hread h
    obtain ⟨fields, hfields, hscale, hentries⟩ := Directive.readScale_eq_ok.1 hread
    -- A scale leaves two records, and only the second one registers it.
    have hcompiled : Traced settings { run with log := .scaleCompiled scale entries :: run.log } :=
      h.note_silent (by simp [Record.IsSilent]) (by simp)
    refine Traced.snoc hcompiled ?_ (fun _ _ he => ?_) (by simp)
    · rw [ofRecords_register, ← hcompiled.registry_eq]
    · cases he
      exact ⟨hentries, Param.nodup_pairNames hfields hscale⟩
  utility := by
    intro run params utility rules hread h
    obtain ⟨_, -, -, hrules⟩ := Directive.readUtility_eq_ok.1 hread
    refine Traced.snoc h ?_ (by simp) fun _ _ he => ?_
    · rw [Record.ofRecords_silent (by simp [Record.IsSilent])]
      exact h.registry_eq
    · cases he
      exact hrules
  ignored := fun _ _ h => h.note_silent (by simp [Record.IsSilent]) (by simp)
  resolved := fun _ _ _ h => h.note_silent (by simp [Record.IsSilent]) (by simp)

/-! ## Calls -/

/-- A run that starts with the scales of the settings and processes containers one after the other.
Before each call the forest may have become any other; a call that fails ends only itself. -/
def callAll (settings : Settings) (calls : List (Forest × NodeId)) : Run :=
  calls.foldl (fun run (f, id) => (process settings id).after { run with forest := f })
    ((seed settings.scales).after .empty)

theorem KeptByItems.callAll {P : Run → Prop} (h : KeptByItems settings P)
    (hstart : P ((seed settings.scales).after .empty)) (calls : List (Forest × NodeId)) :
    P (callAll settings calls) := by
  unfold Run.callAll
  generalize (seed settings.scales).after .empty = run at hstart
  induction calls generalizing run with
  | nil => exact hstart
  | cons call calls ih => exact ih _ (h.process call.2 _ (h.ignoresForest run call.1 hstart))

/-- **The records account for all that a run does**, if it starts without scales. -/
theorem callAll_traced (hseeds : settings.scales = []) (calls : List (Forest × NodeId)) :
    Traced settings (callAll settings calls) := by
  have hstart : Traced settings ((seed settings.scales).after .empty) := by
    rw [hseeds]
    refine ⟨rfl, fun _ _ hmem => absurd hmem List.not_mem_nil, fun earlier _ _ later h => ?_⟩
    exact absurd h.symm (by simp [records, seed, Step.after, empty, pure, EStateM.pure])
  exact traced_keptByItems.callAll hstart calls

/-- **What a call records of directives stands in the tree that it works on**, however the call
ends. So the custom properties of a scale are declared where its directive was. -/
theorem callAll_tells (settings : Settings) (calls : List (Forest × NodeId)) {f : Forest}
    {id : NodeId} (hf : f.WellFormed) (hid : id < f.size) :
    ∃ content above bs,
      (callAll settings (calls ++ [(f, id)])).forest.Holds above ⟨id, content, bs⟩ ∧
      Tells (callAll settings calls) (callAll settings (calls ++ [(f, id)])) (Branch.nodes bs) := by
  obtain ⟨⟨root, content, bs⟩, rfl, hholds, hnodup, -⟩ := hf.exists_holds hid
  have hcalls : callAll settings (calls ++ [(f, root)]) =
      (process settings root).after { callAll settings calls with forest := f } := by
    simp [callAll]
  have hvisited : Visited settings { callAll settings calls with forest := f } root content _ [] bs
      [] (process settings root { callAll settings calls with forest := f }) :=
    process_visited settings (Forest.Window.of_holds hholds hnodup)
  -- Both ways in which the call can end come with what it has recorded and where it stands.
  rw [hcalls, Step.after]
  cases hresult : process settings root { callAll settings calls with forest := f } with
  | ok _ run' =>
    rw [hresult] at hvisited
    obtain ⟨bs', hw, -, -, htells⟩ := hvisited
    exact ⟨content, _, bs', hw.holds_mk, htells⟩
  | error e run' =>
    rw [hresult] at hvisited
    obtain ⟨-, bs', hw, -, -, htells⟩ := hvisited
    exact ⟨content, _, bs', hw.holds_mk, htells⟩

end Run

namespace Run

/-- After one of the calls nodes stand in a row in the tree that it worked on. -/
def Emitted (settings : Settings) (calls : List (Forest × NodeId)) (row : List Node) : Prop :=
  ∃ before f id after, calls = before ++ (f, id) :: after ∧ ∃ content above bs,
    (callAll settings (before ++ [(f, id)])).forest.Holds above ⟨id, content, bs⟩ ∧
      Node.Stands row (Branch.nodes bs)

/-- The calls are on nodes of well-formed forests. -/
def Apt (calls : List (Forest × NodeId)) : Prop :=
  ∀ f id, (f, id) ∈ calls → f.WellFormed ∧ id < f.size

variable {settings : Settings} {calls : List (Forest × NodeId)}

/-- What a record tells of was put into a tree by one of the calls. -/
theorem emitted_of_placed (hseeds : settings.scales = []) (hcalls : Apt calls) {r : Record}
    {row : List Node} (hr : r ∈ (callAll settings calls).log) (hrow : r.placed? = some row) :
    Emitted settings calls row := by
  -- Induction on the calls from their end.
  induction calls using List.reverseRecOn with
  | nil =>
    have hlog : (callAll settings []).log = [] := by
      rw [callAll, hseeds]
      rfl
    rw [hlog] at hr
    cases hr
  | append_singleton calls call ih =>
    obtain ⟨f, id⟩ := call
    obtain ⟨hf, hid⟩ := hcalls f id (List.mem_append_right _ (List.mem_singleton.2 rfl))
    obtain ⟨content, above, bs, hholds, records, hlog, hstands⟩ :=
      callAll_tells settings calls hf hid
    rw [hlog, List.mem_append] at hr
    -- The record is of the last call, or of one before it.
    rcases hr with hr | hr
    · exact ⟨calls, f, id, [], rfl, content, above, bs, hholds, hstands r hr row hrow⟩
    · have hcalls : Apt calls := fun f id hmem => hcalls f id (List.mem_append_left _ hmem)
      obtain ⟨before, f', id', after, rfl, hplace⟩ := ih hcalls hr
      exact ⟨before, f', id', after ++ [(f, id)], by simp, hplace⟩

/-- The declarations of what scale directives have published were put into trees. -/
theorem emitted_of_published (hseeds : settings.scales = []) (hcalls : Apt calls)
    {property value : Text} (h : (property, value) ∈ published (callAll settings calls).records) :
    Emitted settings calls [.declaration property value] := by
  obtain ⟨r, hr, hmem⟩ := List.mem_flatMap.1 h
  cases r with
  | scaleRegistered scale entries =>
    have hplaced : (property, value) ∈ published [.scaleRegistered scale entries] := by
      simpa [published] using hmem
    obtain ⟨front, back, hsplit⟩ := List.append_of_mem hplaced
    obtain ⟨before, f, id, after, hcalls', content, above, bs, hholds, hstands⟩ :=
      emitted_of_placed hseeds hcalls (List.mem_reverse.1 hr) rfl
    rw [scaleNodes_eq_published, hsplit, List.map_append, List.map_cons] at hstands
    refine ⟨before, f, id, after, hcalls', content, above, bs, hholds, ?_⟩
    rw [← List.singleton_append, ← List.append_assoc] at hstands
    exact hstands.of_part
  | _ => cases hmem

end Run

/-! ## What was published last -/

/-- Among the properties of one scale a label is found with its own value. -/
theorem latest?_entries {scale : Scale} {entries : List Scale.Entry}
    (hscaled : Record.Scaled scale entries) (hplain : scale.Plain) {e : Scale.Entry}
    (he : e ∈ entries) :
    latest? (Scale.propertyName scale.name e.label)
      (entries.map fun e => (Scale.propertyName scale.name e.label, e.rendered)) =
        some e.rendered := by
  rw [latest?, ← List.map_reverse]
  refine Ordered.get?_of_mem ?_ (List.mem_map.2 ⟨e, List.mem_reverse.2 he, rfl⟩)
  have hlabels := Scale.nodup_labels hscaled.compile hscaled.nodup hplain.pairs
  rw [List.map_map, List.map_reverse, List.nodup_reverse]
  have hmap : entries.map
    (Prod.fst ∘ fun e => (Scale.propertyName scale.name e.label, e.rendered)) =
      (entries.map Scale.Entry.label).map (Scale.propertyName scale.name) := by
    rw [List.map_map]
    rfl
  rw [hmap]
  exact hlabels.map fun _ _ h => (Scale.propertyName_inj hplain.name hplain.name h).2

/-- The properties of another scale have other names. -/
theorem latest?_other {scale : Scale} (hplain : scale.Plain) {name : Text}
    (hname : ('-' : CodePoint) ∉ name) (hne : scale.name ≠ name) (label : Text)
    (entries : List Scale.Entry) :
    latest? (Scale.propertyName name label)
      (entries.map fun e => (Scale.propertyName scale.name e.label, e.rendered)) = none := by
  rw [latest?, ← List.map_reverse]
  refine Ordered.get?_eq_none fun hmem => ?_
  rw [List.map_map] at hmem
  obtain ⟨e, -, he⟩ := List.mem_map.1 hmem
  exact hne (Scale.propertyName_inj hplain.name hname he).1

/-- **What the registry has for a label is what was last published under its name.** -/
theorem latest?_published {records : List Record}
    (hscaled : ∀ scale entries, .scaleRegistered scale entries ∈ records →
      Record.Scaled scale entries)
    (hplain : ∀ scale entries, .scaleRegistered scale entries ∈ records → scale.Plain)
    {name : Text} {entries : List Scale.Entry}
    (hget : (Registry.ofRecords records).get? name = some entries) :
    ('-' : CodePoint) ∉ name ∧ ∀ e ∈ entries,
      latest? (Scale.propertyName name e.label) (published records) = some e.rendered := by
  -- Induction on the records from their end.
  induction records using List.reverseRecOn with
  | nil => cases hget
  | append_singleton records r ih =>
    have hbefore : ∀ {r'}, r' ∈ records → r' ∈ records ++ [r] := List.mem_append_left _
    have ih := ih (fun scale entries h => hscaled scale entries (hbefore h))
      (fun scale entries h => hplain scale entries (hbefore h))
    by_cases hr : r.IsSilent
    · rw [Record.ofRecords_silent hr] at hget
      rw [Record.published_silent hr]
      exact ih hget
    · obtain ⟨scale, entries', rfl⟩ : ∃ scale entries', r = .scaleRegistered scale entries' := by
        simpa [Record.IsSilent] using hr
      have hlast := List.mem_append_right records (List.mem_singleton.2 (rfl :
        Record.scaleRegistered scale entries' = _))
      have hplain := hplain scale entries' hlast
      rw [ofRecords_register] at hget
      rw [published_register]
      -- The last scale of the name decides; without hyphens no other scale has its properties.
      by_cases hname : scale.name = name
      · subst hname
        rw [Registry.get?_register_self] at hget
        obtain rfl := Option.some.inj hget
        refine ⟨hplain.name, fun e he => ?_⟩
        rw [latest?_append, latest?_entries (hscaled scale entries' hlast) hplain he]
        rfl
      · rw [Registry.get?_register_of_ne (Ne.symm hname)] at hget
        obtain ⟨hhyphen, hlatest⟩ := ih hget
        refine ⟨hhyphen, fun e he => ?_⟩
        rw [latest?_append, latest?_other hplain hhyphen hname]
        exact hlatest e he

/-! ## Utilities with an attribute -/

namespace Utility

/-- What a utility gives is in order, whatever scales there are. -/
structure IsInOrder (u : Utility) : Prop where
  attributeName : checkAttribute u.attributeName = .ok ()
  selector : ((given u.selector).isNone && (given u.attributeName).isNone) = false
  property : u.properties.isEmpty = false
  scale : (given u.scale).isSome

/-- A utility has entries if it is in order and there is a scale of the name that it gives. -/
theorem checkedEntries_eq_ok_iff {u : Utility} {registry : Registry} {entries : List Scale.Entry} :
    u.checkedEntries registry = .ok entries ↔
      u.IsInOrder ∧ ∃ name, u.scale = some name ∧ registry.get? name = some entries := by
  constructor
  · intro h
    unfold checkedEntries at h
    obtain ⟨_, hattribute, h⟩ := bind_eq_ok.1 h
    by_cases hselector : ((given u.selector).isNone && (given u.attributeName).isNone) = true
    · simp only [hselector, if_true] at h
      cases h
    by_cases hproperty : u.properties.isEmpty = true
    · simp only [hselector, hproperty, if_true, Bool.false_eq_true, if_false] at h
      cases h
    -- All that can still fail is the scale.
    simp only [hselector, hproperty, Bool.false_eq_true, if_false] at h
    rw [Bool.not_eq_true] at hselector hproperty
    cases hname : given u.scale with
    | none =>
      simp only [hname] at h
      cases h
    | some name =>
      cases hget : registry.get? name with
      | none =>
        simp only [hname, hget] at h
        cases h
      | some entries' =>
        simp only [hname, hget] at h
        obtain rfl := pure_eq_ok.1 h
        exact ⟨⟨hattribute, hselector, hproperty, by rw [hname]; rfl⟩, name,
          (Option.filter_eq_some_iff.1 hname).1, hget⟩
  · rintro ⟨horder, name, hname, hget⟩
    obtain ⟨name', hgiven⟩ := Option.isSome_iff_exists.1 horder.scale
    obtain rfl : name' = name :=
      Option.some.inj ((Option.filter_eq_some_iff.1 hgiven).1.symm.trans hname)
    unfold checkedEntries
    refine bind_eq_ok.2 ⟨(), horder.attributeName, ?_⟩
    simp only [horder.selector, horder.property, Bool.false_eq_true, if_false, hgiven, hget]
    rfl

theorem expand_eq_ok {u : Utility} {registry : Registry} {settings : Settings}
    {rules : List GeneratedRule} (h : u.expand registry settings = .ok rules) :
    ∃ name entries, u.scale = some name ∧ registry.get? name = some entries ∧
      rules = (chosen (u.crossPairs.getD settings.crossPairs) entries).map
        (u.ruleFor (u.lowSpecificity.getD settings.lowSpecificity)) := by
  obtain ⟨entries, hentries, h⟩ := bind_eq_ok.1 h
  obtain ⟨-, name, hname, hget⟩ := checkedEntries_eq_ok_iff.1 hentries
  exact ⟨name, entries, hname, hget, (pure_eq_ok.1 h).symm⟩

theorem declarations_of_attribute {u : Utility} (h : (given u.attributeName).isSome) (low : Bool)
    (e : Scale.Entry) : (u.ruleFor low e).declarations = u.properties.map
      fun p => (p, "var(" ++ Scale.propertyName (u.scale.getD []) e.label ++ ")") := by
  simp [ruleFor, selectorKind, h, valueFor]

theorem declarations_of_no_attribute (u : Utility) (low : Bool) (e : Scale.Entry) :
    (ruleFor { u with attributeName := none } low e).declarations =
      u.properties.map fun p => (p, e.rendered) := by
  have hkind : selectorKind { u with attributeName := none } = .parentContext ∨
      selectorKind { u with attributeName := none } = .pattern := by
    unfold selectorKind
    by_cases h : (u.selector.bind parentContext?).isSome <;> simp [given, h]
  rcases hkind with h | h <;> simp [ruleFor, h, valueFor, properties]

end Utility

namespace Run

/-- **A utility with an attribute refers to custom properties that are published**, and with the
right values: what was last published under the name is what the scale has for the label at that
moment, and what the utility would have written without the attribute. The names of the scales that
were defined before it have no hyphens, nor do those of their pairs. The rules, and before them the
declarations of what is published, were put into the trees that the calls worked on. -/
theorem attribute_refers_to_published {settings : Settings} {calls : List (Forest × NodeId)}
    {earlier later : List Record} {utility : Utility} {rules : List GeneratedRule}
    (hseeds : settings.scales = [])
    (hrecords : (callAll settings calls).records =
      earlier ++ .utilityExpanded utility rules :: later)
    (hplain : ∀ scale entries, .scaleRegistered scale entries ∈ earlier → scale.Plain)
    (hattribute : (Utility.given utility.attributeName).isSome) :
    ∃ name entries, utility.scale = some name ∧
      (Registry.ofRecords earlier).get? name = some entries ∧
      rules = (Utility.chosen (utility.crossPairs.getD settings.crossPairs) entries).map
        (utility.ruleFor (utility.lowSpecificity.getD settings.lowSpecificity)) ∧
      (∀ e ∈ entries, ∀ low,
        (utility.ruleFor low e).declarations = utility.properties.map
          (fun p => (p, "var(" ++ Scale.propertyName name e.label ++ ")")) ∧
        latest? (Scale.propertyName name e.label) (published earlier) = some e.rendered ∧
        (Utility.ruleFor { utility with attributeName := none } low e).declarations =
          utility.properties.map (fun p => (p, e.rendered))) ∧
      (Apt calls → Emitted settings calls (Directive.utilityNodes rules) ∧
        ∀ property value, (property, value) ∈ published earlier →
          Emitted settings calls [.declaration property value]) := by
  have htraced := callAll_traced hseeds calls
  have hscaled : ∀ scale entries, .scaleRegistered scale entries ∈ earlier →
      Record.Scaled scale entries := fun scale entries hmem =>
    htraced.scaled scale entries (hrecords ▸ List.mem_append_left _ hmem)
  obtain ⟨name, entries, hname, hget, hrules⟩ :=
    Utility.expand_eq_ok (htraced.expanded earlier utility rules later hrecords)
  obtain ⟨-, hlatest⟩ := latest?_published hscaled hplain hget
  refine ⟨name, entries, hname, hget, hrules, fun e he low => ⟨?_, hlatest e he, ?_⟩,
    fun hcalls => ⟨?_, fun property value hmem => ?_⟩⟩
  · rw [Utility.declarations_of_attribute hattribute, hname]
    rfl
  · exact Utility.declarations_of_no_attribute utility low e
  · have hmem : .utilityExpanded utility rules ∈ (callAll settings calls).records := by
      rw [hrecords]
      exact List.mem_append_right _ List.mem_cons_self
    exact emitted_of_placed hseeds hcalls (List.mem_reverse.1 hmem) rfl
  · refine emitted_of_published hseeds hcalls ?_
    rw [hrecords, published, List.flatMap_append]
    exact List.mem_append_left _ hmem

/-- A style sheet that defines a scale and has a utility refer to it. -/
def gapSheet : Forest :=
  let scale : Text := "scale(\x7bprefix: 's', pairs: \x7ba: [16, 20]\x7d\x7d)"
  let utility : Text := "utility(\x7battribute: 'gap', property: 'gap', scale: 's'\x7d)"
  (Forest.empty.plant none
    (.root [.atRule "ruler" scale false [], .atRule "ruler" utility false []])).2

/-- What is recorded before the utility. -/
def gapRecords : List Record :=
  let scale : Scale := ⟨320, 1760, "s", false, [⟨"a", 16, 20⟩]⟩
  let entries : List Scale.Entry := [⟨"a", "clamp(1rem, 0.2778vw + 0.9444rem, 1.25rem)"⟩]
  [.scaleCompiled scale entries, .scaleRegistered scale entries]

def gapUtility : Utility := ⟨none, some "gap", some (.single "gap"), some "s", none, none⟩

theorem attribute_refers_to_published_gapSheet :
    ∃ name entries, gapUtility.scale = some name ∧
      (Registry.ofRecords gapRecords).get? name = some entries ∧
      [⟨"[gap=\"a\"]", [("gap", "var(--s-a)")]⟩] =
        (Utility.chosen false entries).map (gapUtility.ruleFor false) ∧
      (∀ e ∈ entries, ∀ low,
        (gapUtility.ruleFor low e).declarations = gapUtility.properties.map
          (fun p => (p, "var(" ++ Scale.propertyName name e.label ++ ")")) ∧
        latest? (Scale.propertyName name e.label) (published gapRecords) = some e.rendered ∧
        (Utility.ruleFor { gapUtility with attributeName := none } low e).declarations =
          gapUtility.properties.map (fun p => (p, e.rendered))) ∧
      Emitted .default [(gapSheet, 0)] [.rule "[gap=\"a\"]" [.declaration "gap" "var(--s-a)"]] ∧
      Emitted .default [(gapSheet, 0)]
        [.declaration "--s-a" "clamp(1rem, 0.2778vw + 0.9444rem, 1.25rem)"] := by
  have hrecords : (callAll .default [(gapSheet, 0)]).records = gapRecords ++
      .utilityExpanded gapUtility [⟨"[gap=\"a\"]", [("gap", "var(--s-a)")]⟩] :: [] := by
    decide +kernel
  have hplain : ∀ scale entries, .scaleRegistered scale entries ∈ gapRecords → scale.Plain := by
    intro scale entries hmem
    simp only [gapRecords, List.mem_cons, List.not_mem_nil, or_false, reduceCtorEq, false_or,
      Record.scaleRegistered.injEq] at hmem
    rw [hmem.1]
    exact ⟨by decide, by decide⟩
  have hcalls : Apt [(gapSheet, 0)] := by
    intro f id hmem
    obtain ⟨rfl, rfl⟩ := Prod.mk.inj (List.mem_singleton.1 hmem)
    exact ⟨Forest.wellFormed_of_forall_lt (by decide +kernel) (by decide +kernel)
      (by decide +kernel),
      by decide +kernel⟩
  obtain ⟨name, entries, hname, hget, hrules, hvalues, hemitted⟩ :=
    attribute_refers_to_published rfl hrecords hplain rfl
  obtain ⟨hrule, hdeclared⟩ := hemitted hcalls
  exact ⟨name, entries, hname, hget, hrules, hvalues, hrule, hdeclared _ _ (by decide)⟩

end Run

end FluidCss
