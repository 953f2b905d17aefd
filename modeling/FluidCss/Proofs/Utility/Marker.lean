import FluidCss.Proofs.Run.Published
import FluidCss.Proofs.Scale.Cross

/-!
# The mark of an entry that spans two pairs

Whether an entry spans two pairs is read off its label: those labels have a hyphen in them. If the
names of the pairs have none, the mark is exact. A utility that leaves the marked entries out gets
the scale as it is without cross pairs, and one that takes them all gets a selector of its own for
each of them, as the labels are different and a selector tells the label.

* `selectorFor_inj`: the selector tells the label, whatever the utility is like.
* `chosen_base`: what is left out is what cross pairs have added.
* `expand_marked`: the rules of a utility with and without cross pairs.
-/

namespace FluidCss

namespace Scale

variable {scale : Scale} {full : List Entry}

/-! ## Marked entries -/

theorem isCrossPair_eq_false {entry : Entry} (h : ('-' : CodePoint) ∉ entry.label) :
    entry.isCrossPair = false := by
  rw [Entry.isCrossPair, ← Bool.not_eq_true, List.contains_iff_mem]
  exact h

theorem Spans.isCrossPair {minWidth maxWidth : Number} {lower upper : SizePair} {entry : Entry}
    (h : Spans minWidth maxWidth lower upper entry) : entry.isCrossPair = true := by
  rw [Entry.isCrossPair, List.contains_iff_mem, h.label, hyphen_eq]
  simp

/-- The entry of a pair has the value of the pair under its name. -/
theorem pairEntry_eq_ok {minWidth maxWidth : Number} {pair : SizePair} {entry : Entry}
    (h : pairEntry minWidth maxWidth pair = .ok entry) :
    ∃ text, fluidText pair.least pair.greatest minWidth maxWidth = .ok text ∧
      entry = ⟨pair.name, text⟩ := by
  obtain ⟨text, htext, h⟩ := bind_eq_ok.1 h
  exact ⟨text, htext, (pure_eq_ok.1 h).symm⟩

/-- A scale that compiles with cross pairs does without them. The entries that it has then are one
for each pair, and they are followed by one for every two pairs. -/
theorem exists_base (h : compile { scale with crossPairs := true } = .ok full) :
    ∃ base cross, full = base ++ cross ∧
      compile { scale with crossPairs := false } = .ok base ∧
      scale.pairs.mapM (pairEntry scale.minWidth scale.maxWidth) = .ok base ∧
      (couples scale.pairs).mapM (crossEntry scale.minWidth scale.maxWidth) = .ok cross := by
  have hentries := entriesOf_cross_eq_ok_iff.1 h
  obtain ⟨base, cross, hfull, hbase, hcross⟩ := List.append_eq_map_iff.1 hentries
  have hbase := mapM_eq_ok_iff.2 hbase.symm
  exact ⟨base, cross, hfull, entriesOf_plain_eq_ok_iff.2 hbase, hbase,
    mapM_eq_ok_iff.2 hcross.symm⟩

end Scale

namespace Utility

variable {u : Utility} {registry registry' : Registry} {settings : Settings} {name : Text}
  {entries entries' : List Scale.Entry}

/-! ## Selectors -/

/-- **The selector tells the label**: each kind puts the label between two texts that do not depend
on it. -/
theorem selectorFor_inj {kind : SelectorKind} {low : Bool} {label label' : Text}
    (h : u.selectorFor kind low label = u.selectorFor kind low label') : label = label' := by
  unfold selectorFor wrap at h
  cases kind <;> cases low <;> simpa using h

theorem nodup_selectors {low : Bool} (h : (entries.map Scale.Entry.label).Nodup) :
    ((entries.map (u.ruleFor low)).map GeneratedRule.selector).Nodup := by
  have hselectors : (entries.map (u.ruleFor low)).map GeneratedRule.selector =
      (entries.map Scale.Entry.label).map (u.selectorFor u.selectorKind low) := by
    rw [List.map_map, List.map_map]
    rfl
  rw [hselectors]
  exact h.map fun _ _ => selectorFor_inj

/-! ## Entries -/

/-- Whether a utility is in order depends on its scale only in that there is one. -/
theorem checkedEntries_of_get? (h : u.checkedEntries registry = .ok entries)
    (hscale : u.scale = some name) (hget : registry'.get? name = some entries') :
    u.checkedEntries registry' = .ok entries' :=
  checkedEntries_eq_ok_iff.2 ⟨(checkedEntries_eq_ok_iff.1 h).1, name, hscale, hget⟩

/-- The rules of a utility that is in order, with the flag for cross pairs as it is given. -/
theorem expand_of_checkedEntries (h : u.checkedEntries registry = .ok entries)
    (flag : Option Bool) : expand { u with crossPairs := flag } registry settings =
      .ok ((chosen (flag.getD settings.crossPairs) entries).map
        (u.ruleFor (u.lowSpecificity.getD settings.lowSpecificity))) :=
  bind_eq_ok.2 ⟨entries, h, rfl⟩

/-- **What is left out is what cross pairs have added.** -/
theorem chosen_base {base cross : List Scale.Entry}
    (hbase : ∀ entry ∈ base, entry.isCrossPair = false)
    (hcross : ∀ entry ∈ cross, entry.isCrossPair = true) : chosen false (base ++ cross) = base := by
  have hkept : base.filter (fun e => !e.isCrossPair) = base :=
    List.filter_eq_self.2 fun entry hentry => by simp [hbase entry hentry]
  have hleft : cross.filter (fun e => !e.isCrossPair) = [] :=
    List.filter_eq_nil_iff.2 fun entry hentry => by simp [hcross entry hentry]
  show (base ++ cross).filter (fun e => !e.isCrossPair) = base
  rw [List.filter_append, hkept, hleft, List.append_nil]

theorem chosen_unmarked (crossPairs : Bool) (h : ∀ entry ∈ entries, entry.isCrossPair = false) :
    chosen crossPairs entries = entries := by
  cases crossPairs with
  | true => rfl
  | false =>
    have hnone : ∀ entry ∈ ([] : List Scale.Entry), entry.isCrossPair = true := by simp
    have hchosen := chosen_base h hnone
    rwa [List.append_nil] at hchosen

/-! ## Rules -/

/-- One rule for each pair, in their order, with the value of the pair alone. -/
def OnePerPair (u : Utility) (low : Bool) (scale : Scale) (rules : List GeneratedRule) : Prop :=
  List.Forall₂ (fun pair rule => ∃ text,
    fluidText pair.least pair.greatest scale.minWidth scale.maxWidth = .ok text ∧
      rule = u.ruleFor low ⟨pair.name, text⟩) scale.pairs rules

theorem onePerPair_of_base {scale : Scale} {base : List Scale.Entry} (low : Bool)
    (h : scale.pairs.mapM (Scale.pairEntry scale.minWidth scale.maxWidth) = .ok base) :
    u.OnePerPair low scale (base.map (u.ruleFor low)) := by
  refine List.forall₂_map_right_iff.2 ((forall₂_of_mapM_ok h).imp ?_)
  intro pair entry hentry
  obtain ⟨text, htext, rfl⟩ := Scale.pairEntry_eq_ok hentry
  exact ⟨text, htext, rfl⟩

/-- **With names that have no hyphens the mark is exact.** Take a scale whose pairs have different
names without hyphens and that compiles with cross pairs. Then it compiles without them, too. A
utility that is in order for it and takes no cross pairs has the rules that it has with the scale
without them, whatever its flag is then: one for each pair, in their order. A utility that takes
them has a rule for each pair and one for every two of them, and no two rules have the same
selector. -/
theorem expand_marked {scale : Scale} {full : List Scale.Entry}
    (hnames : (scale.pairs.map SizePair.name).Nodup)
    (hplain : ∀ pair ∈ scale.pairs, ('-' : CodePoint) ∉ pair.name)
    (hfull : Scale.compile { scale with crossPairs := true } = .ok full) :
    ∃ base, Scale.compile { scale with crossPairs := false } = .ok base ∧
      ∀ (u : Utility) (settings : Settings) (registry registry' : Registry) (name : Text),
        registry.get? name = some full → registry'.get? name = some base →
        u.scale = some name → (∃ entries, u.checkedEntries registry = .ok entries) →
        ∃ rules, u.expand registry settings = .ok rules ∧
          (u.crossPairs.getD settings.crossPairs = false →
            (∀ flag, expand { u with crossPairs := flag } registry' settings = .ok rules) ∧
              u.OnePerPair (u.lowSpecificity.getD settings.lowSpecificity) scale rules) ∧
          (u.crossPairs.getD settings.crossPairs = true →
            rules.length =
                scale.pairs.length + scale.pairs.length * (scale.pairs.length - 1) / 2 ∧
              (rules.map GeneratedRule.selector).Nodup) := by
  obtain ⟨base, cross, rfl, hcompile, hbase, hcross⟩ := Scale.exists_base hfull
  -- The mark is the hyphen of a label, and only the labels of cross pairs have one.
  have hunmarked : ∀ entry ∈ base, entry.isCrossPair = false := by
    intro entry hentry
    obtain ⟨pair, hpair, hentry⟩ := exists_of_mapM_ok hbase hentry
    obtain ⟨text, -, rfl⟩ := Scale.pairEntry_eq_ok hentry
    exact Scale.isCrossPair_eq_false (hplain pair hpair)
  have hmarked : ∀ entry ∈ cross, entry.isCrossPair = true := by
    intro entry hentry
    obtain ⟨couple, -, hentry⟩ := exists_of_mapM_ok hcross hentry
    exact (Scale.spans_of_crossEntry hentry).isCrossPair
  refine ⟨base, hcompile, ?_⟩
  intro u settings registry registry' name hget hget' hscale hchecked
  obtain ⟨entries, hentries⟩ := hchecked
  -- The checks of a utility do not look at the entries, so they are passed with either scale.
  have hfullEntries := checkedEntries_of_get? hentries hscale hget
  have hbaseEntries := checkedEntries_of_get? hentries hscale hget'
  refine ⟨_, expand_of_checkedEntries hfullEntries u.crossPairs, ?_, ?_⟩
  · intro hflag
    rw [hflag, chosen_base hunmarked hmarked]
    refine ⟨fun flag => ?_, onePerPair_of_base _ hbase⟩
    rw [expand_of_checkedEntries hbaseEntries flag, chosen_unmarked _ hunmarked]
  · intro hflag
    rw [hflag]
    refine ⟨?_, nodup_selectors (Scale.nodup_labels hfull hnames hplain)⟩
    show (List.map _ (base ++ cross)).length = _
    rw [List.length_map, List.length_append, ← Scale.length_couples,
      (forall₂_of_mapM_ok hbase).length_eq, (forall₂_of_mapM_ok hcross).length_eq]

/-- Three pairs between two widths. -/
def mixedScale : Scale := ⟨320, 1240, "space", false, Scale.mixedPairs⟩

/-- Gaps inside a theme, with the label behind the nesting mark. -/
def themedGap : Utility :=
  ⟨some ".theme &", none, some (.single "gap"), some "space", none, some true⟩

theorem expand_marked_themedGap :
    (Scale.mixedPairs.map SizePair.name).Nodup ∧
      (∀ pair ∈ Scale.mixedPairs, ('-' : CodePoint) ∉ pair.name) ∧
      Scale.compile { mixedScale with crossPairs := true } =
        .ok (Scale.mixedBase ++ Scale.mixedCross) ∧
      ∃ registry registry' rules all,
        registry = Registry.empty.register "space" (Scale.mixedBase ++ Scale.mixedCross) ∧
        registry' = Registry.empty.register "space" Scale.mixedBase ∧
        themedGap.expand registry .default = .ok rules ∧
        (∀ flag, expand { themedGap with crossPairs := flag } registry' .default = .ok rules) ∧
        themedGap.OnePerPair true mixedScale rules ∧
        expand { themedGap with crossPairs := some true } registry .default = .ok all ∧
        all.length = 6 ∧ (all.map GeneratedRule.selector).Nodup ∧
        all.map GeneratedRule.selector =
          [".theme :where(&-s)", ".theme :where(&-m)", ".theme :where(&-l)",
            ".theme :where(&-s-m)", ".theme :where(&-l-s)", ".theme :where(&-l-m)"] := by
  have hnames : (mixedScale.pairs.map SizePair.name).Nodup := by decide
  have hplain : ∀ pair ∈ mixedScale.pairs, ('-' : CodePoint) ∉ pair.name := by
    show ∀ pair ∈ Scale.mixedPairs, ('-' : CodePoint) ∉ pair.name
    simp only [Scale.mixedPairs, List.forall_mem_cons]
    exact ⟨by decide, by decide, by decide, by simp⟩
  have hfull : Scale.compile { mixedScale with crossPairs := true } =
      .ok (Scale.mixedBase ++ Scale.mixedCross) := by decide +kernel
  obtain ⟨base, hbase, hexpand⟩ := expand_marked hnames hplain hfull
  have hcompile : Scale.compile { mixedScale with crossPairs := false } = .ok Scale.mixedBase := by
    decide +kernel
  obtain rfl : base = Scale.mixedBase := Except.ok.inj (hbase.symm.trans hcompile)
  have hget := Registry.get?_register_self .empty "space" (Scale.mixedBase ++ Scale.mixedCross)
  have hget' := Registry.get?_register_self .empty "space" Scale.mixedBase
  obtain ⟨rules, hrules, hoff, -⟩ :=
    hexpand themedGap .default _ _ "space" hget hget' rfl ⟨_, by rfl⟩
  obtain ⟨hflags, hpairs⟩ := hoff rfl
  obtain ⟨all, hall, -, hon⟩ :=
    hexpand { themedGap with crossPairs := some true } .default _ _ "space" hget hget' rfl
      ⟨_, by rfl⟩
  obtain ⟨hlength, hnodup⟩ := hon rfl
  refine ⟨hnames, hplain, hfull, _, _, rules, all, rfl, rfl, hrules, hflags, hpairs, hall, hlength,
    hnodup, ?_⟩
  have hselectors : (expand { themedGap with crossPairs := some true }
      (Registry.empty.register "space" (Scale.mixedBase ++ Scale.mixedCross)) .default).map
        (fun all => all.map GeneratedRule.selector) =
      .ok [".theme :where(&-s)", ".theme :where(&-m)", ".theme :where(&-l)",
        ".theme :where(&-s-m)", ".theme :where(&-l-s)", ".theme :where(&-l-m)"] := by
    decide +kernel
  rw [hall] at hselectors
  exact Except.ok.inj hselectors

end Utility

end FluidCss
