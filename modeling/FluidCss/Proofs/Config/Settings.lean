import FluidCss.Config.Options
import FluidCss.Proofs.Number.Rounding
import FluidCss.Proofs.Ordered
import FluidCss.Proofs.Result

/-!
# Settings that are accepted

**Theorem (`settingsOf_sound`).** Options whose integers lie in the range of the doubles give
settings or are refused with a configuration error, whatever their shape is. They are refused
exactly if there are no settings that `IsSettings` allows.

`IsSettings` says what the settings are without the order of the checks: every width is the number
that is given or the one it defaults to, and finite, every flag likewise, and the scales stand in
the order of their entries under the names of their keys. Each reader of the options succeeds with a
value if and only if its part of `IsSettings` holds (`numberOr_eq_ok_iff`, `pairOf_eq_ok_iff`,
`scaleOf_eq_ok_iff`), and each has only errors of the one kind. The range of the integers is needed
where a number is tested for being finite, and nowhere else. -/

namespace FluidCss.Config

variable {entries : List (Value × Value)} {settings : Settings}

/-- Every integer in a value lies in the range of the doubles. -/
inductive Value.InRange : Value → Prop
  | null : InRange .null
  | flag (b : Bool) : InRange (.flag b)
  | number {n : Number} (h : n.InRange) : InRange (.number n)
  | text (t : Text) : InRange (.text t)
  | list {items : List Value} (h : ∀ v ∈ items, InRange v) : InRange (.list items)
  | map {entries : List (Value × Value)} (hkeys : ∀ e ∈ entries, InRange e.1)
    (hvalues : ∀ e ∈ entries, InRange e.2) : InRange (.map entries)
  | foreign (kind shown plain : Text) (empty : Bool) : InRange (.foreign kind shown plain empty)

namespace Value

@[simp] theorem inRange_null : InRange .null := .null

@[simp] theorem inRange_flag (b : Bool) : InRange (.flag b) := .flag b

@[simp] theorem inRange_text (t : Text) : InRange (.text t) := .text t

@[simp] theorem inRange_number {n : Number} : InRange (.number n) ↔ n.InRange where
  mp | .number h => h
  mpr := .number

@[simp] theorem inRange_list {items : List Value} :
    InRange (.list items) ↔ ∀ v ∈ items, v.InRange where
  mp | .list h => h
  mpr := .list

@[simp] theorem inRange_map {entries : List (Value × Value)} :
    InRange (.map entries) ↔ (∀ e ∈ entries, e.1.InRange) ∧ ∀ e ∈ entries, e.2.InRange where
  mp | .map hkeys hvalues => ⟨hkeys, hvalues⟩
  mpr h := .map h.1 h.2

end Value

/-- All errors of a computation are about the configuration. -/
abbrev Refuses {α : Type} (x : Except Error α) : Prop :=
  FailsOnly (fun e => e.kind = .configuration) x

/-! ## Numbers and flags -/

theorem toNumber_eq_ok_iff {key : Text} {v : Value} {n : Number} :
    toNumber key v = .ok n ↔ v = .number n ∧ n.isFinite = .ok true := by
  constructor
  · intro h
    cases v with
    | number m =>
      obtain ⟨finite, hfinite, h⟩ := bind_eq_ok.1 h
      cases finite with
      | true =>
        obtain rfl := pure_eq_ok.1 h
        exact ⟨rfl, Error.ofArithmetic_eq_ok.1 hfinite⟩
      | false => cases h
    | _ => cases h
  · intro ⟨hv, hfinite⟩
    rw [hv, toNumber, Error.ofArithmetic_eq_ok.2 hfinite]
    rfl

theorem toFlag_eq_ok_iff {key : Text} {v : Value} {b : Bool} :
    toFlag key v = .ok b ↔ v = .flag b := by
  constructor
  · intro h
    cases v with
    | flag c =>
      cases h
      rfl
    | _ => cases h
  · intro h
    rw [h, toFlag]

theorem refuses_toNumber (key : Text) {v : Value} (h : v.InRange) : Refuses (toNumber key v) := by
  cases h with
  | @number n hn =>
    obtain ⟨finite, hfinite⟩ := hn.isFinite
    rw [toNumber, Error.ofArithmetic_eq_ok.2 hfinite]
    cases finite with
    | true => exact .ok n
    | false => exact .error rfl
  | _ => exact .error rfl

theorem refuses_toFlag (key : Text) (v : Value) : Refuses (toFlag key v) := by
  cases v with
  | flag b => exact .ok b
  | _ => exact .error rfl

/-- A width is the number that is given, or else a default one, and it is finite. -/
def IsWidth (entries : List (Value × Value)) (name : OptionName) (default n : Number) : Prop :=
  (option? entries name).getD (.number default) = .number n ∧ n.isFinite = .ok true

/-- A flag is the one that is given, or else a default one. -/
def IsFlag (entries : List (Value × Value)) (name : OptionName) (default b : Bool) : Prop :=
  (option? entries name).getD (.flag default) = .flag b

theorem numberOr_eq_ok_iff {name : OptionName} {key : Text} {default n : Number} :
    numberOr entries name key default = .ok n ↔ IsWidth entries name default n :=
  toNumber_eq_ok_iff

theorem flagOr_eq_ok_iff {name : OptionName} {key : Text} {default b : Bool} :
    flagOr entries name key default = .ok b ↔ IsFlag entries name default b :=
  toFlag_eq_ok_iff

theorem exists_of_option? {name : OptionName} {v : Value} (h : option? entries name = some v) :
    ∃ e ∈ entries, e.2 = v := by
  obtain ⟨e, he, hv⟩ := Option.map_eq_some_iff.1 h
  exact ⟨e, List.mem_reverse.1 (List.mem_of_find?_eq_some he), hv⟩

theorem exists_of_entry? {key : Text} {v : Value} (h : entry? entries key = some v) :
    ∃ e ∈ entries, e.2 = v := by
  obtain ⟨e, he, hv⟩ := Option.map_eq_some_iff.1 h
  exact ⟨e, List.mem_of_find?_eq_some he, hv⟩

theorem refuses_numberOr (h : ∀ e ∈ entries, e.2.InRange) (name : OptionName) (key : Text)
    {default : Number} (hdefault : default.isFinite = .ok true) :
    Refuses (numberOr entries name key default) := by
  unfold numberOr
  cases hoption : option? entries name with
  | none =>
    rw [Option.getD_none, toNumber_eq_ok_iff.2 ⟨rfl, hdefault⟩]
    exact .ok default
  | some v =>
    obtain ⟨e, he, rfl⟩ := exists_of_option? hoption
    exact refuses_toNumber key (h e he)

theorem refuses_flagOr (name : OptionName) (key : Text) (default : Bool) :
    Refuses (flagOr entries name key default) :=
  refuses_toFlag key _

/-! ## Pairs -/

/-- The pair of an entry has the first two numbers of its list as its sizes, and they are finite. -/
structure IsPair (e : Value × Value) (pair : SizePair) : Prop where
  name : pair.name = e.1.plain
  sizes : ∃ others, e.2 = .list (.number pair.least :: .number pair.greatest :: others)
  least : pair.least.isFinite = .ok true
  greatest : pair.greatest.isFinite = .ok true

theorem pairOf_eq_ok_iff {scale : Text} {e : Value × Value} {pair : SizePair} :
    pairOf scale e = .ok pair ↔ IsPair e pair := by
  obtain ⟨name, value⟩ := e
  constructor
  · intro h
    unfold pairOf at h
    split at h
    · rename_i hentry
      obtain ⟨rfl, rfl⟩ := Prod.mk.inj hentry
      obtain ⟨least, hreadLeast, h⟩ := bind_eq_ok.1 h
      obtain ⟨greatest, hreadGreatest, h⟩ := bind_eq_ok.1 h
      obtain rfl := pure_eq_ok.1 h
      obtain ⟨rfl, hleast⟩ := toNumber_eq_ok_iff.1 hreadLeast
      obtain ⟨rfl, hgreatest⟩ := toNumber_eq_ok_iff.1 hreadGreatest
      exact ⟨rfl, ⟨_, rfl⟩, hleast, hgreatest⟩
    · cases h
  · intro h
    obtain ⟨pairName, least, greatest⟩ := pair
    obtain rfl : pairName = name.plain := h.name
    obtain ⟨others, rfl⟩ : ∃ others, value = .list (.number least :: .number greatest :: others) :=
      h.sizes
    -- Both sizes are read again as they are.
    exact bind_eq_ok.2 ⟨least, toNumber_eq_ok_iff.2 ⟨rfl, h.least⟩,
      bind_eq_ok.2 ⟨greatest, toNumber_eq_ok_iff.2 ⟨rfl, h.greatest⟩, rfl⟩⟩

theorem refuses_pairOf (scale : Text) {e : Value × Value} (h : e.2.InRange) :
    Refuses (pairOf scale e) := by
  obtain ⟨name, value⟩ := e
  unfold pairOf
  split
  · rename_i hentry
    obtain ⟨rfl, rfl⟩ := Prod.mk.inj hentry
    cases h with
    | list hitems =>
      refine (refuses_toNumber _ (hitems _ (by simp))).bind fun least _ => ?_
      exact (refuses_toNumber _ (hitems _ (by simp))).bind fun greatest _ => .ok _
  · exact .error rfl

/-! ## Scales -/

/-- The scale of a mapping takes from the run what the mapping does not give. -/
structure IsScale (settings : Settings) (name : Text) (options : List (Value × Value))
    (scale : Scale) : Prop where
  name : scale.name = name
  minWidth : IsWidth options .minWidth settings.minWidth scale.minWidth
  maxWidth : IsWidth options .maxWidth settings.maxWidth scale.maxWidth
  crossPairs : IsFlag options .crossPairs settings.crossPairs scale.crossPairs
  pairs : ∃ pairs, entry? options "pairs" = some (.map pairs) ∧ pairs ≠ [] ∧
    List.Forall₂ IsPair pairs scale.pairs

theorem pairEntries_eq_ok_iff {scale : Text} {options pairs : List (Value × Value)} :
    pairEntries scale options = .ok pairs ↔
      entry? options "pairs" = some (.map pairs) ∧ pairs ≠ [] := by
  unfold pairEntries
  constructor
  · intro h
    split at h
    · rename_i pair others hpairs
      cases h
      exact ⟨hpairs, List.cons_ne_nil _ _⟩
    · cases h
  · intro ⟨hpairs, hne⟩
    obtain ⟨pair, others, rfl⟩ := List.exists_cons_of_ne_nil hne
    rw [hpairs]

theorem refuses_pairEntries (scale : Text) (options : List (Value × Value)) :
    Refuses (pairEntries scale options) := by
  unfold pairEntries
  split
  · exact .ok _
  · exact .error rfl

theorem mapM_pairOf_eq_ok_iff (scale : Text) {es : List (Value × Value)} {pairs : List SizePair} :
    es.mapM (pairOf scale) = .ok pairs ↔ List.Forall₂ IsPair es pairs := by
  rw [mapM_eq_ok_iff_forall₂]
  simp only [pairOf_eq_ok_iff]

theorem checked_eq_ok_iff {scale scale' : Scale} :
    Scale.checked scale = .ok scale' ↔ scale.name ≠ [] ∧ scale = scale' := by
  unfold Scale.checked
  cases scale.name <;> simp

theorem refuses_checked (scale : Scale) : Refuses (Scale.checked scale) := by
  unfold Scale.checked
  split
  · exact .error rfl
  · exact .ok scale

theorem scaleOf_eq_ok_iff {name : Text} {value : Value} {scale : Scale} :
    scaleOf settings name value = .ok scale ↔
      name ≠ [] ∧ ∃ options, value = .map options ∧ IsScale settings name options scale := by
  constructor
  · intro h
    cases value with
    | map options =>
      obtain ⟨es, hes, h⟩ := bind_eq_ok.1 h
      obtain ⟨pairs, hpairs, h⟩ := bind_eq_ok.1 h
      obtain ⟨minWidth, hmin, h⟩ := bind_eq_ok.1 h
      obtain ⟨maxWidth, hmax, h⟩ := bind_eq_ok.1 h
      obtain ⟨crossPairs, hcross, h⟩ := bind_eq_ok.1 h
      obtain ⟨hname, rfl⟩ := checked_eq_ok_iff.1 h
      obtain ⟨hentry, hne⟩ := pairEntries_eq_ok_iff.1 hes
      exact ⟨hname, options, rfl, rfl, numberOr_eq_ok_iff.1 hmin, numberOr_eq_ok_iff.1 hmax,
        flagOr_eq_ok_iff.1 hcross, es, hentry, hne, (mapM_pairOf_eq_ok_iff name).1 hpairs⟩
    | _ => cases h
  · intro ⟨hname, options, hvalue, h⟩
    obtain ⟨es, hentry, hne, hpairs⟩ := h.pairs
    obtain ⟨minWidth, maxWidth, scaleName, crossPairs, pairs⟩ := scale
    obtain rfl : scaleName = name := h.name
    rw [hvalue]
    -- Each reader accepts what the scale has, in the order in which they are called.
    refine bind_eq_ok.2 ⟨es, pairEntries_eq_ok_iff.2 ⟨hentry, hne⟩, ?_⟩
    refine bind_eq_ok.2 ⟨pairs, (mapM_pairOf_eq_ok_iff _).2 hpairs, ?_⟩
    refine bind_eq_ok.2 ⟨minWidth, numberOr_eq_ok_iff.2 h.minWidth, ?_⟩
    refine bind_eq_ok.2 ⟨maxWidth, numberOr_eq_ok_iff.2 h.maxWidth, ?_⟩
    refine bind_eq_ok.2 ⟨crossPairs, flagOr_eq_ok_iff.2 h.crossPairs, ?_⟩
    exact checked_eq_ok_iff.2 ⟨hname, rfl⟩

theorem refuses_scaleOf (hmin : settings.minWidth.isFinite = .ok true)
    (hmax : settings.maxWidth.isFinite = .ok true) (name : Text) {value : Value}
    (h : value.InRange) : Refuses (scaleOf settings name value) := by
  cases h with
  | @map options hkeys hvalues =>
    refine (refuses_pairEntries name options).bind fun es hes => ?_
    have hpairs : ∀ e ∈ es, e.2.InRange := by
      intro e he
      obtain ⟨entry, hentry, hmap⟩ := exists_of_entry? (pairEntries_eq_ok_iff.1 hes).1
      have hrange := hvalues entry hentry
      rw [hmap] at hrange
      cases hrange with
      | map _ hvalues => exact hvalues e he
    refine (FailsOnly.mapM fun e he => refuses_pairOf name (hpairs e he)).bind fun pairs _ => ?_
    refine (refuses_numberOr hvalues .minWidth _ hmin).bind fun minWidth _ => ?_
    refine (refuses_numberOr hvalues .maxWidth _ hmax).bind fun maxWidth _ => ?_
    refine (refuses_flagOr .crossPairs _ _).bind fun crossPairs _ => ?_
    exact refuses_checked _
  | _ => exact .error rfl

/-! ## All scales -/

/-- The scale of an entry is named after the key, which is not empty. -/
structure IsSeed (settings : Settings) (e : Value × Value) (seed : Text × Scale) : Prop where
  key : seed.1 = e.1.plain
  key_ne : seed.1 ≠ []
  scale : ∃ options, e.2 = .map options ∧ IsScale settings seed.1 options seed.2

/-- The scales that an option gives. A value that counts as absent gives none, and a mapping one for
each entry, in order: a repeated name keeps its first place and its last scale. -/
inductive AreSeeds (settings : Settings) : Option Value → List (Text × Scale) → Prop
  | absent : AreSeeds settings none []
  | empty {v : Value} (h : v.isEmpty) : AreSeeds settings (some v) []
  | map {entries : List (Value × Value)} {seeds scales : List (Text × Scale)}
    (h : List.Forall₂ (IsSeed settings) entries seeds) (hscales : IsDictionary seeds scales) :
    AreSeeds settings (some (.map entries)) scales

/-- The scale of an entry under the name of its key. -/
def readSeed (settings : Settings) (e : Value × Value) : Except Error (Text × Scale) := do
  return (e.1.plain, ← scaleOf settings e.1.plain e.2)

theorem readSeed_eq_ok_iff {e : Value × Value} {seed : Text × Scale} :
    readSeed settings e = .ok seed ↔ IsSeed settings e seed := by
  unfold readSeed
  constructor
  · intro h
    obtain ⟨scale, hscale, h⟩ := bind_eq_ok.1 h
    obtain rfl := pure_eq_ok.1 h
    obtain ⟨hne, hscale⟩ := scaleOf_eq_ok_iff.1 hscale
    exact ⟨rfl, hne, hscale⟩
  · intro h
    obtain ⟨name, scale⟩ := seed
    obtain rfl : name = e.1.plain := h.key
    exact bind_eq_ok.2 ⟨scale, scaleOf_eq_ok_iff.2 ⟨h.key_ne, h.scale⟩, rfl⟩

theorem mapM_readSeed_eq_ok_iff {es : List (Value × Value)} {seeds : List (Text × Scale)} :
    es.mapM (readSeed settings) = .ok seeds ↔ List.Forall₂ (IsSeed settings) es seeds := by
  rw [mapM_eq_ok_iff_forall₂]
  simp only [readSeed_eq_ok_iff]

theorem refuses_readSeed (hmin : settings.minWidth.isFinite = .ok true)
    (hmax : settings.maxWidth.isFinite = .ok true) {e : Value × Value} (h : e.2.InRange) :
    Refuses (readSeed settings e) :=
  (refuses_scaleOf hmin hmax _ h).bind fun _ _ => .ok _

theorem scalesOf_map (settings : Settings) (seeds : List (Value × Value)) :
    scalesOf settings (some (.map seeds)) = Ordered.ofList <$> seeds.mapM (readSeed settings) := by
  cases seeds with
  | nil => rfl
  | cons e seeds => rfl

theorem scalesOf_of_isEmpty {value : Option Value} (h : ∀ v ∈ value, v.isEmpty) :
    scalesOf settings value = .ok [] := by
  have hfilter : value.filter (fun v => !v.isEmpty) = none := by
    simpa [Option.filter_eq_none_iff] using h
  rw [scalesOf, hfilter]

theorem scalesOf_some {v : Value} (h : v.isEmpty) : scalesOf settings (some v) = .ok [] :=
  scalesOf_of_isEmpty fun _ hv => Option.some.inj hv ▸ h

/-- The scales are absent, or a mapping that is read, or refused as something else. -/
theorem scalesOf_cases (settings : Settings) (v : Value) :
    (v.isEmpty ∧ scalesOf settings (some v) = .ok []) ∨
    (∃ entries, v = .map entries ∧
      scalesOf settings (some v) = Ordered.ofList <$> entries.mapM (readSeed settings)) ∨
    scalesOf settings (some v) = .error (.scalesNotMapping v.describe) := by
  cases hempty : v.isEmpty with
  | true => exact .inl ⟨rfl, scalesOf_some hempty⟩
  | false =>
    refine .inr ?_
    cases v with
    | map entries => exact .inl ⟨entries, rfl, scalesOf_map settings entries⟩
    | _ =>
      refine .inr ?_
      simp only [scalesOf, Option.filter_some, hempty, Bool.not_false, if_true]

theorem scalesOf_eq_ok_iff {value : Option Value} {scales : List (Text × Scale)} :
    scalesOf settings value = .ok scales ↔ AreSeeds settings value scales := by
  constructor
  · intro h
    cases value with
    | none =>
      cases h
      exact .absent
    | some v =>
      rcases scalesOf_cases settings v with ⟨hempty, hread⟩ | ⟨entries, rfl, hread⟩ | hread
      · rw [hread] at h
        cases h
        exact .empty hempty
      · rw [hread] at h
        obtain ⟨seeds, hseeds, rfl⟩ := map_eq_ok.1 h
        exact .map (mapM_readSeed_eq_ok_iff.1 hseeds) (Ordered.isDictionary_ofList seeds)
      · rw [hread] at h
        cases h
  · intro h
    cases h with
    | absent => rfl
    | empty hempty => exact scalesOf_some hempty
    | map hseeds hscales =>
      rw [scalesOf_map, mapM_readSeed_eq_ok_iff.2 hseeds, Ordered.isDictionary_iff.1 hscales]
      rfl

theorem refuses_scalesOf (hmin : settings.minWidth.isFinite = .ok true)
    (hmax : settings.maxWidth.isFinite = .ok true) {value : Option Value}
    (h : ∀ v ∈ value, v.InRange) : Refuses (scalesOf settings value) := by
  cases value with
  | none => exact .ok []
  | some v =>
    rcases scalesOf_cases settings v with ⟨-, hread⟩ | ⟨entries, rfl, hread⟩ | hread
    · rw [hread]
      exact .ok []
    · rw [hread]
      cases h _ rfl with
      | map _ hvalues =>
        exact (FailsOnly.mapM fun e he => refuses_readSeed hmin hmax (hvalues e he)).map _
    · rw [hread]
      exact .error rfl

/-! ## Settings -/

structure IsSettings (entries : List (Value × Value)) (settings : Settings) : Prop where
  minWidth : IsWidth entries .minWidth Settings.default.minWidth settings.minWidth
  maxWidth : IsWidth entries .maxWidth Settings.default.maxWidth settings.maxWidth
  crossPairs : IsFlag entries .crossPairs Settings.default.crossPairs settings.crossPairs
  lowSpecificity :
    IsFlag entries .lowSpecificity Settings.default.lowSpecificity settings.lowSpecificity
  scales : AreSeeds settings (option? entries .scales) settings.scales

/-- The scales that are read do not depend on the scales that there are. -/
theorem scalesOf_withScales (settings : Settings) (scales : List (Text × Scale))
    (value : Option Value) :
    scalesOf { settings with scales := scales } value = scalesOf settings value := rfl

theorem settingsOf_eq_ok_iff :
    settingsOf (.map entries) = .ok settings ↔ IsSettings entries settings := by
  constructor
  · intro h
    obtain ⟨es, hes, h⟩ := bind_eq_ok.1 h
    obtain rfl : entries = es := Except.ok.inj hes
    obtain ⟨minWidth, hmin, h⟩ := bind_eq_ok.1 h
    obtain ⟨maxWidth, hmax, h⟩ := bind_eq_ok.1 h
    obtain ⟨crossPairs, hcross, h⟩ := bind_eq_ok.1 h
    obtain ⟨lowSpecificity, hlow, h⟩ := bind_eq_ok.1 h
    obtain ⟨scales, hscales, h⟩ := bind_eq_ok.1 h
    obtain rfl := pure_eq_ok.1 h
    -- The scales are read with settings that do not have them yet.
    rw [← scalesOf_withScales _ scales, scalesOf_eq_ok_iff] at hscales
    exact ⟨numberOr_eq_ok_iff.1 hmin, numberOr_eq_ok_iff.1 hmax, flagOr_eq_ok_iff.1 hcross,
      flagOr_eq_ok_iff.1 hlow, hscales⟩
  · intro h
    obtain ⟨minWidth, maxWidth, crossPairs, lowSpecificity, scales⟩ := settings
    refine bind_eq_ok.2 ⟨entries, rfl, ?_⟩
    refine bind_eq_ok.2 ⟨minWidth, numberOr_eq_ok_iff.2 h.minWidth, ?_⟩
    refine bind_eq_ok.2 ⟨maxWidth, numberOr_eq_ok_iff.2 h.maxWidth, ?_⟩
    refine bind_eq_ok.2 ⟨crossPairs, flagOr_eq_ok_iff.2 h.crossPairs, ?_⟩
    refine bind_eq_ok.2 ⟨lowSpecificity, flagOr_eq_ok_iff.2 h.lowSpecificity, ?_⟩
    refine bind_eq_ok.2 ⟨scales, ?_, rfl⟩
    rw [← scalesOf_withScales _ scales]
    exact scalesOf_eq_ok_iff.2 h.scales

theorem refuses_settingsOf (h : ∀ e ∈ entries, e.2.InRange) :
    Refuses (settingsOf (.map entries)) := by
  refine (FailsOnly.ok entries).bind fun es hes => ?_
  obtain rfl : entries = es := Except.ok.inj hes
  refine (refuses_numberOr h .minWidth _ (by decide +kernel)).bind fun minWidth hmin => ?_
  refine (refuses_numberOr h .maxWidth _ (by decide +kernel)).bind fun maxWidth hmax => ?_
  refine (refuses_flagOr .crossPairs _ _).bind fun crossPairs _ => ?_
  refine (refuses_flagOr .lowSpecificity _ _).bind fun lowSpecificity _ => ?_
  have hrange : ∀ v ∈ option? entries .scales, v.InRange := by
    intro v hv
    obtain ⟨e, he, rfl⟩ := exists_of_option? hv
    exact h e he
  exact (refuses_scalesOf (numberOr_eq_ok_iff.1 hmin).2 (numberOr_eq_ok_iff.1 hmax).2 hrange).bind
    fun scales _ => .ok _

/-! ## What accepted settings are like -/

/-- A scale under its own name, with everything it needs to be compiled. -/
structure IsSound (seed : Text × Scale) : Prop where
  name : seed.2.name = seed.1
  key_ne : seed.1 ≠ []
  minWidth : seed.2.minWidth.isFinite = .ok true
  maxWidth : seed.2.maxWidth.isFinite = .ok true
  pairs_ne : seed.2.pairs ≠ []
  sizes : ∀ pair ∈ seed.2.pairs, pair.least.isFinite = .ok true ∧ pair.greatest.isFinite = .ok true

theorem IsSeed.isSound {e : Value × Value} {seed : Text × Scale} (h : IsSeed settings e seed) :
    IsSound seed := by
  obtain ⟨options, -, hscale⟩ := h.scale
  obtain ⟨es, -, hne, hpairs⟩ := hscale.pairs
  refine ⟨hscale.name, h.key_ne, hscale.minWidth.2, hscale.maxWidth.2, ?_, ?_⟩
  · intro hnil
    rw [hnil, List.forall₂_nil_right_iff] at hpairs
    exact hne hpairs
  · intro pair hpair
    obtain ⟨e, -, he⟩ := exists_of_mapM_ok ((mapM_pairOf_eq_ok_iff seed.1).2 hpairs) hpair
    have hread := pairOf_eq_ok_iff.1 he
    exact ⟨hread.least, hread.greatest⟩

theorem AreSeeds.isSound {value : Option Value} {scales : List (Text × Scale)}
    (h : AreSeeds settings value scales) : ∀ seed ∈ scales, IsSound seed := by
  cases h with
  | absent => exact fun _ h => absurd h List.not_mem_nil
  | empty _ => exact fun _ h => absurd h List.not_mem_nil
  | map hseeds hscales =>
    intro seed hseed
    obtain ⟨e, -, he⟩ := exists_of_mapM_ok (mapM_readSeed_eq_ok_iff.2 hseeds) (hscales.mem hseed)
    exact (readSeed_eq_ok_iff.1 he).isSound

theorem AreSeeds.nodup_keys {value : Option Value} {scales : List (Text × Scale)}
    (h : AreSeeds settings value scales) : (scales.map Prod.fst).Nodup := by
  cases h with
  | absent => exact List.nodup_nil
  | empty _ => exact List.nodup_nil
  | map hseeds hscales => exact hscales.nodup_keys

/-- **Options are refused with a configuration error, or accepted as the settings they stand for**,
in which the widths are finite and every scale is sound and under a name of its own. -/
theorem settingsOf_sound (h : (Value.map entries).InRange) :
    (∃ e, settingsOf (.map entries) = .error e ∧ e.kind = .configuration ∧
      ∀ settings, ¬IsSettings entries settings) ∨
    ∃ settings, settingsOf (.map entries) = .ok settings ∧ IsSettings entries settings ∧
      settings.minWidth.isFinite = .ok true ∧ settings.maxWidth.isFinite = .ok true ∧
      (settings.scales.map Prod.fst).Nodup ∧ ∀ seed ∈ settings.scales, IsSound seed := by
  cases h with
  | map _ hvalues =>
    have hrefuses := refuses_settingsOf hvalues
    cases hread : settingsOf (.map entries) with
    | error e =>
      refine .inl ⟨e, rfl, hrefuses e hread, fun settings hsettings => ?_⟩
      cases hread.symm.trans (settingsOf_eq_ok_iff.2 hsettings)
    | ok settings =>
      have hsettings := settingsOf_eq_ok_iff.1 hread
      exact .inr ⟨settings, rfl, hsettings, hsettings.minWidth.2, hsettings.maxWidth.2,
        hsettings.scales.nodup_keys, hsettings.scales.isSound⟩

/-- Options with a width, a scale with a width of its own and one that takes the width of the run.
-/
def mixedOptions : List (Value × Value) :=
  [(.text "min_width", size 480), (.text "unknown", .list [.null, .flag true]),
    (.text "scales", .map [
      (.text "gap", .map [(.text "pairs", .map [(size 1, .list [size 8, size 16])])]),
      (.text "type", .map [(.text "minWidth", size 600),
        (.text "pairs", .map [(.text "l", .list [size 24, size 40, .null])])])])]
where
  size (n : Int) : Value := .number (.int n)

theorem settingsOf_sound_mixedOptions : (Value.map mixedOptions).InRange ∧
    ∃ settings, settingsOf (.map mixedOptions) = .ok settings ∧ IsSettings mixedOptions settings ∧
      settings.minWidth.isFinite = .ok true ∧ settings.maxWidth.isFinite = .ok true ∧
      (settings.scales.map Prod.fst).Nodup ∧ ∀ seed ∈ settings.scales, IsSound seed := by
  have hrange : (Value.map mixedOptions).InRange := by
    have hsizes : ∀ n ∈ [(1 : Int), 8, 16, 24, 40, 480, 600], (Number.int n).InRange := by
      decide +kernel
    simp only [List.forall_mem_cons] at hsizes
    obtain ⟨h1, h8, h16, h24, h40, h480, h600, -⟩ := hsizes
    simp only [mixedOptions, mixedOptions.size, Value.inRange_map, Value.inRange_list,
      Value.inRange_number, Value.inRange_text, Value.inRange_flag, Value.inRange_null,
      List.forall_mem_cons, List.not_mem_nil, false_imp_iff, implies_true, and_true, h1, h8, h16,
      h24, h40, h480, h600]
  have haccepted : (settingsOf (.map mixedOptions)).isOk = true := by decide +kernel
  refine ⟨hrange, (settingsOf_sound hrange).resolve_left ?_⟩
  intro ⟨e, he, _⟩
  rw [he] at haccepted
  cases haccepted

end FluidCss.Config
