import FluidCss.Proofs.Param.Grammar
import FluidCss.Proofs.Param.Written

/-!
# Parameters that are read back

The reader turns the symbols of written parameters into the values they were written for. Each kind
of value has one lemma that holds wherever the value stands before what ends it, and lists and
objects are built from these.

* `ReadsAs`: the symbols of a part are read as a value.
* `readsAs_ofList`, `readsAs_objectPart`: a list is read as its values, an object as its fields.
* `readDirective_callPart`: a call that is written is read as its fields.
-/

namespace FluidCss.Param.Value

open FluidCss.Part

/-! ## Single symbols -/

/-- Nothing follows, or a divider or a closing bracket. -/
def Ends (ts : List Symbol) : Prop := ∀ t ∈ ts.head?, t.kind = .divider ∨ t.isCloser

theorem ends_cons {t : Symbol} (h : t.kind = .divider ∨ t.isCloser) (ts : List Symbol) :
    Ends (t :: ts) := by
  intro u hu
  obtain rfl := Option.some.inj hu
  exact h

theorem splitRun_of_ends (last : Symbol) {ts : List Symbol} (h : Ends ts) :
    splitRun last ts = ([], ts) := by
  cases ts with
  | nil => rfl
  | cons t ts =>
    have hstops : continues last t = false := by
      rcases h t rfl with hdivider | hcloser
      · simp [continues, hdivider]
      · have hkind : t.kind = .punctuation := by
          simp only [Symbol.isCloser, Symbol.isPunctuation, Bool.or_eq_true, Bool.and_eq_true,
            beq_iff_eq] at hcloser
          rcases hcloser with (⟨hkind, -⟩ | ⟨hkind, -⟩) | ⟨hkind, -⟩ <;> exact hkind
        simp [continues, hkind, hcloser]
    simp [splitRun, hstops]

theorem isPunctuation_of_kind {t : Symbol} (h : t.kind ≠ .punctuation) (text : Text) :
    t.isPunctuation text = false := by
  simp [Symbol.isPunctuation, h]

theorem skipDividers_cons {t : Symbol} (h : t.kind ≠ .divider) (ts : List Symbol) :
    skipDividers (t :: ts) = t :: ts := by
  simp [skipDividers, h]

/-! ## Single turns -/

/-- Dividers before what is read do not matter. -/
theorem contents_dividers {ds : List Symbol} (h : AreDividers ds) (bound : Nat) (part : Unfinished)
    (ts : List Symbol) : contents bound part (ds ++ ts) = contents bound part ts := by
  unfold contents
  rw [skipDividers_append h]

theorem IsKey.kind_ne {k : Symbol} (h : IsKey k) : k.kind ≠ .divider ∧ k.kind ≠ .punctuation := by
  rcases h with hkind | hkind <;> simp [hkind]

theorem contents_divider {t : Symbol} (h : t.kind = .divider) (bound : Nat) (part : Unfinished)
    (ts : List Symbol) : contents bound part (t :: ts) = contents bound part ts :=
  contents_dividers (List.forall_mem_singleton.2 h) bound part ts

theorem contents_entry {bound : Nat} {fields : List (Text × Value)} {value : Value}
    {k t : Symbol} {es ts rest : List Symbol} (hkey : IsKey k) (hes : AreDividers es)
    (hdivider : t.kind ≠ .divider)
    (h : readWith (contents bound) (some k.text) t ts = .ok (value, rest)) :
    contents (bound + 1) (.object fields) (k :: (es ++ t :: ts)) =
      contents bound (.object (Ordered.put k.text value fields)) rest := by
  have hskip : skipDividers (es ++ t :: ts) = t :: ts :=
    (skipDividers_append hes _).trans (skipDividers_cons hdivider ts)
  conv => lhs; unfold contents
  simp [skipDividers_cons hkey.kind_ne.1, isPunctuation_of_kind hkey.kind_ne.2,
    show k.kind = .word ∨ k.kind = .string from hkey, hskip, h, bind, Except.bind]

theorem contents_list_close {bound : Nat} {items : List Value} {t : Symbol} {ts : List Symbol}
    (hclose : t.isPunctuation "]") :
    contents (bound + 1) (.list items) (t :: ts) = .ok (.list items, ts) := by
  have hdivider : t.kind ≠ .divider := by simp [(isPunctuation_iff.1 hclose).1]
  unfold contents
  simp [skipDividers_cons hdivider, hclose]

theorem contents_object_close {bound : Nat} {fields : List (Text × Value)} {t : Symbol}
    {ts : List Symbol} (hclose : t.isPunctuation "\x7d") :
    contents (bound + 1) (.object fields) (t :: ts) = .ok (.object fields, ts) := by
  have hdivider : t.kind ≠ .divider := by simp [(isPunctuation_iff.1 hclose).1]
  unfold contents
  simp [skipDividers_cons hdivider, hclose]

theorem contents_list_cons {bound : Nat} {values : List Value} {value : Value} {t : Symbol}
    {ts rest : List Symbol} (hdivider : t.kind ≠ .divider) (hcloser : t.isPunctuation "]" = false)
    (h : readWith (contents bound) none t ts = .ok (value, rest)) :
    contents (bound + 1) (.list values) (t :: ts) =
      contents bound (.list (values ++ [value])) rest := by
  conv => lhs; unfold contents
  simp [skipDividers_cons hdivider, hcloser, h, bind, Except.bind]

/-! ## Values -/

/-- The symbols of the part are read as a value, wherever they stand before what ends it. The value
may show whether a space precedes it. -/
structure ReadsAs (p : Part) (v : Bool → Value) : Prop where
  solid : p.IsSolid
  reads : ∀ spaced, ∃ t ts, p.symbols spaced = t :: ts ∧ t.kind ≠ .divider ∧
    t.isPunctuation "]" = false ∧ ∀ (bound : Nat) (key : Option Text) {rest : List Symbol},
      (ts ++ rest).length ≤ bound → Ends rest →
        readWith (contents bound) key t (ts ++ rest) = .ok (v spaced, rest)

theorem readsAs_word {p : Part} {text : Text} (hsolid : p.IsSolid)
    (h : ∀ spaced, p.symbols spaced = [⟨.word, text, spaced⟩]) :
    ReadsAs p fun spaced => .symbol ⟨.word, text, spaced⟩ where
  solid := hsolid
  reads spaced := by
    refine ⟨_, [], h spaced, nofun, rfl, fun _ _ {rest} _ hrest => ?_⟩
    have hrun := splitRun_of_ends ⟨.word, text, spaced⟩ hrest
    simp [readWith, Symbol.isPunctuation, Symbol.isCloser, hrun, join]

theorem readsAs_ofWord (name : Text) :
    ReadsAs (ofWord name) fun spaced => .symbol ⟨.word, name, spaced⟩ :=
  readsAs_word rfl fun _ => rfl

theorem readsAs_ofInt (n : Int) :
    ReadsAs (ofInt n) fun spaced => .symbol ⟨.word, Number.intText n, spaced⟩ :=
  readsAs_word rfl fun _ => rfl

theorem readsAs_ofString (t : Text) :
    ReadsAs (ofString t) fun spaced => .symbol ⟨.string, t, spaced⟩ where
  solid := rfl
  reads spaced := ⟨_, [], rfl, nofun, rfl, fun _ _ _ _ _ => by
    simp [readWith, Symbol.isPunctuation, Symbol.ofLeaf]⟩

/-! ## Lists -/

def commaSymbol : Symbol := ⟨.divider, ",", false⟩

def colonSymbol : Symbol := ⟨.divider, ":", false⟩

/-- A part that is written with the value that it is read as. -/
structure Written where
  part : Part
  value : Bool → Value
  item : Item [part]
  readsAs : ReadsAs part value

theorem symbolsAll_comma {p : Part} (h : p.IsSolid) (ps : List Part) :
    symbolsAll false (comma :: gap :: p :: ps) =
      commaSymbol :: (p.symbols true ++ symbolsAll false ps) := by
  show commaSymbol :: symbolsAll true (p :: ps) = _
  rw [symbolsAll_cons h]

theorem ends_items (items : List Written) (rest : List Symbol) :
    Ends (symbolsAll false (items.flatMap fun w => [comma, gap, w.part]) ++
      Symbol.bracket ']' false :: rest) := by
  cases items with
  | nil => exact ends_cons (.inr rfl) _
  | cons w items => exact ends_cons (.inl rfl) _

theorem contents_items {items : List Written} {values : List Value} {bound : Nat}
    {rest : List Symbol}
    (h : (symbolsAll false (items.flatMap fun w => [comma, gap, w.part]) ++
      Symbol.bracket ']' false :: rest).length ≤ bound) :
    contents bound (.list values) (symbolsAll false (items.flatMap fun w => [comma, gap, w.part]) ++
      Symbol.bracket ']' false :: rest) =
        .ok (.list (values ++ items.map fun w => w.value true), rest) := by
  -- Induction on the values.
  induction items generalizing values bound with
  | nil =>
    cases bound with
    | zero => cases h
    | succ bound =>
      rw [List.map_nil, List.append_nil]
      exact contents_list_close rfl
  | cons w items ih =>
    obtain ⟨t, ts, hsymbols, hdivider, hcloser, hreads⟩ := w.readsAs.reads true
    rw [List.flatMap_cons, List.cons_append, List.cons_append, List.cons_append, List.nil_append,
      symbolsAll_comma w.readsAs.solid, hsymbols] at h ⊢
    cases bound with
    | zero => cases h
    | succ bound =>
      simp only [List.cons_append, List.append_assoc, List.length_cons] at h ⊢
      have hread := hreads bound none (by omega) (ends_items items rest)
      rw [contents_divider rfl, contents_list_cons hdivider hcloser hread, ih, List.map_cons,
        List.append_assoc]
      · rfl
      · simp only [List.length_append] at h ⊢
        omega

/-- Values as they are read in a list: a space precedes each but the first. -/
def valuesOf : List Written → List Value
  | [] => []
  | w :: items => w.value false :: items.map fun w => w.value true

/-- **A list is read as the list of its values.** -/
theorem readsAs_ofList {items : List Written} (hne : items ≠ []) :
    ReadsAs (ofList (items.map Written.part)) fun _ => .list (valuesOf items) where
  solid := trivial
  reads spaced := by
    refine ⟨_, _, symbols_block .., nofun, rfl, fun bound _ {rest} hbound _ => ?_⟩
    show contents bound (.list []) _ = _
    have hrows : ∀ items : List Written,
        ((items.map Written.part).map fun p => [p]).flatMap (fun r => comma :: gap :: r) =
          items.flatMap fun w => [comma, gap, w.part] := by
      intro items
      rw [List.flatMap_map, List.flatMap_map]
    rw [List.append_assoc] at hbound ⊢
    change (_ ++ Symbol.bracket ']' false :: rest).length ≤ bound at hbound
    change contents bound (.list []) (_ ++ Symbol.bracket ']' false :: rest) = _
    obtain ⟨w, items, rfl⟩ := List.exists_cons_of_ne_nil hne
    obtain ⟨t, ts, hsymbols, hdivider, hcloser, hreads⟩ := w.readsAs.reads false
    rw [List.map_cons, List.map_cons, listed, hrows, List.cons_append, List.nil_append,
      symbolsAll_cons w.readsAs.solid, hsymbols] at hbound ⊢
    cases bound with
    | zero => cases hbound
    | succ bound =>
      simp only [List.cons_append, List.append_assoc, List.length_cons] at hbound ⊢
      have hread := hreads bound none (by omega) (ends_items items rest)
      rw [contents_list_cons hdivider hcloser hread]
      refine contents_items ?_
      simp only [List.length_append] at hbound ⊢
      omega

/-! ## Objects -/

/-- A key that is written with the name that it is read as. -/
structure Key where
  part : Part
  name : Text
  item : Item [part]
  solid : part.IsSolid
  symbols : ∀ spaced, ∃ kind, (kind = .word ∨ kind = .string) ∧
    part.symbols spaced = [⟨kind, name, spaced⟩]

theorem symbolsAll_field (key : Key) (w : Written) (spaced : Bool) (ps : List Part) :
    ∃ kind, (kind = .word ∨ kind = .string) ∧ symbolsAll spaced (field key.part w.part ++ ps) =
      ⟨kind, key.name, spaced⟩ :: colonSymbol :: (w.part.symbols true ++ symbolsAll false ps) := by
  obtain ⟨kind, hkind, hsymbols⟩ := key.symbols spaced
  refine ⟨kind, hkind, ?_⟩
  show symbolsAll spaced (key.part :: colon :: gap :: w.part :: ps) = _
  rw [symbolsAll_cons key.solid, hsymbols]
  show _ :: colonSymbol :: symbolsAll true (w.part :: ps) = _
  rw [symbolsAll_cons w.readsAs.solid]

/-- The parts of fields, with a comma before each. -/
def fieldsAfter (fields : List (Key × Written)) : List Part :=
  fields.flatMap fun f => comma :: gap :: field f.1.part f.2.part

/-- What fields are read as. -/
def fieldsOf (fields : List (Key × Written)) : List (Text × Value) :=
  fields.map fun f => (f.1.name, f.2.value true)

theorem ends_fields (fields : List (Key × Written)) (rest : List Symbol) :
    Ends
      (symbolsAll false (fieldsAfter fields ++ [gap]) ++ Symbol.bracket '\x7d' false :: rest) := by
  cases fields with
  | nil => exact ends_cons (.inr rfl) _
  | cons f fields => exact ends_cons (.inl rfl) _

theorem contents_object_cons {bound : Nat} {fields : List (Text × Value)} {value : Value}
    {k t : Symbol} {ts rest : List Symbol} (hkey : IsKey k) (hdivider : t.kind ≠ .divider)
    (h : readWith (contents bound) (some k.text) t ts = .ok (value, rest)) :
    contents (bound + 1) (.object fields) (k :: colonSymbol :: t :: ts) =
      contents bound (.object (Ordered.put k.text value fields)) rest :=
  contents_entry hkey (List.forall_mem_singleton.2 rfl : AreDividers [colonSymbol]) hdivider h

theorem contents_field {key : Key} {w : Written} {spaced : Bool} {ps : List Part} {bound : Nat}
    {before : List (Text × Value)} {rest : List Symbol}
    (hbound : (symbolsAll spaced (field key.part w.part ++ ps) ++ rest).length ≤ bound + 1)
    (hends : Ends (symbolsAll false ps ++ rest)) (hnew : key.name ∉ before.map Prod.fst) :
    contents (bound + 1) (.object before)
        (symbolsAll spaced (field key.part w.part ++ ps) ++ rest) =
      contents bound (.object (before ++ [(key.name, w.value true)]))
        (symbolsAll false ps ++ rest) ∧
    (symbolsAll false ps ++ rest).length ≤ bound := by
  obtain ⟨kind, hkind, hfield⟩ := symbolsAll_field key w spaced ps
  obtain ⟨t, ts, hsymbols, hdivider, -, hreads⟩ := w.readsAs.reads true
  rw [hfield, hsymbols] at hbound ⊢
  simp only [List.cons_append, List.append_assoc, List.length_cons] at hbound ⊢
  have hread := hreads bound (some key.name) (by omega) hends
  have hkey : IsKey ⟨kind, key.name, spaced⟩ := hkind
  refine ⟨?_, ?_⟩
  · rw [contents_object_cons hkey hdivider hread, Ordered.put_of_notMem hnew]
  · simp only [List.length_append] at hbound ⊢
    omega

theorem contents_fields {fields : List (Key × Written)} {before : List (Text × Value)} {bound : Nat}
    {rest : List Symbol}
    (hnodup : (before.map Prod.fst ++ fields.map fun f => f.1.name).Nodup)
    (hbound : (symbolsAll false (fieldsAfter fields ++ [gap]) ++
      Symbol.bracket '\x7d' false :: rest).length ≤ bound) :
    contents bound (.object before) (symbolsAll false (fieldsAfter fields ++ [gap]) ++
      Symbol.bracket '\x7d' false :: rest) = .ok (.object (before ++ fieldsOf fields), rest) := by
  -- Induction on the fields.
  induction fields generalizing before bound with
  | nil =>
    cases bound with
    | zero => cases hbound
    | succ bound =>
      rw [fieldsOf, List.map_nil, List.append_nil]
      exact contents_object_close rfl
  | cons f fields ih =>
    have hsymbols : symbolsAll false (fieldsAfter (f :: fields) ++ [gap]) =
        commaSymbol :: symbolsAll true
          (field f.1.part f.2.part ++ (fieldsAfter fields ++ [gap])) := by
      rw [fieldsAfter, List.flatMap_cons, List.append_assoc]
      rfl
    rw [List.map_cons] at hnodup
    rw [hsymbols, List.cons_append, contents_divider rfl]
    rw [hsymbols, List.cons_append, List.length_cons] at hbound
    -- The name is new among the fields so far, so the field comes behind them.
    have hnew : f.1.name ∉ before.map Prod.fst := fun hmem =>
      (List.nodup_append.1 hnodup).2.2 _ hmem _ List.mem_cons_self rfl
    cases bound with
    | zero => cases hbound
    | succ bound =>
      obtain ⟨hfield, hrest⟩ :=
        contents_field (Nat.le_of_succ_le hbound) (ends_fields fields rest) hnew
      rw [hfield, ih _ hrest]
      · simp [fieldsOf]
      · simpa using hnodup

def objectPart (fields : List (Key × Written)) : Part :=
  ofFields (fields.map fun f => (f.1.part, f.2.part))

/-- What stands between the brackets of an object. -/
def objectContent (fields : List (Key × Written)) : List Part :=
  gap :: (listed ((fields.map fun f => (f.1.part, f.2.part)).map fun f => field f.1 f.2) ++ [gap])

theorem symbols_objectPart (fields : List (Key × Written)) (spaced : Bool) :
    (objectPart fields).symbols spaced = Symbol.bracket '\x7b' spaced ::
      (symbolsAll false (objectContent fields) ++ [Symbol.bracket '\x7d' false]) := rfl

/-- **An object is read as its fields**, if it has a field and their names are different. -/
theorem contents_objectContent {fields : List (Key × Written)} (hne : fields ≠ [])
    (hnodup : (fields.map fun f => f.1.name).Nodup) {bound : Nat} {rest : List Symbol}
    (hbound : (symbolsAll false (objectContent fields) ++
      Symbol.bracket '\x7d' false :: rest).length ≤ bound) :
    contents bound (.object []) (symbolsAll false (objectContent fields) ++
      Symbol.bracket '\x7d' false :: rest) = .ok (.object (fieldsOf fields), rest) := by
  obtain ⟨f, fields, rfl⟩ := List.exists_cons_of_ne_nil hne
  have hcontent : symbolsAll false (objectContent (f :: fields)) =
      symbolsAll true (field f.1.part f.2.part ++ (fieldsAfter fields ++ [gap])) := by
    rw [← List.append_assoc, objectContent, List.map_map, List.map_cons, listed, List.flatMap_map]
    rfl
  rw [hcontent] at hbound ⊢
  have hfirst : f.1.name ∉ ([] : List (Text × Value)).map Prod.fst := List.not_mem_nil
  cases bound with
  | zero => simp at hbound
  | succ bound =>
    obtain ⟨hfield, hrest⟩ := contents_field hbound (ends_fields fields rest) hfirst
    rw [hfield, contents_fields _ hrest]
    · rfl
    · exact hnodup

theorem readsAs_objectPart {fields : List (Key × Written)} (hne : fields ≠ [])
    (hnodup : (fields.map fun f => f.1.name).Nodup) :
    ReadsAs (objectPart fields) fun _ => .object (fieldsOf fields) where
  solid := trivial
  reads spaced := by
    refine ⟨_, _, symbols_objectPart fields spaced, nofun, rfl, fun bound _ {rest} hbound _ => ?_⟩
    show contents bound (.object []) _ = _
    rw [List.append_assoc] at hbound ⊢
    exact contents_objectContent hne hnodup hbound

/-! ## What is written -/

namespace Written

/-- A word. -/
def ofWord (name : Text) (h : IsName name) : Written :=
  ⟨Part.ofWord name, _, item_ofWord h, readsAs_ofWord name⟩

/-- A text between double quotes. -/
def ofString (t : Text) (h : IsPlain t) : Written :=
  ⟨Part.ofString t, _, item_ofString h, readsAs_ofString t⟩

def ofInt (n : Int) (h : Numeral.IsShort n) : Written :=
  ⟨Part.ofInt n, _, item_ofInt h, readsAs_ofInt n⟩

def ofList (items : List Written) (hne : items ≠ []) : Written where
  part := Part.ofList (items.map Written.part)
  value _ := .list (valuesOf items)
  item := item_ofList (by simpa using hne) fun p hp => by
    obtain ⟨w, -, rfl⟩ := List.mem_map.1 hp
    exact w.item
  readsAs := readsAs_ofList hne

def ofFields (fields : List (Key × Written)) (hne : fields ≠ [])
    (hnodup : (fields.map fun f => f.1.name).Nodup) : Written where
  part := objectPart fields
  value _ := .object (fieldsOf fields)
  item := item_ofFields (by simpa using hne) fun f hf => by
    obtain ⟨f, -, rfl⟩ := List.mem_map.1 hf
    exact ⟨f.1.item, f.2.item⟩
  readsAs := readsAs_objectPart hne hnodup

@[simp] theorem part_ofWord (name : Text) (h : IsName name) :
    (ofWord name h).part = Part.ofWord name := rfl

@[simp] theorem part_ofString (t : Text) (h : IsPlain t) :
    (ofString t h).part = Part.ofString t := rfl

@[simp] theorem part_ofInt (n : Int) (h : Numeral.IsShort n) :
    (ofInt n h).part = Part.ofInt n := rfl

@[simp] theorem part_ofList (items : List Written) (hne : items ≠ []) :
    (ofList items hne).part = Part.ofList (items.map Written.part) := rfl

@[simp] theorem part_ofFields (fields : List (Key × Written)) (hne : fields ≠ [])
    (hnodup : (fields.map fun f => f.1.name).Nodup) :
    (ofFields fields hne hnodup).part = objectPart fields := rfl

end Written

namespace Key

/-- A word as a key. -/
def ofWord (name : Text) (h : IsName name) : Key :=
  ⟨Part.ofWord name, name, item_ofWord h, rfl, fun _ => ⟨.word, .inl rfl, rfl⟩⟩

/-- A text between double quotes as a key. -/
def ofString (t : Text) (h : IsPlain t) : Key :=
  ⟨Part.ofString t, t, item_ofString h, rfl, fun _ => ⟨.string, .inr rfl, rfl⟩⟩

@[simp] theorem part_ofWord (name : Text) (h : IsName name) :
    (ofWord name h).part = Part.ofWord name := rfl

@[simp] theorem part_ofString (t : Text) (h : IsPlain t) :
    (ofString t h).part = Part.ofString t := rfl

@[simp] theorem name_ofWord (name : Text) (h : IsName name) : (ofWord name h).name = name := rfl

end Key

/-! ## Calls -/

/-- A call with an object. -/
def callPart (name : Text) (fields : List (Key × Written)) : Part :=
  .function (name ++ "(") name [objectPart fields]

theorem readCall_callPart {name : Text} {fields : List (Key × Written)} (hne : fields ≠ [])
    (hnodup : (fields.map fun f => f.1.name).Nodup) :
    readCall name ((callPart name fields).symbols false) = .ok (fieldsOf fields) := by
  have hcontents := contents_objectContent hne hnodup (Nat.le_refl
    (symbolsAll false (objectContent fields) ++
      Symbol.bracket '\x7d' false :: [Symbol.bracket ')' false]).length)
  have hsymbols : (callPart name fields).symbols false = ⟨.function, name, false⟩ ::
      Symbol.bracket '\x7b' false :: (symbolsAll false (objectContent fields) ++
        Symbol.bracket '\x7d' false :: [Symbol.bracket ')' false]) := by
    show _ :: ((objectPart fields).symbols false ++ []) ++ _ = _
    rw [symbols_objectPart]
    simp [Bracket.closeChar]
  have hargument : readArgument (Symbol.bracket '\x7b' false ::
      (symbolsAll false (objectContent fields) ++
        Symbol.bracket '\x7d' false :: [Symbol.bracket ')' false])) = .ok (fieldsOf fields) := by
    show (contents _ (.object []) _ >>= _) = _
    rw [hcontents]
    rfl
  rw [hsymbols]
  simp only [readCall, and_self, if_true]
  exact hargument

theorem text_callPart (name : Text) (fields : List (Key × Written)) :
    (callPart name fields).text = name ++ "(" ++
      objectText (fields.map fun f => fieldText f.1.part.text f.2.part.text) ++ ")" := by
  rw [callPart, text_function, textAll_cons, textAll_nil, List.append_nil, objectPart,
    text_ofFields, List.map_map]
  rfl

theorem item_callPart {name : Text} (hname : IsName name)
    (hurl : name.map CodePoint.toLower ≠ "url") {fields : List (Key × Written)}
    (hne : fields ≠ []) :
    Part.Item [callPart name fields] := by
  have hobject : Part.Item [objectPart fields] := item_ofFields (by simpa using hne) fun f hf => by
    obtain ⟨f, -, rfl⟩ := List.mem_map.1 hf
    exact ⟨f.1.item, f.2.item⟩
  refine ⟨⟨_, _, rfl, trivial⟩, ?_, ?_, fun after _ => ?_⟩
  · intro p hp
    simp only [callPart, piecesAll_cons, piecesAll_nil, List.append_nil, pieces, List.mem_cons,
      List.mem_append, List.not_mem_nil, or_false] at hp
    rcases hp with rfl | hp | rfl
    · rfl
    · exact hobject.short p (by simpa using hp)
    · rfl
  · rw [textAll_cons, textAll_nil, List.append_nil, callPart, text_function]
    exact normal_append.2 ⟨normal_append.2
      ⟨normal_append.2 ⟨normal_of_isPart hname.isPart, by decide⟩, hobject.normal⟩, by decide⟩
  · exact spelled_function (fun v => Piece.readsIn_function hname hurl v)
      (hobject.spelled _ (bounded_cons (by decide) _))

/-- **A call that is written is read as its fields.** -/
theorem readDirective_callPart {name : Text} (hname : IsName name)
    (hurl : name.map CodePoint.toLower ≠ "url") {fields : List (Key × Written)} (hne : fields ≠ [])
    (hnodup : (fields.map fun f => f.1.name).Nodup) :
    readDirective name (callPart name fields).text = .ok (fieldsOf fields) := by
  have hitem := item_callPart hname hurl hne
  have htext : textAll [callPart name fields] = (callPart name fields).text := by simp
  have hsymbols := ofText_eq_symbolsAll hitem.sound (hitem.spelled [] bounded_nil)
  rw [htext, symbolsAll_cons (p := callPart name fields) trivial] at hsymbols
  rw [readDirective, hsymbols]
  show readCall name ((callPart name fields).symbols false ++ []) = _
  rw [List.append_nil, readCall_callPart hne hnodup]

end FluidCss.Param.Value
