import FluidCss.Param.Extract
import FluidCss.Proofs.Param.Parsing

/-!
# Unknown fields

**Theorem (`unknown_entry_ignored`).** An entry with a key that a directive does not know can be
added between the other entries of its object, whatever its value is: the directive means the same,
or fails with the same error.

The value is told by the grammar alone, as a phrase by itself. With something else behind it, it is
still read to its end and no further (`IsValue.append`): only a bare run could go on, and it ends at
the divider. So a row of entries is read one after the other (`AreEntries.append`), and the new
entry is one more in the dictionary. What a directive means depends on the fields that it knows. -/

namespace FluidCss.Param

namespace Value

/-! ## Phrases before others -/

/-- A run that ends before the symbols are over ends there whatever follows them; one that goes on
to the last symbol is ended by what follows. -/
theorem splitRun_append {t : Symbol} {ts run rest more : List Symbol}
    (h : splitRun t ts = (run, rest)) (hends : rest = [] → Ends more) :
    splitRun t (ts ++ more) = (run, rest ++ more) := by
  induction ts generalizing t run with
  -- The run goes to the last symbol, and what follows ends it.
  | nil =>
    obtain ⟨rfl, rfl⟩ := Prod.mk.inj h
    exact splitRun_of_ends t (hends rfl)
  | cons u ts ih =>
    simp only [splitRun] at h
    simp only [List.cons_append, splitRun]
    split at h
    · rename_i hgoes
      obtain ⟨rfl, hrest⟩ := Prod.mk.inj h
      rw [if_pos hgoes, ih (Prod.ext rfl hrest)]
    · rename_i hstops
      obtain ⟨rfl, rfl⟩ := Prod.mk.inj h
      rw [if_neg hstops]
      rfl

theorem IsLongestRun.append {t : Symbol} {run rest more : List Symbol}
    (h : IsLongestRun t run rest) (hends : rest = [] → Ends more) :
    IsLongestRun t run (rest ++ more) := by
  have hsplit := splitRun_append (splitRun_eq_iff.2 ⟨rfl, h⟩) hends
  exact (splitRun_eq_iff.1 hsplit).2

mutual

/-- **A value ends where it ended before, whatever is put behind the symbols.** If it was all of the
symbols, what is put behind them has to end a bare run. -/
theorem IsValue.append {ts rest : List Symbol} {v : Value} (more : List Symbol)
    (hends : rest = [] → Ends more) : IsValue ts v rest → IsValue (ts ++ more) v (rest ++ more)
  -- Induction on how the grammar has it.
  | .object hopen hentries hfields => .object hopen (hentries.append more) hfields
  | .list hopen hitems => .list hopen (hitems.append more)
  | .string hkind => .string hkind
  | .call hkind hbalanced => by
    rw [List.cons_append, List.append_assoc]
    exact .call hkind hbalanced
  | .single hstart hrun => .single hstart (hrun.append hends)
  | .run hstart hrun => by
    rw [List.cons_append, List.append_assoc]
    exact .run hstart (hrun.append hends)

theorem IsItems.append {ts rest : List Symbol} {vs : List Value} (more : List Symbol) :
    IsItems ts vs rest → IsItems (ts ++ more) vs (rest ++ more)
  | .close hds hclose => by
    rw [List.append_assoc]
    exact .close hds hclose
  | .item hds hvalue hitems => by
    -- There is a closing bracket to come, so that the value is not all of the symbols.
    have hlength := hitems.length_lt
    have hvalue := hvalue.append more fun hnil => by simp [hnil] at hlength
    rw [List.append_assoc]
    exact .item hds hvalue (hitems.append more)

theorem IsEntries.append {ts rest : List Symbol} {entries : List (Text × Value)}
    (more : List Symbol) :
    IsEntries ts entries rest → IsEntries (ts ++ more) entries (rest ++ more)
  | .close hds hclose => by
    rw [List.append_assoc]
    exact .close hds hclose
  | .entry (k := k) hds hkey hes hvalue hentries => by
    have hlength := hentries.length_lt
    have hvalue := hvalue.append more fun hnil => by simp [hnil] at hlength
    rw [List.append_assoc, List.cons_append, List.append_assoc]
    exact .entry hds hkey hes hvalue (hentries.append more)

end

/-! ## Rows of entries -/

/-- The symbols are complete entries, each ended by a divider; more dividers may stand between them.
-/
inductive AreEntries : List Symbol → List (Text × Value) → Prop where
  | nil {ds : List Symbol} (hds : AreDividers ds) : AreEntries ds []
  | cons {ds es vs ts : List Symbol} {k d : Symbol} {v : Value} {entries : List (Text × Value)}
    (hds : AreDividers ds) (hkey : IsKey k) (hes : AreDividers es) (hvalue : IsValue vs v [])
    (hend : d.kind = .divider) (htail : AreEntries ts entries) :
    AreEntries (ds ++ k :: (es ++ (vs ++ d :: ts))) ((k.text, v) :: entries)

theorem AreDividers.append {ds es : List Symbol} (hds : AreDividers ds) (hes : AreDividers es) :
    AreDividers (ds ++ es) := List.forall_mem_append.2 ⟨hds, hes⟩

theorem IsEntries.dividers {ds ts rest : List Symbol} {entries : List (Text × Value)}
    (hds : AreDividers ds) (h : IsEntries ts entries rest) : IsEntries (ds ++ ts) entries rest := by
  cases h with
  | close hds' hclose =>
    rw [← List.append_assoc]
    exact .close (hds.append hds') hclose
  | entry hds' hkey hes hvalue hentries =>
    rw [← List.append_assoc]
    exact .entry (hds.append hds') hkey hes hvalue hentries

theorem AreEntries.dividers {ds ts : List Symbol} {entries : List (Text × Value)}
    (hds : AreDividers ds) (h : AreEntries ts entries) : AreEntries (ds ++ ts) entries := by
  cases h with
  | nil hds' => exact .nil (hds.append hds')
  | cons hds' hkey hes hvalue hend htail =>
    rw [← List.append_assoc]
    exact .cons (hds.append hds') hkey hes hvalue hend htail

/-- **Entries are read one after the other.** -/
theorem AreEntries.append {ts us rest : List Symbol} {entries others : List (Text × Value)}
    (h : AreEntries ts entries) (hothers : IsEntries us others rest) :
    IsEntries (ts ++ us) (entries ++ others) rest := by
  -- Induction on those that come first.
  induction h with
  | nil hds => exact hothers.dividers hds
  | @cons ds es vs ts k d v entries hds hkey hes hvalue hend _ ih =>
    have hdivider : AreDividers [d] := List.forall_mem_singleton.2 hend
    have hvalue := hvalue.append (d :: (ts ++ us)) fun _ => ends_cons (.inl hend) _
    have htail := ih.dividers hdivider
    simp only [List.append_assoc, List.cons_append]
    exact .entry hds hkey hes hvalue htail

theorem AreEntries.append_row {ts us : List Symbol} {entries others : List (Text × Value)}
    (h : AreEntries ts entries) (hothers : AreEntries us others) :
    AreEntries (ts ++ us) (entries ++ others) := by
  induction h with
  | nil hds => exact hothers.dividers hds
  | cons hds hkey hes hvalue hend _ ih =>
    simp only [List.append_assoc, List.cons_append]
    exact .cons hds hkey hes hvalue hend ih

/-- What stands in a directive around the entries of its object. -/
structure Frame (name : Text) where
  call : Symbol
  opening : Symbol
  closing : Symbol
  dividers : List Symbol
  last : Symbol
  after : List Symbol
  isCall : call.kind = .function ∧ call.text = name
  isOpening : opening.isPunctuation "\x7b"
  isClosing : closing.isPunctuation "\x7d"
  areDividers : AreDividers dividers
  isLast : last.isPunctuation ")"

def Frame.around {name : Text} (frame : Frame name) (inside : List Symbol) : List Symbol :=
  frame.call :: frame.opening ::
    (inside ++ frame.closing :: (frame.dividers ++ frame.last :: frame.after))

/-- **A directive with a row of entries is read as the dictionary of them.** -/
theorem AreEntries.readCall_eq {name : Text} {ts : List Symbol} {entries : List (Text × Value)}
    (h : AreEntries ts entries) (frame : Frame name) :
    readCall name (frame.around ts) = .ok (Ordered.ofList entries) := by
  have hclose : IsEntries (frame.closing :: (frame.dividers ++ frame.last :: frame.after)) []
      (frame.dividers ++ frame.last :: frame.after) :=
    .close (List.forall_mem_nil _ : AreDividers []) frame.isClosing
  have hentries := h.append hclose
  rw [List.append_nil] at hentries
  exact readCall_eq_ok_iff.2 (.object frame.isCall.1 frame.isCall.2
    (.object frame.isOpening hentries (Ordered.isDictionary_ofList entries)) frame.areDividers
    frame.isLast)

end Value

/-! ## Known fields -/

def scaleKeys : List Text := ["pairs", "prefix", "generateAllCrossPairs", "minWidth", "maxWidth"]

def utilityKeys : List Text :=
  ["property", "selector", "attribute", "scale", "generateAllCrossPairs", "lowSpecificity"]

/-- Two objects have the same values for the keys. -/
def Fields.AgreeOn (keys : List Text) (fields fields' : Fields) : Prop :=
  ∀ key ∈ keys, fields.get? key = fields'.get? key

namespace Fields.AgreeOn

variable {keys : List Text} {fields fields' : Fields}

theorem text?_eq (h : AgreeOn keys fields fields') (key : Text) (hkey : key ∈ keys) :
    fields.text? key = fields'.text? key := by
  unfold Fields.text?
  rw [h key hkey]

theorem flag?_eq (h : AgreeOn keys fields fields') (key : Text) (hkey : key ∈ keys) :
    fields.flag? key = fields'.flag? key := by
  unfold Fields.flag?
  rw [h.text?_eq key hkey]

theorem width_eq (h : AgreeOn keys fields fields') (key : Text) (hkey : key ∈ keys)
    (default : Number) : fields.width key default = fields'.width key default := by
  unfold Fields.width
  rw [h.text?_eq key hkey]

/-- **A scale depends on the fields that it knows.** -/
theorem scaleOf_eq (h : AgreeOn scaleKeys fields fields') (settings : Settings) :
    scaleOf fields settings = scaleOf fields' settings := by
  unfold scaleOf
  rw [h "pairs" (by simp [scaleKeys]), h.text?_eq "prefix" (by simp [scaleKeys]),
    h.flag?_eq "generateAllCrossPairs" (by simp [scaleKeys]),
    h.width_eq "minWidth" (by simp [scaleKeys]),
    h.width_eq "maxWidth" (by simp [scaleKeys])]

/-- **A utility depends on the fields that it knows.** -/
theorem utilityOf_eq (h : AgreeOn utilityKeys fields fields') :
    utilityOf fields = utilityOf fields' := by
  unfold utilityOf propertyOf
  rw [h "property" (by simp [utilityKeys]), h.text?_eq "property" (by simp [utilityKeys]),
    h.text?_eq "selector" (by simp [utilityKeys]),
    h.text?_eq "attribute" (by simp [utilityKeys]),
    h.text?_eq "scale" (by simp [utilityKeys]),
    h.flag?_eq "generateAllCrossPairs" (by simp [utilityKeys]),
    h.flag?_eq "lowSpecificity" (by simp [utilityKeys])]

end Fields.AgreeOn

namespace Value

/-! ## An entry more -/

/-- An entry with its key, its dividers, its value and the divider that ends it. -/
theorem areEntries_singleton {k d : Symbol} {es vs : List Symbol} {v : Value} (hkey : IsKey k)
    (hes : AreDividers es) (hvalue : IsValue vs v []) (hend : d.kind = .divider) :
    AreEntries (k :: (es ++ (vs ++ [d]))) [(k.text, v)] :=
  .cons (List.forall_mem_nil _ : AreDividers []) hkey hes hvalue hend (.nil (List.forall_mem_nil _))

/-- **An entry that a directive does not know is ignored**, wherever it stands among the entries and
whatever value it has. -/
theorem unknown_entry_ignored {ts us es vs : List Symbol} {as bs : List (Text × Value)}
    {k d : Symbol} {v : Value} (hts : AreEntries ts as) (hus : AreEntries us bs) (hkey : IsKey k)
    (hes : AreDividers es) (hvalue : IsValue vs v []) (hend : d.kind = .divider) :
    (k.text ∉ scaleKeys → ∀ frame : Frame "scale", ∃ fields fields',
      readCall "scale" (frame.around (ts ++ us)) = .ok fields ∧
      readCall "scale" (frame.around (ts ++ (k :: (es ++ (vs ++ [d]))) ++ us)) = .ok fields' ∧
      ∀ settings, scaleOf fields' settings = scaleOf fields settings) ∧
    (k.text ∉ utilityKeys → ∀ frame : Frame "utility", ∃ fields fields',
      readCall "utility" (frame.around (ts ++ us)) = .ok fields ∧
      readCall "utility" (frame.around (ts ++ (k :: (es ++ (vs ++ [d]))) ++ us)) = .ok fields' ∧
      utilityOf fields' = utilityOf fields) := by
  have hless := hts.append_row hus
  have hmore := (hts.append_row (areEntries_singleton hkey hes hvalue hend)).append_row hus
  -- Both rows have the same fields but for the unknown key, and readers look at known keys alone.
  have hagree : ∀ keys, k.text ∉ keys → Fields.AgreeOn keys
      (Ordered.ofList (as ++ [(k.text, v)] ++ bs)) (Ordered.ofList (as ++ bs)) := by
    intro keys hunknown key hknown
    rw [List.append_assoc]
    exact Ordered.get?_ofList_insert as bs v fun heq => hunknown (heq ▸ hknown)
  constructor
  · intro hunknown frame
    exact ⟨_, _, hless.readCall_eq frame, hmore.readCall_eq frame, (hagree _ hunknown).scaleOf_eq⟩
  · intro hunknown frame
    exact ⟨_, _, hless.readCall_eq frame, hmore.readCall_eq frame, (hagree _ hunknown).utilityOf_eq⟩

/-- A word after a space. -/
def word (t : Text) : Symbol := ⟨.word, t, true⟩

/-- An entry with a colon and a comma. -/
def row (key : Text) (value : List Symbol) : List Symbol :=
  word key :: ([colonSymbol] ++ (value ++ [commaSymbol]))

/-- The symbols of `{a: [8, 16]}`. -/
def pairsValue : List Symbol :=
  [.bracket '\x7b' true, word "a", colonSymbol, .bracket '[' true, word "8", commaSymbol, word "16",
    .bracket ']' false, .bracket '\x7d' false]

/-- The symbols of `{of: f(g(1)), at: .b}`. -/
def noteValue : List Symbol :=
  [.bracket '\x7b' true, word "of", colonSymbol, ⟨.function, "f", true⟩, ⟨.function, "g", false⟩,
    word "1", .bracket ')' false, .bracket ')' false, commaSymbol, word "at", colonSymbol,
    ⟨.punctuation, ".", true⟩, ⟨.word, "b", false⟩, .bracket '\x7d' false]

/-- The brackets of a scale around its entries. -/
def scaleFrame : Frame "scale" :=
  ⟨⟨.function, "scale", false⟩, .bracket '\x7b' false, .bracket '\x7d' false, [],
    .bracket ')' false,
    [], ⟨rfl, rfl⟩, rfl, rfl, List.forall_mem_nil _, rfl⟩

theorem unknown_entry_ignored_noteEntry : ∃ as bs v, AreEntries (row "pairs" pairsValue) as ∧
    AreEntries (row "prefix" [word "gap"]) bs ∧ IsValue noteValue v [] ∧
    (word "note").text ∉ scaleKeys ∧
    ∃ fields fields',
      readCall "scale" (scaleFrame.around (row "pairs" pairsValue ++ row "prefix" [word "gap"])) =
        .ok fields ∧
      readCall "scale" (scaleFrame.around
        (row "pairs" pairsValue ++ row "note" noteValue ++ row "prefix" [word "gap"])) =
          .ok fields' ∧
      ∀ settings, scaleOf fields' settings = scaleOf fields settings := by
  have hcolon : AreDividers [colonSymbol] := List.forall_mem_singleton.2 rfl
  -- What the parser reads up to the end of a row is a value of the grammar.
  have hread : ∀ {t : Symbol} {ts : List Symbol} {v : Value} (bound : Nat), t.kind ≠ .divider →
      readWith (contents bound) none t ts = .ok (v, []) → IsValue (t :: ts) v [] :=
    fun bound hdivider h => isValue_of_readWith (isReadAs_of_contents bound) hdivider h
  have hpairs : AreEntries (row "pairs" pairsValue) _ :=
    areEntries_singleton (.inl rfl) hcolon (hread 8 (by decide) rfl) rfl
  have hprefix : AreEntries (row "prefix" [word "gap"]) _ :=
    areEntries_singleton (.inl rfl) hcolon (hread 0 (by decide) rfl) rfl
  have hnote : IsValue noteValue _ [] := hread 13 (by decide) rfl
  have hunknown : (word "note").text ∉ scaleKeys := by decide
  exact ⟨_, _, _, hpairs, hprefix, hnote, hunknown,
    (unknown_entry_ignored hpairs hprefix (.inl rfl) hcolon hnote rfl).1 hunknown scaleFrame⟩

end Value

end FluidCss.Param
