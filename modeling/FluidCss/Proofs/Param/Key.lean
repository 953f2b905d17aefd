import FluidCss.Param.Extract
import FluidCss.Proofs.Result
import Mathlib.Data.List.Nodup

/-!
# Keys of objects

A key that an object gives twice takes the later value, so the keys of an object that has been read
are different. The pairs of a scale get their names from such keys.

* `Value.contents_keyed`: what is read as an object has different keys, also in its fields.
* `nodup_pairNames`: the pairs of a scale have different names.
-/

namespace FluidCss.Param

namespace Value

def KeysDiffer (fields : List (Text × Value)) : Prop := (fields.map Prod.fst).Nodup

/-- If the value is an object, its keys are different. -/
def Keyed : Value → Prop
  | .object fields => KeysDiffer fields
  | .symbol _ | .list _ => True

/-- The keys are different, and so are those of every field that is an object. -/
structure FieldsKeyed (fields : List (Text × Value)) : Prop where
  keysDiffer : KeysDiffer fields
  keyed : ∀ field ∈ fields, field.2.Keyed

theorem fieldsKeyed_nil : FieldsKeyed [] := ⟨List.nodup_nil, fun _ h => absurd h List.not_mem_nil⟩

theorem FieldsKeyed.put {fields : List (Text × Value)} (h : FieldsKeyed fields) {key : Text}
    {value : Value} (hvalue : value.Keyed) : FieldsKeyed (Ordered.put key value fields) where
  keysDiffer := Ordered.nodup_keys_put h.keysDiffer
  keyed field hfield := by
    rcases Ordered.mem_put hfield with rfl | hfield
    · exact hvalue
    · exact h.keyed field hfield

/-- What a value has when its contents are read on from a part of it. -/
def Unfinished.Reads : Unfinished → Value → Prop
  | .object fields, value => FieldsKeyed fields → FieldsKeyed value.fields ∧ value.Keyed
  | .list _, value => value.Keyed

theorem readWith_keyed {contents : Unfinished → List Symbol → Except Error (Value × List Symbol)}
    (h : ∀ {part ts value rest}, contents part ts = .ok (value, rest) → part.Reads value)
    {key : Option Text} {t : Symbol} {ts rest : List Symbol} {value : Value}
    (hread : readWith contents key t ts = .ok (value, rest)) : value.Keyed := by
  unfold readWith at hread
  -- An object has different keys if what is in its braces has; no other value has keys of its own.
  split at hread
  · exact (h hread fieldsKeyed_nil).2
  split at hread
  · exact h hread
  split at hread
  · obtain ⟨rest', -, hread⟩ := bind_eq_ok.1 hread
    rw [← (Prod.mk.inj (pure_eq_ok.1 hread)).1]
    trivial
  split at hread
  · simp only [Except.ok.injEq, Prod.mk.injEq] at hread
    rw [← hread.1]
    trivial
  split at hread
  · cases hread
  · simp only [Except.ok.injEq, Prod.mk.injEq] at hread
    rw [← hread.1]
    trivial

/-- **Keys are different in all that is read.** -/
theorem contents_keyed :
    ∀ (bound : Nat) {part : Unfinished} {ts rest : List Symbol} {value : Value},
    contents bound part ts = .ok (value, rest) → part.Reads value
  -- Induction on the bound on the turns.
  | 0, part, ts, rest, value, h => by
    unfold contents at h
    split at h
    · rename_i hbound _
      cases hbound
    · cases h
  | bound + 1, part, ts, rest, value, h => by
    have ih : ∀ {part ts value rest}, contents bound part ts = .ok (value, rest) →
        part.Reads value := contents_keyed bound
    unfold contents at h
    split at h
    · rename_i bound' t ts' hbound _
      obtain rfl : bound = bound' := Nat.succ.inj hbound
      cases part with
      | object fields =>
        intro hfields
        simp only at h
        split at h
        · simp only [Except.ok.injEq, Prod.mk.injEq] at h
          rw [← h.1]
          exact ⟨hfields, hfields.keysDiffer⟩
        split at h
        -- A key that comes again keeps its place, so the keys stay different.
        · split at h
          · cases h
          · rename_i u us _
            obtain ⟨read, hread, h⟩ := bind_eq_ok.1 h
            exact ih h (hfields.put (readWith_keyed ih hread))
        · cases h
      | list items =>
        simp only at h
        split at h
        · simp only [Except.ok.injEq, Prod.mk.injEq] at h
          rw [← h.1]
          trivial
        · obtain ⟨read, -, h⟩ := bind_eq_ok.1 h
          exact (ih h : (Unfinished.list (items ++ [read.1])).Reads value)
    · cases h

theorem readArgument_keyed {ts : List Symbol} {fields : List (Text × Value)}
    (h : readArgument ts = .ok fields) : FieldsKeyed fields := by
  obtain ⟨inside, -, h⟩ := bind_eq_ok.1 h
  obtain ⟨read, hread, h⟩ := bind_eq_ok.1 h
  obtain ⟨-, -, h⟩ := bind_eq_ok.1 h
  rw [← pure_eq_ok.1 h]
  exact (contents_keyed _ hread fieldsKeyed_nil).1

theorem readDirective_keyed {name params : Text} {fields : List (Text × Value)}
    (h : readDirective name params = .ok fields) : FieldsKeyed fields := by
  obtain ⟨ts, -, h⟩ := bind_eq_ok.1 h
  unfold readCall at h
  split at h
  · cases h
  split at h
  · split at h
    · split at h
      · exact Except.ok.inj h ▸ fieldsKeyed_nil
      · exact readArgument_keyed h
    · exact readArgument_keyed h
  · cases h

end Value

/-! ## Pairs -/

theorem pair?_name {field : Text × Value} {pair : SizePair} (h : pair? field = some pair) :
    pair.name = field.1 := by
  unfold pair? at h
  split at h
  · rw [← Option.some.inj h]
  · cases h

theorem names_pairs_sublist (fields : Fields) :
    ((fields.filterMap pair?).map SizePair.name).Sublist (fields.map Prod.fst) := by
  induction fields with
  | nil => exact .slnil
  | cons field fields ih =>
    cases h : pair? field with
    | none =>
      rw [List.filterMap_cons_none h]
      exact ih.cons _
    | some pair =>
      rw [List.filterMap_cons_some h, List.map_cons, List.map_cons, pair?_name h]
      exact ih.cons_cons _

/-- **The pairs of a scale have different names.** -/
theorem nodup_pairNames {params : Text} {name : Text} {fields : Fields} {settings : Settings}
    {scale : Scale} (hread : Value.readDirective name params = .ok fields)
    (h : scaleOf fields settings = .ok scale) : (scale.pairs.map SizePair.name).Nodup := by
  have hpairs : scale.pairs = pairsOf (fields.get? "pairs") := by
    unfold scaleOf at h
    by_cases hempty : (pairsOf (fields.get? "pairs")).isEmpty = true
    · simp only [hempty, if_true] at h
      cases h
    · simp only [hempty, Bool.false_eq_true, if_false] at h
      obtain ⟨name, -, h⟩ := bind_eq_ok.1 h
      obtain ⟨crossPairs, -, h⟩ := bind_eq_ok.1 h
      obtain ⟨minWidth, -, h⟩ := bind_eq_ok.1 h
      obtain ⟨maxWidth, -, h⟩ := bind_eq_ok.1 h
      unfold Scale.checked at h
      split at h
      · cases h
      · rw [← Except.ok.inj h]
  rw [hpairs]
  unfold pairsOf
  split
  · rename_i inner hinner
    -- The names are those keys of the field whose values have two sizes.
    have hkeyed := (Value.readDirective_keyed hread).keyed _ (Ordered.mem_of_get? hinner)
    exact (names_pairs_sublist inner).nodup hkeyed
  · exact List.nodup_nil

end FluidCss.Param
