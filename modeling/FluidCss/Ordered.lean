/-!
# Maps in insertion order

A map is the list of its keys with their values. A new key goes to the end; a key that is there
already keeps its place and takes the new value.
-/

namespace FluidCss.Ordered

variable {κ ν : Type} [DecidableEq κ]

/-- Sets the value of a key. -/
def put (key : κ) (value : ν) : List (κ × ν) → List (κ × ν)
  | [] => [(key, value)]
  | (k, v) :: entries =>
    if k = key then (k, value) :: entries else (k, v) :: put key value entries

def get? (key : κ) : List (κ × ν) → Option ν
  | [] => none
  | (k, v) :: entries => if k = key then some v else get? key entries

/-- The map made by setting the values of a list one after the other. -/
def ofList (entries : List (κ × ν)) : List (κ × ν) :=
  entries.foldl (fun m (k, v) => put k v m) []

/-! ## What a map shows after a key is set -/

@[simp] theorem get?_put_self (key : κ) (value : ν) (m : List (κ × ν)) :
    get? key (put key value m) = some value := by
  induction m with
  | nil => simp [put, get?]
  | cons e m ih =>
    by_cases h : e.1 = key <;> simp [put, get?, h, ih]

theorem get?_put_of_ne {key other : κ} (h : other ≠ key) (value : ν) (m : List (κ × ν)) :
    get? other (put key value m) = get? other m := by
  induction m with
  | nil => simp [put, get?, Ne.symm h]
  | cons e m ih =>
    by_cases hk : e.1 = key
    · subst hk; simp [put, get?, Ne.symm h]
    · simp [put, get?, hk, ih]

/-- The keys stay where they are; a new one comes last. -/
theorem keys_put (key : κ) (value : ν) (m : List (κ × ν)) :
    (put key value m).map Prod.fst =
      if key ∈ m.map Prod.fst then m.map Prod.fst else m.map Prod.fst ++ [key] := by
  induction m with
  | nil => simp [put]
  | cons e m ih =>
    by_cases hk : e.1 = key
    · simp [put, hk]
    · simp only [put, hk, if_false, List.map_cons, ih, List.mem_cons, Ne.symm hk, false_or]
      split <;> simp

theorem put_of_notMem {key : κ} {m : List (κ × ν)} (h : key ∉ m.map Prod.fst) (value : ν) :
    put key value m = m ++ [(key, value)] := by
  induction m with
  | nil => rfl
  | cons e m ih =>
    simp only [List.map_cons, List.mem_cons, not_or] at h
    simp [put, Ne.symm h.1, ih h.2]

theorem nodup_keys_put {key : κ} {value : ν} {m : List (κ × ν)} (h : (m.map Prod.fst).Nodup) :
    ((put key value m).map Prod.fst).Nodup := by
  rw [keys_put]
  split
  · exact h
  · rename_i hkey
    refine List.nodup_append.2 ⟨h, by simp, ?_⟩
    rintro a ha b hb rfl
    exact hkey (List.mem_singleton.1 hb ▸ ha)

theorem mem_put {key : κ} {value : ν} {m : List (κ × ν)} {e : κ × ν} (h : e ∈ put key value m) :
    e = (key, value) ∨ e ∈ m := by
  induction m with
  | nil => exact .inl (List.mem_singleton.1 h)
  | cons f m ih =>
    simp only [put] at h
    split at h
    · rename_i hkey
      rcases List.mem_cons.1 h with rfl | h
      · exact .inl (by rw [← hkey])
      · exact .inr (List.mem_cons_of_mem f h)
    · rcases List.mem_cons.1 h with rfl | h
      · exact .inr List.mem_cons_self
      · exact (ih h).imp_right (List.mem_cons_of_mem f)

theorem mem_of_get? {key : κ} {value : ν} {m : List (κ × ν)} (h : get? key m = some value) :
    (key, value) ∈ m := by
  induction m with
  | nil => cases h
  | cons e m ih =>
    simp only [get?] at h
    split at h
    · rename_i hkey
      rw [← hkey, ← Option.some.inj h]
      exact List.mem_cons_self
    · exact List.mem_cons_of_mem e (ih h)

/-- With different keys every entry counts. -/
theorem get?_of_mem {key : κ} {value : ν} {m : List (κ × ν)} (h : (m.map Prod.fst).Nodup)
    (hmem : (key, value) ∈ m) : get? key m = some value := by
  induction m with
  | nil => cases hmem
  | cons e m ih =>
    obtain ⟨he, hm⟩ := List.nodup_cons.1 h
    rcases List.mem_cons.1 hmem with rfl | hmem
    · simp [get?]
    · have hne : e.1 ≠ key := fun hk => he (hk ▸ List.mem_map_of_mem hmem)
      simp [get?, hne, ih hm hmem]

theorem get?_append (key : κ) (m n : List (κ × ν)) :
    get? key (m ++ n) = (get? key m).or (get? key n) := by
  induction m with
  | nil => rfl
  | cons e m ih =>
    simp only [List.cons_append, get?]
    split
    · rfl
    · exact ih

theorem get?_eq_none {key : κ} {m : List (κ × ν)} (h : key ∉ m.map Prod.fst) :
    get? key m = none := by
  induction m with
  | nil => rfl
  | cons e m ih =>
    simp only [List.map_cons, List.mem_cons, not_or] at h
    simp [get?, Ne.symm h.1, ih h.2]

end FluidCss.Ordered
