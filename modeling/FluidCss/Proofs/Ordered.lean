import FluidCss.Ordered
import Mathlib.Data.List.Infix
import Mathlib.Data.List.Nodup

/-!
# Dictionaries

What a map in insertion order keeps of the entries that were set, told without the order in which
they were set: every key at its first place, with its last value.

* `Ordered.isDictionary_iff`: this is the map of the entries, and no other one.
-/

namespace FluidCss

/-- The dictionary of entries: a repeated key keeps its first place and takes its last value. -/
structure IsDictionary {κ ν : Type} [DecidableEq κ] (entries fields : List (κ × ν)) : Prop where
  keys : fields.map Prod.fst = (entries.map Prod.fst).eraseDups
  last : ∀ key, Ordered.get? key fields = Ordered.get? key entries.reverse

namespace Ordered

variable {κ ν : Type} [DecidableEq κ]

/-- Different keys in the same order with the same values make the same map. -/
theorem eq_of_get?_eq {m n : List (κ × ν)} (hm : (m.map Prod.fst).Nodup)
    (hkeys : m.map Prod.fst = n.map Prod.fst) (h : ∀ key, get? key m = get? key n) : m = n := by
  induction m generalizing n with
  | nil => exact (List.map_eq_nil_iff.1 hkeys.symm).symm
  | cons e m ih =>
    cases n with
    | nil => cases hkeys
    | cons f n =>
      obtain ⟨hkey, htail⟩ := List.cons.inj hkeys
      obtain ⟨hnew, hm⟩ := List.nodup_cons.1 hm
      have hvalue : e.2 = f.2 := by simpa [get?, hkey] using h e.1
      obtain rfl : e = f := Prod.ext hkey hvalue
      refine congrArg _ (ih hm htail fun key => ?_)
      by_cases hne : e.1 = key
      · have hnew' : e.1 ∉ n.map Prod.fst := htail ▸ hnew
        rw [get?_eq_none (hne ▸ hnew), get?_eq_none (hne ▸ hnew')]
      · simpa [get?, hne] using h key

theorem isDictionary_put {entries fields : List (κ × ν)} (h : IsDictionary entries fields)
    (key : κ) (value : ν) : IsDictionary (entries ++ [(key, value)]) (put key value fields) where
  keys := by
    rw [keys_put, List.map_append, List.eraseDups_append, h.keys]
    by_cases hmem : key ∈ entries.map Prod.fst
    · simp [hmem, List.removeAll]
    · simp [hmem, List.removeAll, List.eraseDups_cons]
  last other := by
    rw [List.reverse_append, List.reverse_singleton, List.singleton_append]
    by_cases hne : other = key
    · subst hne
      simp [get?]
    · rw [get?_put_of_ne hne, h.last]
      simp [get?, Ne.symm hne]

theorem ofList_append_singleton (entries : List (κ × ν)) (e : κ × ν) :
    ofList (entries ++ [e]) = put e.1 e.2 (ofList entries) := by
  simp [ofList, List.foldl_append]

theorem isDictionary_ofList (entries : List (κ × ν)) : IsDictionary entries (ofList entries) := by
  induction entries using List.reverseRecOn with
  | nil => exact ⟨rfl, fun _ => rfl⟩
  | append_singleton entries e ih =>
    exact ofList_append_singleton entries e ▸ isDictionary_put ih e.1 e.2

theorem nodup_keys_ofList (entries : List (κ × ν)) : ((ofList entries).map Prod.fst).Nodup := by
  induction entries using List.reverseRecOn with
  | nil => exact List.nodup_nil
  | append_singleton entries e ih => exact ofList_append_singleton entries e ▸ nodup_keys_put ih

theorem isDictionary_iff {entries fields : List (κ × ν)} :
    IsDictionary entries fields ↔ fields = ofList entries := by
  refine ⟨fun h => ?_, fun h => h ▸ isDictionary_ofList entries⟩
  have hlist := isDictionary_ofList entries
  exact (eq_of_get?_eq (nodup_keys_ofList entries) (hlist.keys.trans h.keys.symm) fun key =>
    (hlist.last key).trans (h.last key).symm).symm

/-- One more entry changes the value of no other key. -/
theorem get?_ofList_insert (entries others : List (κ × ν)) {key other : κ} (value : ν)
    (h : key ≠ other) : get? other (ofList (entries ++ (key, value) :: others)) =
      get? other (ofList (entries ++ others)) := by
  rw [(isDictionary_ofList _).last, (isDictionary_ofList _).last]
  simp only [List.reverse_append, List.reverse_cons, get?_append, get?, h, if_false, Option.or_none]

end Ordered

namespace IsDictionary

variable {κ ν : Type} [DecidableEq κ] {entries fields : List (κ × ν)}

theorem nodup_keys (h : IsDictionary entries fields) : (fields.map Prod.fst).Nodup := by
  rw [Ordered.isDictionary_iff.1 h]
  exact Ordered.nodup_keys_ofList entries

theorem mem (h : IsDictionary entries fields) {e : κ × ν} (he : e ∈ fields) : e ∈ entries := by
  have hlast := h.last e.1
  rw [Ordered.get?_of_mem h.nodup_keys he] at hlast
  exact List.mem_reverse.1 (Ordered.mem_of_get? hlast.symm)

end IsDictionary

end FluidCss
