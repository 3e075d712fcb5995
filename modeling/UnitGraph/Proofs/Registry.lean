import Mathlib.Data.List.Induction
import Mathlib.Data.List.Nodup
import UnitGraph.Registry

/-!
# Registries of distinct keys

Distinct keys registered one after another keep their order, and each is numbered by its place among them.
-/
namespace UnitGraph

/-- Looking up a key finds its value where no key occurs twice. -/
theorem lookup_eq_some_iff_mem {κ ν : Type} [DecidableEq κ] {es : List (κ × ν)} (h : (es.map (·.1)).Nodup) {k : κ}
    {v : ν} : es.lookup k = some v ↔ (k, v) ∈ es := by
  rw [List.lookup_eq_some_iff]
  constructor
  · intro hLookup
    obtain ⟨before, after, rfl, -⟩ := hLookup
    exact List.mem_append_right _ List.mem_cons_self
  · intro hMem
    obtain ⟨before, after, rfl⟩ := List.append_of_mem hMem
    refine ⟨before, after, rfl, fun e he => ?_⟩
    rw [List.map_append, List.map_cons, List.nodup_append] at h
    have hNe := h.2.2 e.1 (List.mem_map_of_mem he) k List.mem_cons_self
    exact bne_iff_ne.mpr hNe.symm

namespace Registry

variable {κ ν : Type} [DecidableEq κ]

omit [DecidableEq κ] in
theorem map_fst_mapIdx (value : Nat → ν) (ks : List κ) :
    (ks.mapIdx fun i k => (k, value i)).map (·.1) = ks := by
  refine List.ext_getElem? fun i => ?_
  cases h : ks[i]? <;> simp [h]

theorem entries_ofKeys (value : Nat → ν) {ks : List κ} (h : ks.Nodup) :
    (ofKeys value ks).entries = ks.mapIdx fun i k => (k, value i) := by
  induction ks using List.reverseRecOn with
  | nil => rfl
  | append_singleton ks k ih =>
      obtain ⟨hInit, -, hNew⟩ := List.nodup_append.mp h
      have ih := ih hInit
      have hFresh : (ofKeys value ks).get? k = none := by
        refine get?_eq_none_iff.mpr fun hk => ?_
        rw [keys, ih, map_fst_mapIdx] at hk
        exact hNew k hk k (List.mem_singleton.mpr rfl) rfl
      rw [ofKeys, List.foldl_append, List.foldl_cons, List.foldl_nil, ← ofKeys, insert_of_none hFresh,
        List.mapIdx_append, ih]
      simp [size, ih]

theorem keys_ofKeys (value : Nat → ν) {ks : List κ} (h : ks.Nodup) : (ofKeys value ks).keys = ks := by
  rw [keys, entries_ofKeys value h, map_fst_mapIdx]

theorem get?_eq_some_iff {r : Registry κ ν} {k : κ} {v : ν} : r.get? k = some v ↔ (k, v) ∈ r.entries := by
  rw [get?, Option.map_eq_some_iff]
  constructor
  · intro h
    obtain ⟨⟨k', v'⟩, hFind, rfl⟩ := h
    have hk : k' = k := by simpa using List.find?_some hFind
    subst hk
    exact List.mem_of_find?_eq_some hFind
  · intro h
    refine ⟨(k, v), ?_, rfl⟩
    cases hFind : r.entries.find? (·.1 = k) with
    | none => simpa using List.find?_eq_none.mp hFind _ h
    | some e =>
        have hk : e.1 = k := by simpa using List.find?_some hFind
        have hEq := List.inj_on_of_nodup_map r.distinct (List.mem_of_find?_eq_some hFind) h hk
        rw [hEq]

/-- The value of a key tells its place among the distinct keys registered. -/
theorem get?_ofKeys {value : Nat → ν} {ks : List κ} (h : ks.Nodup) {k : κ} {v : ν} :
    (ofKeys value ks).get? k = some v ↔ ∃ i, ks[i]? = some k ∧ value i = v := by
  rw [get?_eq_some_iff, entries_ofKeys value h]
  constructor
  · intro hm
    obtain ⟨i, hi, hEq⟩ := List.mem_mapIdx.mp hm
    cases hEq
    exact ⟨i, List.getElem?_eq_getElem hi, rfl⟩
  · intro hm
    obtain ⟨i, hi, rfl⟩ := hm
    obtain ⟨hlt, rfl⟩ := List.getElem?_eq_some_iff.mp hi
    exact List.mem_mapIdx.mpr ⟨i, hlt, rfl⟩

theorem get?_insert {r : Registry κ ν} {k : κ} (h : r.get? k = none) (v : ν) (k' : κ) :
    (r.insert k v).get? k' = if k' = k then some v else r.get? k' := by
  rw [get?, insert_of_none h, List.find?_append, Option.map_or]
  by_cases hk : k' = k
  · subst hk
    rw [if_pos rfl, Option.map_eq_none_iff.mpr (Option.map_eq_none_iff.mp h)]
    simp
  · rw [if_neg hk, ← get?]
    simp [Ne.symm hk]

end Registry

end UnitGraph
