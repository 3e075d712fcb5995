import Mathlib.Data.Finset.Card
import UnitGraph.Proofs.Registry

/-!
# Histories of a registry

Keys are registered in any order, also again with another value, and a value may be registered under several
keys. A registration appends its key or changes nothing, so the keys of a registry are the first ones of every
later registry. Main statement: each registration answers with the value of the first one of its key, and a key
is numbered for good by how many keys were registered before it.
-/
namespace UnitGraph.Registry

variable {κ ν : Type} [DecidableEq κ]

/-- The registry after some registrations. -/
def afterCalls (r : Registry κ ν) (calls : List (κ × ν)) : Registry κ ν :=
  calls.foldl (fun r c => (r.register c.1 c.2).2) r

/-- What some registrations answer, each on the registry that the one before it left. -/
def answers : Registry κ ν → List (κ × ν) → List ν
  | _, [] => []
  | r, c :: calls => (r.register c.1 c.2).1 :: answers (r.register c.1 c.2).2 calls

variable {r : Registry κ ν} {k : κ} {v : ν} {i : Nat}

@[simp] theorem afterCalls_cons (r : Registry κ ν) (c : κ × ν) (calls : List (κ × ν)) :
    r.afterCalls (c :: calls) = (r.register c.1 c.2).2.afterCalls calls := rfl

theorem afterCalls_append (r : Registry κ ν) (calls later : List (κ × ν)) :
    r.afterCalls (calls ++ later) = (r.afterCalls calls).afterCalls later := List.foldl_append

section Numbers

omit [DecidableEq κ] in
theorem length_keys (r : Registry κ ν) : r.keys.length = r.size := List.length_map _

theorem keys_register_of_none (h : r.get? k = none) (v : ν) : (r.register k v).2.keys = r.keys ++ [k] := by
  simp [register, keys, insert_of_none h]

/-- A registration renumbers nothing. -/
theorem keys_prefix_register (r : Registry κ ν) (k : κ) (v : ν) : r.keys <+: (r.register k v).2.keys := by
  cases h : r.get? k with
  | none =>
      rw [keys_register_of_none h]
      exact List.prefix_append _ _
  | some w =>
      rw [register, insert_of_some h]

theorem keys_prefix_afterCalls (r : Registry κ ν) (calls : List (κ × ν)) :
    r.keys <+: (r.afterCalls calls).keys := by
  induction calls generalizing r with
  | nil => exact List.prefix_refl _
  | cons c calls ih => exact (r.keys_prefix_register c.1 c.2).trans (ih _)

theorem ordinal?_eq_some_iff : r.ordinal? k = some i ↔ r.keys[i]? = some k := by
  have hKeys : r.ordinal? k = r.keys.findIdx? (decide <| · = k) := by
    rw [keys, List.findIdx?_map]
    rfl
  rw [hKeys, List.findIdx?_eq_some_iff_getElem, List.getElem?_eq_some_iff]
  simp only [decide_eq_true_eq]
  constructor
  · rintro ⟨hi, hk, -⟩
    exact ⟨hi, hk⟩
  · rintro ⟨hi, hk⟩
    refine ⟨hi, hk, fun j hj hSame => ?_⟩
    have hEq : j = i := (List.Nodup.getElem_inj_iff r.distinct).mp (hSame.trans hk.symm)
    omega

theorem ordinal?_eq_none_iff : r.ordinal? k = none ↔ r.get? k = none := by
  rw [get?_eq_none_iff, List.mem_iff_getElem?, Option.eq_none_iff_forall_ne_some]
  simp only [ne_eq, ordinal?_eq_some_iff, not_exists]

theorem ordinal?_afterCalls (h : r.ordinal? k = some i) (calls : List (κ × ν)) :
    (r.afterCalls calls).ordinal? k = some i := by
  obtain ⟨hi, rfl⟩ := List.getElem?_eq_some_iff.mp (ordinal?_eq_some_iff.mp h)
  exact ordinal?_eq_some_iff.mpr (List.prefix_iff_getElem?.mp (r.keys_prefix_afterCalls calls) i hi)

/-- A new key is numbered by how many there are. -/
theorem ordinal?_register_of_none (h : r.get? k = none) (v : ν) :
    (r.register k v).2.ordinal? k = some r.size := by
  rw [ordinal?_eq_some_iff, keys_register_of_none h, ← length_keys]
  exact List.getElem?_concat_length

/-- The values stand in the order of their keys. -/
theorem getElem?_values : r.values[i]? = some v ↔ ∃ k, r.ordinal? k = some i ∧ r.get? k = some v := by
  simp only [ordinal?_eq_some_iff, get?_eq_some_iff, values, keys, List.getElem?_map, Option.map_eq_some_iff]
  constructor
  · rintro ⟨e, he, rfl⟩
    exact ⟨e.1, ⟨e, he, rfl⟩, List.mem_of_getElem? he⟩
  · rintro ⟨_, ⟨e, he, rfl⟩, hMem⟩
    have hEq := List.inj_on_of_nodup_map r.distinct (List.mem_of_getElem? he) hMem rfl
    exact ⟨e, he, congrArg Prod.snd hEq⟩

end Numbers

section Values

theorem fst_register (r : Registry κ ν) (k : κ) (v : ν) : some (r.register k v).1 = (r.get? k).or (some v) := by
  cases h : r.get? k <;> simp [register, h]

theorem get?_register (r : Registry κ ν) (k k' : κ) (v : ν) :
    (r.register k v).2.get? k' = (r.get? k').or (if k' = k then some v else none) := by
  cases h : r.get? k with
  | none =>
      rw [register, get?_insert h]
      by_cases hk : k' = k
      · rw [if_pos hk, if_pos hk, hk, h, Option.none_or]
      · rw [if_neg hk, if_neg hk, Option.or_none]
  | some w =>
      rw [register, insert_of_some h]
      by_cases hk : k' = k
      · rw [hk, h, Option.some_or]
      · rw [if_neg hk, Option.or_none]

/-- A key known before keeps its value, and a new one is given the first that is offered. -/
theorem get?_register_or_lookup (r : Registry κ ν) (k : κ) (c : κ × ν) (calls : List (κ × ν)) :
    ((r.register c.1 c.2).2.get? k).or (calls.lookup k) = (r.get? k).or ((c :: calls).lookup k) := by
  rw [get?_register, Option.or_assoc, List.lookup_cons]
  by_cases hk : k = c.1
  · simp [hk]
  · simp [hk, beq_eq_false_iff_ne.mpr hk]

theorem get?_afterCalls (r : Registry κ ν) (calls : List (κ × ν)) (k : κ) :
    (r.afterCalls calls).get? k = (r.get? k).or (calls.lookup k) := by
  induction calls generalizing r with
  | nil => simp [afterCalls]
  | cons c calls ih => rw [afterCalls_cons, ih, get?_register_or_lookup]

theorem answers_eq (r : Registry κ ν) (calls : List (κ × ν)) :
    (r.answers calls).map some = calls.map fun c => (r.get? c.1).or (calls.lookup c.1) := by
  induction calls generalizing r with
  | nil => rfl
  | cons c calls ih =>
      have hHead : some (r.register c.1 c.2).1 = (r.get? c.1).or ((c :: calls).lookup c.1) := by
        rw [fst_register, List.lookup_cons_self]
      rw [answers, List.map_cons, List.map_cons, ih, hHead]
      simp only [get?_register_or_lookup]

end Values

section FromEmpty
variable {calls : List (κ × ν)}

theorem get?_afterCalls_empty (calls : List (κ × ν)) (k : κ) :
    (empty.afterCalls calls).get? k = calls.lookup k := get?_afterCalls empty calls k

theorem lookup_eq_none_iff_not_mem : calls.lookup k = none ↔ k ∉ calls.map (·.1) := by
  simp only [List.lookup_eq_none_iff, bne_iff_ne, List.mem_map, not_exists, not_and, ne_eq]
  exact forall_congr' fun c => imp_congr_right fun _ => not_congr eq_comm

theorem mem_keys_afterCalls_empty : k ∈ (empty.afterCalls calls).keys ↔ k ∈ calls.map (·.1) := by
  rw [← not_iff_not, ← get?_eq_none_iff, get?_afterCalls_empty, lookup_eq_none_iff_not_mem]

theorem size_afterCalls_empty (calls : List (κ × ν)) :
    (empty.afterCalls calls).size = (calls.map (·.1)).toFinset.card := by
  have hSame : (empty.afterCalls calls).keys.toFinset = (calls.map (·.1)).toFinset := by
    ext k
    rw [List.mem_toFinset, List.mem_toFinset, mem_keys_afterCalls_empty]
  rw [← length_keys, ← hSame]
  exact (List.toFinset_card_of_nodup (empty.afterCalls calls).distinct).symm

theorem ordinal?_of_first {before : List (κ × ν)} (h : k ∉ before.map (·.1)) (v : ν) (after : List (κ × ν)) :
    (empty.afterCalls (before ++ (k, v) :: after)).ordinal? k = some (before.map (·.1)).toFinset.card := by
  have hFresh : (empty.afterCalls before).get? k = none := by
    rw [get?_afterCalls_empty, lookup_eq_none_iff_not_mem]
    exact h
  rw [afterCalls_append, afterCalls_cons, ← size_afterCalls_empty]
  exact ordinal?_afterCalls (ordinal?_register_of_none hFresh v) after

/-- A key that has a number has been registered, and so for a first time. -/
theorem exists_first_of_ordinal? (h : (empty.afterCalls calls).ordinal? k = some i) :
    ∃ before v after, calls = before ++ (k, v) :: after ∧ k ∉ before.map (·.1) := by
  have hKnown : calls.lookup k ≠ none := by
    rw [← get?_afterCalls_empty, ne_eq, ← ordinal?_eq_none_iff, h]
    exact Option.some_ne_none i
  obtain ⟨v, hv⟩ := Option.ne_none_iff_exists'.mp hKnown
  obtain ⟨before, after, rfl, hNew⟩ := List.lookup_eq_some_iff.mp hv
  refine ⟨before, v, after, rfl, fun hk => ?_⟩
  obtain ⟨c, hc, rfl⟩ := List.mem_map.mp hk
  exact bne_iff_ne.mp (hNew c hc) rfl

end FromEmpty

/-- For every sequence of registrations, with keys and values that may repeat. -/
theorem registrations_stable (calls : List (κ × ν)) :
    (empty.answers calls).map some = calls.map (fun c => calls.lookup c.1) ∧
    (∀ k, (empty.afterCalls calls).get? k = calls.lookup k) ∧
    (∀ k i, (empty.afterCalls calls).ordinal? k = some i ↔
      ∃ before v after, calls = before ++ (k, v) :: after ∧ k ∉ before.map (·.1) ∧
        (before.map (·.1)).toFinset.card = i) ∧
    (∀ later k v, (empty.afterCalls calls).get? k = some v →
      (empty.afterCalls (calls ++ later)).get? k = some v) ∧
    (∀ later k i, (empty.afterCalls calls).ordinal? k = some i →
      (empty.afterCalls (calls ++ later)).ordinal? k = some i) ∧
    (∀ i v, (empty.afterCalls calls).values[i]? = some v ↔
      ∃ k, (empty.afterCalls calls).ordinal? k = some i ∧ (empty.afterCalls calls).get? k = some v) ∧
    (empty.afterCalls calls).size = (calls.map (·.1)).toFinset.card ∧
    ∀ k, k ∉ calls.map (·.1) →
      (empty.afterCalls calls).get? k = none ∧ (empty.afterCalls calls).ordinal? k = none := by
  refine ⟨answers_eq empty calls, get?_afterCalls_empty calls, fun k i => ⟨fun h => ?_, fun h => ?_⟩, ?_, ?_,
    fun _ _ => getElem?_values, size_afterCalls_empty calls, fun k hk => ?_⟩
  · obtain ⟨before, v, after, rfl, hNew⟩ := exists_first_of_ordinal? h
    exact ⟨before, v, after, rfl, hNew, Option.some.inj ((ordinal?_of_first hNew v after).symm.trans h)⟩
  · obtain ⟨before, v, after, rfl, hNew, rfl⟩ := h
    exact ordinal?_of_first hNew v after
  · intro later k v h
    rw [get?_afterCalls_empty] at h ⊢
    rw [List.lookup_append, h, Option.some_or]
  · intro later k i h
    rw [afterCalls_append]
    exact ordinal?_afterCalls h later
  · rw [ordinal?_eq_none_iff, and_self, get?_afterCalls_empty, lookup_eq_none_iff_not_mem]
    exact hk

/-- A key that comes again keeps its value and its number; one value may stand under several keys. -/
example : empty.answers [(7, "a"), (3, "b"), (7, "c"), (5, "a")] = ["a", "b", "a", "a"] ∧
    (empty.afterCalls [(7, "a"), (3, "b"), (7, "c"), (5, "a")]).ordinal? 5 = some 2 ∧
    (empty.afterCalls [(7, "a"), (3, "b"), (7, "c"), (5, "a")]).values = ["a", "b", "a"] := by decide

end UnitGraph.Registry
