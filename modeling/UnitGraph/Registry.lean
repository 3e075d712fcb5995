/-!
# Registries

A registry assigns a value to each key on its first registration and keeps the keys in the order of that
first encounter. Later registrations of a key do not change anything, so the number of a key is stable.
-/
namespace UnitGraph

/-- Keys with their values in order of first registration; no key occurs twice. -/
structure Registry (κ ν : Type) where
  entries : List (κ × ν)
  distinct : (entries.map (·.1)).Nodup := by exact List.nodup_nil

namespace Registry

variable {κ ν : Type} [DecidableEq κ]

def empty : Registry κ ν := { entries := [] }

def keys (r : Registry κ ν) : List κ := r.entries.map (·.1)

def values (r : Registry κ ν) : List ν := r.entries.map (·.2)

def size (r : Registry κ ν) : Nat := r.entries.length

def get? (r : Registry κ ν) (k : κ) : Option ν := (r.entries.find? (·.1 = k)).map (·.2)

/-- How many keys were registered before this one. -/
def ordinal? (r : Registry κ ν) (k : κ) : Option Nat := r.entries.findIdx? (·.1 = k)

theorem get?_eq_none_iff {r : Registry κ ν} {k : κ} : r.get? k = none ↔ k ∉ r.keys := by
  simp only [get?, keys, Option.map_eq_none_iff, List.find?_eq_none, List.mem_map, not_exists, not_and,
    decide_eq_true_eq]

/-- The key receives the value unless it has one. -/
def insert (r : Registry κ ν) (k : κ) (v : ν) : Registry κ ν :=
  if h : r.get? k = none then
    { entries := r.entries ++ [(k, v)]
      distinct := by
        have h := get?_eq_none_iff.mp h
        simp only [keys] at h
        simp only [List.map_append, List.map_cons, List.map_nil, List.nodup_append, List.mem_singleton]
        refine ⟨r.distinct, by simp, ?_⟩
        rintro a ha b rfl rfl
        exact h ha }
  else r

/-- Registration with the value that the key has from then on. -/
def register (r : Registry κ ν) (k : κ) (v : ν) : ν × Registry κ ν :=
  ((r.get? k).getD v, r.insert k v)

/-- The registry of keys in the order given, each with what `value` makes of its number. -/
def ofKeys (value : Nat → ν) (keys : List κ) : Registry κ ν :=
  keys.foldl (fun r k => r.insert k (value r.size)) empty

theorem insert_of_none {r : Registry κ ν} {k : κ} (h : r.get? k = none) (v : ν) :
    (r.insert k v).entries = r.entries ++ [(k, v)] := by
  simp [insert, h]

theorem insert_of_some {r : Registry κ ν} {k : κ} {w : ν} (h : r.get? k = some w) (v : ν) :
    r.insert k v = r := by
  simp [insert, h]

end Registry

end UnitGraph
