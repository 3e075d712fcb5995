/-!
# Tallies

How often each key of a list occurs, with the keys in the order in which they first occur.
-/
namespace UnitGraph

/-- The distinct keys of a list in order of first occurrence, each with the number of its occurrences. -/
def tally {κ : Type} [DecidableEq κ] (keys : List κ) : List (κ × Nat) :=
  keys.eraseDups.map fun k => (k, keys.count k)

theorem mem_tally_iff {κ : Type} [DecidableEq κ] {keys : List κ} {k : κ} {n : Nat} :
    (k, n) ∈ tally keys ↔ k ∈ keys ∧ n = keys.count k := by
  simp only [tally, List.mem_map, List.mem_eraseDups, Prod.mk.injEq]
  constructor
  · rintro ⟨_, h, rfl, rfl⟩
    exact ⟨h, rfl⟩
  · rintro ⟨h, rfl⟩
    exact ⟨k, h, rfl, rfl⟩

end UnitGraph
