/-!
# Source ranges

A location is the byte offset at which a token starts. A range is given by the locations of its first
and its last token, so it covers every token whose location lies between the two, ends included.
-/
namespace UnitGraph

/-- An inclusive range of token locations; the end may lie before the beginning. -/
structure SourceRange where
  first : Nat
  last : Nat
  deriving DecidableEq, Repr, Inhabited

namespace SourceRange

def single (l : Nat) : SourceRange := ⟨l, l⟩

/-- A location belongs to a range if it lies between the two ends. -/
def Covers (r : SourceRange) (l : Nat) : Prop := r.first ≤ l ∧ l ≤ r.last

instance : Membership Nat SourceRange := ⟨Covers⟩

theorem mem_iff {r : SourceRange} {l : Nat} : l ∈ r ↔ r.first ≤ l ∧ l ≤ r.last := Iff.rfl

instance (r : SourceRange) (l : Nat) : Decidable (l ∈ r) :=
  inferInstanceAs (Decidable (r.first ≤ l ∧ l ≤ r.last))

/-- A range is inverted if it ends before it begins; it then covers nothing. -/
def Inverted (r : SourceRange) : Prop := r.last < r.first

instance (r : SourceRange) : Decidable r.Inverted := inferInstanceAs (Decidable (r.last < r.first))

theorem not_mem_of_inverted {r : SourceRange} (h : r.Inverted) (l : Nat) : l ∉ r := by
  intro hl
  have := mem_iff.mp hl
  simp only [Inverted] at h
  omega

theorem mem_single {l m : Nat} : m ∈ single l ↔ m = l := by
  simp only [mem_iff, single]
  omega

instance : ToString SourceRange := ⟨fun r => s!"{r.first}..={r.last}"⟩

end SourceRange

end UnitGraph
