/-!
# Bounded walks along a partial step

A partial function `step` leads from each element to at most one next one. `follow` goes to the end of
such a chain and `findAlong` to the first element that is accepted, both in a bounded number of steps, so
that they stop on cycles as well.
-/
namespace UnitGraph.Chain

variable {α β : Type}

/-- The element reached after at most the given number of steps; it is the end of the chain, or the
bound was met. -/
def follow (step : α → Option α) : Nat → α → α
  | 0, a => a
  | n + 1, a =>
      match step a with
      | some b => follow step n b
      | none => a

/-- What `pick` makes of the first element it accepts, among the given number of elements from `a` on. -/
def findAlong (step : α → Option α) (pick : α → Option β) : Nat → α → Option β
  | 0, _ => none
  | n + 1, a =>
      match pick a with
      | some b => some b
      | none => (step a).bind (findAlong step pick n)

inductive Reaches (step : α → Option α) : α → α → Prop
  | refl (a : α) : Reaches step a a
  | head {a b c : α} : step a = some b → Reaches step b c → Reaches step a c

theorem reaches_follow (step : α → Option α) (n : Nat) (a : α) :
    Reaches step a (follow step n a) := by
  induction n generalizing a with
  | zero => exact .refl a
  | succ n ih =>
      unfold follow
      split
      · exact .head (by assumption) (ih _)
      · exact .refl a

theorem follow_of_end {step : α → Option α} {a : α} (h : step a = none) (n : Nat) :
    follow step n a = a := by
  cases n <;> simp [follow, h]

end UnitGraph.Chain
