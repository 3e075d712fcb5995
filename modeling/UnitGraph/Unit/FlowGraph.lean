import UnitGraph.Unit.Basic

/-!
# Control flow of one function body

A flow graph lists basic blocks; an edge names its target by position, and a pruned edge names none. A
graph is closed if every edge that names a target names a block of the graph.
-/
namespace UnitGraph

/-- One basic block: its statements in execution order, the terminator, and the outgoing edges. -/
structure FlowBlock where
  label : Nat
  elements : List StmtId
  terminator : Option StmtId
  successors : List (Option Nat)
  deriving DecidableEq, Repr, Inhabited

namespace FlowBlock

def statements (b : FlowBlock) : List StmtId := b.elements ++ b.terminator.toList

/-- The targets of the edges that were not pruned, in order. -/
def targets (b : FlowBlock) : List Nat := b.successors.filterMap id

end FlowBlock

structure FlowGraph where
  blocks : List FlowBlock
  deriving DecidableEq, Repr, Inhabited

/-- Why a function has no usable flow graph: none can be built, it was refused by whoever built it, or
an edge leaves the graph. -/
inductive FlowError where
  | unsupported (reason : String)
  | malformed (reason : String)
  | dangling (block : Nat) (target : Nat) (count : Nat)
  deriving DecidableEq, Repr

def FlowError.message : FlowError → String
  | .unsupported reason => "control-flow graph unsupported: " ++ reason
  | .malformed reason => "malformed control-flow graph: " ++ reason
  | .dangling block target count =>
      s!"malformed control-flow graph: block {block} has successor {target} of {count}"

namespace FlowGraph

/-- Every edge lands on a block of the graph. -/
def Closed (g : FlowGraph) : Prop := ∀ b ∈ g.blocks, ∀ t ∈ b.targets, t < g.blocks.length

instance (g : FlowGraph) : Decidable g.Closed :=
  inferInstanceAs (Decidable (∀ b ∈ g.blocks, ∀ t ∈ b.targets, t < g.blocks.length))

/-- The first edge that leaves the graph, in the order of the blocks and of their edges. -/
def firstDangling? (g : FlowGraph) : Option FlowError :=
  g.blocks.findSome? fun b =>
    (b.targets.find? fun t => g.blocks.length ≤ t).map fun t => .dangling b.label t g.blocks.length

/-- The graph itself if it is closed, else its first dangling edge. -/
def checked (g : FlowGraph) : Except FlowError FlowGraph :=
  match g.firstDangling? with
  | none => .ok g
  | some e => .error e

theorem firstDangling?_eq_none_iff {g : FlowGraph} : g.firstDangling? = none ↔ g.Closed := by
  simp [firstDangling?, Closed, List.findSome?_eq_none_iff, List.find?_eq_none]

end FlowGraph

end UnitGraph
