import UnitGraph.Assembly.Checked
import UnitGraph.Extraction.CodeGraph

/-!
# Assembling a graph in place

A graph under construction: its arena grows, nodes that were created with little more than a name are
completed later, and a registry remembers which entity has which node. Whatever is done to it may fault.
-/
namespace UnitGraph

/-- A graph under construction, with the tokens that are still to be taken. -/
structure Assembly where
  ledger : Ledger
  arena : Arena := .empty
  registry : Registry Entity NodeId := .empty
  functions : List NodeId := []
  records : List NodeId := []
  diagnostics : List Diagnostic := []

abbrev Assembling (α : Type) := StateT Assembly (Except Fault) α

namespace Assembling

def report (d : Diagnostic) : Assembling Unit :=
  modify fun a => { a with diagnostics := a.diagnostics ++ [d] }

/-- A new node, the last of the arena. -/
def allocate (n : Node) : Assembling NodeId :=
  modifyGet fun a => (⟨a.arena.size⟩, { a with arena := a.arena.push n })

/-- Rewrites a node of the arena. -/
def update (id : NodeId) (f : Node → Node) : Assembling Unit := do
  let n ← (Fault.node id.index).unless ((← get).arena.get? id)
  modify fun a => { a with arena := a.arena.set id (f n) }

/-- A node for an entity. It is registered as a draft and completed when the rest has been found out. -/
def build (e : Entity) (draft : Node) (rest : Assembling (Node → Node)) : Assembling NodeId := do
  let id ← allocate draft
  modify fun a => { a with registry := a.registry.insert e id }
  let complete ← rest
  update id complete
  pure id

/-- The node that an entity has, or else what is created for it. -/
def once (e : Entity) (fresh : Assembling NodeId) : Assembling NodeId := do
  match (← get).registry.get? e with
  | some id => pure id
  | none => fresh

/-- The tokens of a range; if it cannot be resolved, there are none and its owner is reported. -/
def claim (r : SourceRange) (access : Access) (owner : String) : Assembling (List Token) := do
  match ← Checked.claim (← get).ledger r access with
  | .ok (tokens, rest) =>
      modify fun a => { a with ledger := rest }
      pure tokens
  | .error e =>
      report (e.diagnostic owner r)
      pure []

end Assembling

end UnitGraph
