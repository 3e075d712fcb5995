import UnitGraph.Graph.Arena
import UnitGraph.Traversal

/-!
# Walking a code graph

A walk presents nodes depth first, each at most once: the node, then its own tokens, then the nodes it
links to.
-/
namespace UnitGraph

open Traversal

/-- A token as the property of a node. -/
structure OwnedToken where
  owner : NodeId
  token : Token
  deriving DecidableEq, Repr

inductive WalkEvent where
  | node (id : NodeId)
  | token (t : OwnedToken)
  deriving DecidableEq, Repr

namespace Arena

def walkAgenda (a : Arena) (id : NodeId) : List (Item NodeId OwnedToken) :=
  match a.get? id with
  | some n => n.tokens.map (fun t => .mark ⟨id, t⟩) ++ n.links.map .visit
  | none => []

def walk (a : Arena) (roots : List NodeId) : List WalkEvent :=
  (traverse a.walkAgenda a.ids (roots.map .visit)).map fun
    | .entered id => .node id
    | .marked t => .token t

end Arena

/-- The walk of a whole graph: from its functions, then from its records. -/
def CodeGraph.walk (g : CodeGraph) : List WalkEvent := g.arena.walk (g.functions ++ g.records)

end UnitGraph
