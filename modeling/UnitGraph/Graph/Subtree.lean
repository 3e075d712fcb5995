import UnitGraph.Graph.Arena

/-!
# Subtrees of statements

Below a statement lie its children and the declarations it makes, and so on; what it only reads does not
belong to it. `preorder` lists a subtree by recursion, down to a given depth. `subtree` lists it with a
stack of pending nodes. On an arena without cycles the two agree.
-/
namespace UnitGraph.Arena

variable (a : Arena)

/-- The nodes directly below a node: a statement's children, none for any other node. -/
def below (id : NodeId) : List NodeId := ((a.stmt? id).map (·.children)).getD []

/-- A node and everything below it, each node before what is below it, down to a depth. -/
def preorder : Nat → NodeId → List NodeId
  | 0, id => [id]
  | depth + 1, id => id :: (a.below id).flatMap (preorder depth)

/-- How many downward paths start at a node, down to a depth. -/
def pathCount : Nat → NodeId → Nat
  | 0, _ => 1
  | depth + 1, id => 1 + ((a.below id).map (pathCount depth)).foldr Nat.add 0

/-- Takes nodes from a stack, at most the given number of them; whatever is below a node goes on top of
the stack. -/
def unstack : Nat → List NodeId → List NodeId
  | 0, _ => []
  | _ + 1, [] => []
  | steps + 1, id :: pending => id :: unstack steps (a.below id ++ pending)

/-- A node and everything below it; as many nodes as there are paths down from it. No path without
repetition is longer than the arena. -/
def subtree (root : NodeId) : List NodeId := a.unstack (a.pathCount a.size root) [root]

theorem length_preorder (depth : Nat) (id : NodeId) :
    (a.preorder depth id).length = a.pathCount depth id := by
  induction depth generalizing id with
  | zero => rfl
  | succ depth ih =>
      simp only [preorder, pathCount, List.length_cons, List.length_flatMap]
      rw [Nat.add_comm]
      congr 2
      exact List.map_congr_left fun c _ => ih c

def subtreeTokens (root : NodeId) : List Token := (a.subtree root).flatMap a.tokensOf

end UnitGraph.Arena
