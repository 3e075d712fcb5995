import UnitGraph.Diagnostic
import UnitGraph.Graph.Node

/-!
# Arenas and code graphs

An arena holds the nodes of one extraction in the order of their creation. A code graph adds the nodes to
start from, the functions and the records of the top level, and the diagnostics of the extraction.
-/
namespace UnitGraph

/-- Nodes in order of creation; a node's identity is its position. -/
structure Arena where
  nodes : Array Node
  deriving DecidableEq, Repr

namespace Arena

def empty : Arena := ⟨#[]⟩

def size (a : Arena) : Nat := a.nodes.size

def get? (a : Arena) (id : NodeId) : Option Node := a.nodes[id.index]?

/-- The node comes last; its identity is the number of nodes before it. -/
def push (a : Arena) (n : Node) : Arena := ⟨a.nodes.push n⟩

/-- The arena with another node at a position; nothing happens outside. -/
def set (a : Arena) (id : NodeId) (n : Node) : Arena := ⟨a.nodes.setIfInBounds id.index n⟩

def ids (a : Arena) : List NodeId := (List.range a.size).map NodeId.mk

def decl? (a : Arena) (id : NodeId) : Option DeclNode := (a.get? id).bind Node.asDecl?
def stmt? (a : Arena) (id : NodeId) : Option StmtNode := (a.get? id).bind Node.asStmt?
def record? (a : Arena) (id : NodeId) : Option RecordNode := (a.get? id).bind Node.asRecord?
def enum? (a : Arena) (id : NodeId) : Option EnumNode := (a.get? id).bind Node.asEnum?
def typedef? (a : Arena) (id : NodeId) : Option TypedefNode := (a.get? id).bind Node.asTypedef?
def block? (a : Arena) (id : NodeId) : Option BlockNode := (a.get? id).bind Node.asBlock?
def function? (a : Arena) (id : NodeId) : Option FunctionNode := (a.get? id).bind Node.asFunction?

def tokensOf (a : Arena) (id : NodeId) : List Token := ((a.get? id).map Node.tokens).getD []

end Arena

structure CodeGraph where
  arena : Arena
  functions : List NodeId
  records : List NodeId
  diagnostics : List Diagnostic
  deriving DecidableEq, Repr

namespace CodeGraph

def functionNodes (g : CodeGraph) : List (NodeId × FunctionNode) :=
  g.functions.filterMap fun id => (g.arena.function? id).map (id, ·)

def recordNodes (g : CodeGraph) : List (NodeId × RecordNode) :=
  g.records.filterMap fun id => (g.arena.record? id).map (id, ·)

def function? (g : CodeGraph) (name : String) : Option NodeId :=
  (g.functionNodes.find? (·.2.name = name)).map (·.1)

def hasErrors (g : CodeGraph) : Bool := g.diagnostics.any (·.isError)

end CodeGraph

end UnitGraph
