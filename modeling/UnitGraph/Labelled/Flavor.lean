/-!
# Edge kinds and flavors

A flavor of a labelled graph says which kinds of edges it has.
-/
namespace UnitGraph

/-- What an edge stands for: syntactic parent and child, a statement and a declaration it reads, a block
and its successor, a statement and its block, a node and a token it owns. -/
inductive EdgeKind where
  | ast
  | data
  | cfg
  | within
  | token
  deriving DecidableEq, Repr

namespace EdgeKind

def name : EdgeKind → String
  | ast => "ast"
  | data => "data"
  | cfg => "cfg"
  | within => "in"
  | token => "token"

def all : List EdgeKind := [ast, data, cfg, within, token]

end EdgeKind

inductive Flavor where
  | ast
  | astData
  | astDataCfg
  | astDataCfgToken
  deriving DecidableEq, Repr

namespace Flavor

def standard : Flavor := astData

/-- The edge kinds of a flavor, in the order in which results list them. -/
def edgeKinds : Flavor → List EdgeKind
  | ast => [.ast]
  | astData => [.ast, .data]
  | astDataCfg => [.ast, .cfg, .within, .data]
  | astDataCfgToken => [.ast, .cfg, .within, .data, .token]

def includes (f : Flavor) (k : EdgeKind) : Bool := k ∈ f.edgeKinds

end Flavor

end UnitGraph
