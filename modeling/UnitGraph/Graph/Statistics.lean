import UnitGraph.Graph.Subtree
import UnitGraph.Tally
import UnitGraph.Text.Search

/-!
# Statistics of statements

Rendering of the tokens of a subtree, counts of statement classes, and nesting depth.
-/
namespace UnitGraph

def Token.before (s t : Token) : Bool := s.index ≤ t.index

/-- The spellings of tokens in stream order, separated by spaces; pragma tokens are left out. -/
def Token.render (tokens : List Token) : String :=
  Token.spellings ((tokens.filter (!·.isPragma)).mergeSort Token.before)

namespace Statistics

/-- A statement is counted if its class contains one of these. -/
def countedFragments : List String := ["Stmt", "Expr", "Operator", "Literal"]

/-- Operators that are counted once more together with their own tokens. -/
def refinedClasses : List String := ["BinaryOperator", "UnaryOperator"]

def isCounted (className : String) : Bool :=
  countedFragments.any fun fragment => Text.occursIn fragment className

/-- An operator with the kinds of its own tokens, as in `BinaryOperator_plus`. -/
def refinedName (n : StmtNode) : String :=
  n.name ++ "_" ++ String.intercalate "_" (n.tokens.map (·.kind))

def countedNames (n : StmtNode) : List String :=
  if isCounted n.name then
    n.name :: if n.name ∈ refinedClasses then [refinedName n] else []
  else []

end Statistics

namespace Arena

variable (a : Arena)

/-- How often each name is counted in a subtree, in order of first occurrence. -/
def statementCounts (root : NodeId) : List (String × Nat) :=
  tally ((a.subtree root).flatMap fun id => ((a.stmt? id).map Statistics.countedNames).getD [])

/-- The greatest number of statements of a class on one way down, down to a depth. -/
def nestingWithin (className : String) : Nat → NodeId → Nat
  | 0, _ => 0
  | depth + 1, id =>
      match a.stmt? id with
      | none => 0
      | some n =>
          (if n.name = className then 1 else 0) +
            (n.children.map (nestingWithin className depth)).foldr max 0

/-- The greatest number of statements of a class on one way down from a node. -/
def nestingDepth (className : String) (root : NodeId) : Nat := a.nestingWithin className a.size root

end Arena

end UnitGraph
