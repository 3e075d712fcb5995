import UnitGraph.Text.Search

/-!
# Type classes

A coarse class of a type, read off the way it is spelled: brackets make an array, parentheses a function,
and otherwise the words `int` and `float` decide.
-/
namespace UnitGraph

inductive TypeClass where
  | array
  | function
  | integer
  | floating
  | other
  deriving DecidableEq, Repr

namespace TypeClass

def name : TypeClass → String
  | array => "arrayType"
  | function => "fnType"
  | integer => "intType"
  | floating => "floatType"
  | other => "type"

/-- The class of a spelling; the first rule that applies decides. -/
def ofSpelling (spelling : String) : TypeClass :=
  let cs := spelling.toList
  if '[' ∈ cs ∨ ']' ∈ cs then array
  else if '(' ∈ cs ∨ ')' ∈ cs then function
  else if Text.occursIn "int" spelling then integer
  else if Text.occursIn "float" spelling then floating
  else other

end TypeClass

end UnitGraph
