/-!
# Documents

The tree that an export writes down: scalars, lists, and records whose fields keep their order.
-/
namespace UnitGraph

inductive Document where
  | null
  | bool (b : Bool)
  | number (n : Nat)
  | text (s : String)
  | list (items : List Document)
  | record (fields : List (String × Document))
  deriving Repr

end UnitGraph
