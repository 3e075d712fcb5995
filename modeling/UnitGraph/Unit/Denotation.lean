import UnitGraph.Chain
import UnitGraph.Unit.Basic

/-!
# What a type denotes

Aliases, elaborations and parentheses are sugar: they name another type without changing it. Looking
through sugar, and where wanted through pointers, leads from a declared type to the record, enumeration or
alias it refers to. Every walk is bounded by the size of the type table, so cyclic types do no harm.
-/
namespace UnitGraph.SourceUnit

structure Signature where
  result : TypeId
  params : List TypeId
  deriving DecidableEq, Repr

def Signature.types (s : Signature) : List TypeId := s.result :: s.params

variable (u : SourceUnit)

/-- One more than the number of types: no chain of distinct types is longer. -/
def stepLimit : Nat := u.typeCount + 1

def underlying? (d : DeclId) : Option TypeId :=
  match u.declKind? d with
  | some (.typedef t) => some t
  | _ => none

/-- One step through sugar; none from a type that is not sugar. -/
def desugar (t : TypeId) : Option TypeId :=
  match u.typeKind? t with
  | some (.typedef d) => u.underlying? d
  | some (.elaborated inner) | some (.paren inner) => some inner
  | _ => none

def canonical (t : TypeId) : TypeId := Chain.follow u.desugar u.stepLimit t

/-- What `pick` makes of the first kind it accepts on the sugar chain of a type. -/
def findInSugar {β : Type} (pick : TypeKind → Option β) (t : TypeId) : Option β :=
  Chain.findAlong u.desugar (fun t => (u.typeKind? t).bind pick) u.stepLimit t

def pointee (t : TypeId) : Option TypeId :=
  match u.typeKind? (u.canonical t) with
  | some (.pointer p) => some p
  | _ => none

def isAnyPointer (t : TypeId) : Bool := (u.pointee t).isSome

/-- The type after all its pointers have been followed. -/
def stripPointers (t : TypeId) : TypeId := Chain.follow u.pointee u.stepLimit t

def recordDecl? (t : TypeId) : Option DeclId :=
  match u.typeKind? (u.canonical t) with
  | some (.record d) => some d
  | _ => none

/-- The declaration that defines a record, or the declaration itself if none is visible. -/
def recordDefinition (d : DeclId) : DeclId :=
  match u.declKind? d with
  | some (.record _ _ (some definition)) => definition
  | _ => d

/-- The record that a value refers to through any pointers, by its definition. -/
def referencedRecord (t : TypeId) : Option DeclId :=
  (u.recordDecl? (u.stripPointers t)).map u.recordDefinition

/-- The outermost alias among the sugar of a type. -/
def asTypedef (t : TypeId) : Option DeclId :=
  u.findInSugar (fun | .typedef d => some d | _ => none) t

/-- The alias that a declared type names: among its own sugar, or else among the sugar left when all
pointers have been followed. -/
def referencedAlias (t : TypeId) : Option DeclId :=
  (u.asTypedef t).or (u.asTypedef (u.stripPointers t))

/-- The enumeration a type names through sugar; pointers are not followed. -/
def namedEnum (t : TypeId) : Option DeclId :=
  u.findInSugar (fun | .enum d => some d | _ => none) t

/-- The signature of a pointer to a parenthesised function type, as in `int *(*callback)(st *, int)`. -/
def functionPointer (t : TypeId) : Option Signature := do
  let inner ← u.findInSugar (fun | .paren inner => some inner | _ => none) (← u.pointee t)
  match u.typeKind? (u.canonical inner) with
  | some (.functionProto result params _) => some ⟨result, params⟩
  | _ => none

/-- Whether some typedef of the unit names this record or its definition. -/
def isTypedefTarget (d : DeclId) : Bool :=
  u.decls.any fun decl =>
    match decl.kind with
    | .typedef t => (u.recordDecl? t).any (u.recordDefinition · = u.recordDefinition d)
    | _ => false

end UnitGraph.SourceUnit
