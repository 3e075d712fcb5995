import UnitGraph.Unit.Denotation

/-!
# What declarations refer to

The record and the alias that the type of a value leads to, the types of a record's fields, and the
records in the signature of a function pointer.
-/
namespace UnitGraph.SourceUnit

variable (u : SourceUnit)

def valueType? (d : DeclId) : Option TypeId :=
  (u.decl? d).bind fun decl => if decl.kind.isValue then decl.type else none

def recordOf? (d : DeclId) : Option DeclId := (u.valueType? d).bind u.referencedRecord

def aliasOf? (d : DeclId) : Option DeclId := (u.valueType? d).bind u.referencedAlias

/-- The types of the fields of a record, in order; a field without a type is passed over. -/
def fieldTypes (d : DeclId) : List TypeId :=
  match u.declKind? d with
  | some (.record _ fields _) => fields.filterMap fun f => (u.decl? f).bind (·.type)
  | _ => []

def signatureRecords (t : TypeId) : List DeclId :=
  ((u.functionPointer t).map fun s => s.types.filterMap u.referencedRecord).getD []

/-- The type that a declaration shows: the class of what a typedef names, or the spelling of a
value's type. -/
def shownType (d : DeclId) : String :=
  match u.underlying? d with
  | some t => ((u.typeKind? t).map (·.className)).getD ""
  | none => ((u.valueType? d).map u.spellingOf).getD ""

end UnitGraph.SourceUnit
