import UnitGraph.Source.Token

/-!
# Source units

A source unit holds the lexemes, declarations, statements and types of one parsed source. The three
tables refer to one another by identities, which are table positions; references may point forwards, at
themselves or in cycles.
-/
namespace UnitGraph

structure DeclId where
  index : Nat
  deriving DecidableEq, Repr, Inhabited

structure StmtId where
  index : Nat
  deriving DecidableEq, Repr, Inhabited

structure TypeId where
  index : Nat
  deriving DecidableEq, Repr, Inhabited

/-- The name of a declaration: a plain identifier, a name that is none (an operator, a conversion), or
nothing at all. -/
inductive DeclName where
  | identifier (text : String)
  | special (text : String)
  | anonymous
  deriving DecidableEq, Repr, Inhabited

namespace DeclName

def text : DeclName → String
  | identifier s | special s => s
  | anonymous => ""

def isIdentifier : DeclName → Bool
  | identifier _ => true
  | _ => false

/-- A written name is an identifier, an empty one is no name. -/
def ofString (s : String) : DeclName := if s.isEmpty then anonymous else identifier s

end DeclName

inductive RecordTag where
  | struct
  | union
  deriving DecidableEq, Repr, Inhabited

/-- What a declaration declares. A function without a body is a prototype; the definition of a record is
the declaration that lists its fields, if the unit shows one. -/
inductive DeclKind where
  | function (params : List DeclId) (body : Option StmtId)
  | var
  | param
  | field
  | enumConstant
  | typedef (underlying : TypeId)
  | record (tag : RecordTag) (fields : List DeclId) (definition : Option DeclId)
  | enum (constants : List DeclId)
  deriving DecidableEq, Repr, Inhabited

namespace DeclKind

def name : DeclKind → String
  | function .. => "Function"
  | var => "Var"
  | param => "ParmVar"
  | field => "Field"
  | enumConstant => "EnumConstant"
  | typedef _ => "Typedef"
  | record .. => "Record"
  | enum _ => "Enum"

/-- Declarations that have a value, and so a type of their own. -/
def isValue : DeclKind → Bool
  | function .. | var | param | field | enumConstant => true
  | typedef _ | record .. | enum _ => false

end DeclKind

/-- A declaration; `location` is that of its name token and `type` the declared type of a value. -/
structure Decl where
  kind : DeclKind
  name : DeclName
  location : Nat
  range : SourceRange
  type : Option TypeId
  deriving DecidableEq, Repr, Inhabited

/-- Parameters and body of a defined function: it has a body and its name is an identifier. -/
def Decl.definition? (d : Decl) : Option (List DeclId × StmtId) :=
  match d.kind with
  | .function params (some body) => if d.name.isIdentifier then some (params, body) else none
  | _ => none

/-- A statement or expression: its class (`ReturnStmt`, `DeclRefExpr`, …), its children in order, what a
declaration statement declares, and what a reference reads. -/
structure Stmt where
  className : String
  range : SourceRange
  children : List StmtId
  decls : List DeclId
  referenced : Option DeclId
  deriving DecidableEq, Repr, Inhabited

/-- The structure of a type; an array without a size is incomplete. -/
inductive TypeKind where
  | builtin
  | pointer (pointee : TypeId)
  | array (element : TypeId) (size : Option Nat)
  | record (decl : DeclId)
  | enum (decl : DeclId)
  | typedef (decl : DeclId)
  | elaborated (inner : TypeId)
  | paren (inner : TypeId)
  | functionProto (result : TypeId) (params : List TypeId) (variadic : Bool)
  deriving DecidableEq, Repr, Inhabited

def TypeKind.className : TypeKind → String
  | builtin => "Builtin"
  | pointer _ => "Pointer"
  | array _ (some _) => "ConstantArray"
  | array _ none => "IncompleteArray"
  | record _ => "Record"
  | enum _ => "Enum"
  | typedef _ => "Typedef"
  | elaborated _ => "Elaborated"
  | paren _ => "Paren"
  | functionProto .. => "FunctionProto"

structure TypeEntry where
  kind : TypeKind
  spelling : String
  deriving DecidableEq, Repr, Inhabited

structure SourceUnit where
  lexemes : List Lexeme
  decls : Array Decl
  stmts : Array Stmt
  types : Array TypeEntry
  topLevel : List DeclId
  deriving DecidableEq, Repr, Inhabited

namespace SourceUnit

def empty : SourceUnit := ⟨[], #[], #[], #[], []⟩

def decl? (u : SourceUnit) (d : DeclId) : Option Decl := u.decls[d.index]?

def stmt? (u : SourceUnit) (s : StmtId) : Option Stmt := u.stmts[s.index]?

def type? (u : SourceUnit) (t : TypeId) : Option TypeEntry := u.types[t.index]?

def declKind? (u : SourceUnit) (d : DeclId) : Option DeclKind := (u.decl? d).map (·.kind)

def typeKind? (u : SourceUnit) (t : TypeId) : Option TypeKind := (u.type? t).map (·.kind)

def typeCount (u : SourceUnit) : Nat := u.types.size

def nameOf (u : SourceUnit) (d : DeclId) : String := ((u.decl? d).map (·.name.text)).getD ""

def spellingOf (u : SourceUnit) (t : TypeId) : String := ((u.type? t).map (·.spelling)).getD ""

/-- The type becomes the last of the table. -/
def addType (u : SourceUnit) (kind : TypeKind) (spelling : String) : SourceUnit :=
  { u with types := u.types.push ⟨kind, spelling⟩ }

/-- Stars follow one another directly, and a first star follows a space: `int *`, `int **`. -/
def pointerSpelling (pointee : String) : String :=
  if pointee.toList.getLast? = some '*' then pointee ++ "*" else pointee ++ " *"

/-- A pointer to a type, spelled accordingly, becomes the last of the table. -/
def addPointer (u : SourceUnit) (pointee : TypeId) : SourceUnit :=
  u.addType (.pointer pointee) (pointerSpelling (u.spellingOf pointee))

end SourceUnit

end UnitGraph
