import UnitGraph.Source.Token

/-!
# Nodes of a code graph

Nodes refer to one another by their positions in the arena that holds them, so cycles (a record with a
pointer to itself, a loop among blocks) need nothing special.
-/
namespace UnitGraph

structure NodeId where
  index : Nat
  deriving DecidableEq, Repr, Inhabited

/-- A declaration. `type` is the spelling of a value's type, or the class of the type that a typedef
names; `nameToken` is the token at the declaration's location. -/
structure DeclNode where
  name : String
  type : String
  kind : String
  tokens : List Token
  nameToken : Option Token
  record : Option NodeId
  typedef : Option NodeId
  deriving DecidableEq, Repr

/-- A statement or expression, with its children and declarations and with what it reads. -/
structure StmtNode where
  name : String
  tokens : List Token
  children : List NodeId
  references : List NodeId
  deriving DecidableEq, Repr

/-- A struct or union, with what the types of its fields refer to. -/
structure RecordNode where
  name : String
  isTypedef : Bool
  tokens : List Token
  records : List NodeId
  enums : List NodeId
  typedefs : List NodeId
  deriving DecidableEq, Repr

structure EnumNode where
  name : String
  tokens : List Token
  deriving DecidableEq, Repr

/-- A typedef; `underlying` is the spelling of the type it names. -/
structure TypedefNode where
  name : String
  underlying : String
  tokens : List Token
  nameToken : Option Token
  deriving DecidableEq, Repr

/-- A basic block; it owns no tokens. -/
structure BlockNode where
  name : String
  statements : List NodeId
  successors : List NodeId
  deriving DecidableEq, Repr

/-- A defined function: its parameters, its body and its flow blocks. -/
structure FunctionNode where
  name : String
  type : String
  tokens : List Token
  args : List NodeId
  entry : NodeId
  blocks : List NodeId
  deriving DecidableEq, Repr

inductive Node where
  | decl (n : DeclNode)
  | stmt (n : StmtNode)
  | record (n : RecordNode)
  | enum (n : EnumNode)
  | typedef (n : TypedefNode)
  | block (n : BlockNode)
  | function (n : FunctionNode)
  deriving DecidableEq, Repr

namespace Node

def kindName : Node → String
  | decl _ => "decl"
  | stmt _ => "stmt"
  | record _ => "record"
  | enum _ => "enum"
  | typedef _ => "typedef"
  | block _ => "block"
  | function _ => "function"

def name : Node → String
  | decl n => n.name
  | stmt n => n.name
  | record n => n.name
  | enum n => n.name
  | typedef n => n.name
  | block n => n.name
  | function n => n.name

def tokens : Node → List Token
  | decl n => n.tokens
  | stmt n => n.tokens
  | record n => n.tokens
  | enum n => n.tokens
  | typedef n => n.tokens
  | block _ => []
  | function n => n.tokens

/-- The nodes that a node links to, in the order in which a walk takes them up. -/
def links : Node → List NodeId
  | decl n => n.record.toList ++ n.typedef.toList
  | stmt n => n.children ++ n.references
  | record n => n.records ++ n.enums ++ n.typedefs
  | enum _ => []
  | typedef _ => []
  | block n => n.statements ++ n.successors
  | function n => n.args ++ [n.entry] ++ n.blocks

def asDecl? : Node → Option DeclNode
  | decl n => some n
  | _ => none

def asStmt? : Node → Option StmtNode
  | stmt n => some n
  | _ => none

def asRecord? : Node → Option RecordNode
  | record n => some n
  | _ => none

def asEnum? : Node → Option EnumNode
  | enum n => some n
  | _ => none

def asTypedef? : Node → Option TypedefNode
  | typedef n => some n
  | _ => none

def asBlock? : Node → Option BlockNode
  | block n => some n
  | _ => none

def asFunction? : Node → Option FunctionNode
  | function n => some n
  | _ => none

end Node

end UnitGraph
