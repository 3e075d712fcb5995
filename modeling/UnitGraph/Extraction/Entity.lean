import UnitGraph.Source.Ledger
import UnitGraph.Unit.FlowGraph

/-!
# Entities

An entity is something of the source that gets a node of its own. One declaration can be several entities
in different roles. A function is an entity once for every place at top level where it stands; every other
entity exists once, however often it is met.
-/
namespace UnitGraph

inductive Entity where
  | stmt (s : StmtId)
  | decl (d : DeclId)
  | record (d : DeclId)
  | enum (d : DeclId)
  | typedef (d : DeclId)
  /-- The block of a function at a position of its flow graph. -/
  | block (function : DeclId) (position : Nat)
  /-- The function that stands at a position of the top level. -/
  | function (site : Nat) (d : DeclId)
  deriving DecidableEq, Repr

namespace Entity

/-- Definitions share their tokens with whoever took them; all other entities take tokens for themselves. -/
def access : Entity → Access
  | record _ | enum _ | typedef _ => .shared
  | stmt _ | decl _ | block .. | function .. => .exclusive

/-- The range whose tokens an entity claims; blocks have none. -/
def range? (u : SourceUnit) : Entity → Option SourceRange
  | stmt s => (u.stmt? s).map (·.range)
  | decl d | record d | enum d | typedef d | function _ d => (u.decl? d).map (·.range)
  | block .. => none

/-- What diagnostics call an entity: a statement's class, a declaration's name. -/
def label (u : SourceUnit) : Entity → String
  | stmt s => ((u.stmt? s).map (·.className)).getD ""
  | decl d | record d | enum d | typedef d | function _ d => u.nameOf d
  | block .. => ""

end Entity

/-- What happens between the visits of an extraction: an entity claims the tokens of its range, a function
without a definition gives its tokens away, or a function turns out to have no flow graph. -/
inductive Mark where
  | claim (e : Entity)
  | skip (d : DeclId)
  | noFlow (d : DeclId) (error : FlowError)
  deriving DecidableEq, Repr

end UnitGraph
