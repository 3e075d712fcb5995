import UnitGraph.Extraction.Entity
import UnitGraph.Extraction.Frontend
import UnitGraph.Traversal
import UnitGraph.Unit.Reference

/-!
# The agenda of an extraction

Which entities an entity leads to, and when tokens are claimed. Statements, parameters and functions claim
after everything below them has been visited, so that a token goes to the innermost of them. Definitions
claim first, since they take nothing away from anyone.
-/
namespace UnitGraph

open Traversal

structure Job where
  unit : SourceUnit
  frontend : Frontend
  options : ExtractionOptions

namespace Job

/-- The flow graph of a function, refused if an edge leaves it. -/
def flow (j : Job) (d : DeclId) : Except FlowError FlowGraph :=
  (j.frontend.flowGraph j.unit d).bind FlowGraph.checked

/-- The blocks that a function contributes: none unless they are wanted and its flow graph is sound. -/
def blocks (j : Job) (d : DeclId) : List FlowBlock :=
  if j.options.flowBlocks then
    match j.flow d with
    | .ok g => g.blocks
    | .error _ => []
  else []

def block? (j : Job) (d : DeclId) (position : Nat) : Option FlowBlock := (j.blocks d)[position]?

end Job

/-- What the type of a field leads to: its record, its alias, the records of its signature, its
enumeration. -/
def SourceUnit.fieldEntities (u : SourceUnit) (t : TypeId) : List Entity :=
  (u.referencedRecord t).toList.map .record ++ (u.referencedAlias t).toList.map .typedef ++
    (u.signatureRecords t).map .record ++ (u.namedEnum t).toList.map .enum

namespace Job

variable (j : Job)

def agenda : Entity → List (Item Entity Mark)
  | .stmt s =>
      match j.unit.stmt? s with
      | some stmt =>
          stmt.children.map (.visit <| .stmt ·) ++ stmt.decls.map (.visit <| .decl ·) ++
            stmt.referenced.toList.map (.visit <| .decl ·) ++ [.mark (.claim (.stmt s))]
      | none => []
  | .decl d =>
      (j.unit.recordOf? d).toList.map (.visit <| .record ·) ++
        (j.unit.aliasOf? d).toList.map (.visit <| .typedef ·)
  | .record d =>
      .mark (.claim (.record d)) :: ((j.unit.fieldTypes d).flatMap j.unit.fieldEntities).map .visit
  | .enum d => [.mark (.claim (.enum d))]
  | .typedef d => [.mark (.claim (.typedef d))]
  | .block f i =>
      match j.block? f i with
      | some block =>
          block.statements.map (.visit <| .stmt ·) ++ block.targets.map (.visit <| .block f ·)
      | none => []
  | .function .. => []

/-- The flow blocks of a function in order, or the report that there are none. -/
def flowAgenda (d : DeclId) : List (Item Entity Mark) :=
  if j.options.flowBlocks then
    match j.flow d with
    | .ok g => (List.range g.blocks.length).map (.visit <| .block d ·)
    | .error e => [.mark (.noFlow d e)]
  else []

/-- A defined function visits its parameters, each of which claims again at every mention, then its body,
claims what is left of its range, adds its flow blocks, and is entered last. -/
def functionAgenda (site : Nat) (d : DeclId) (params : List DeclId) (body : StmtId) :
    List (Item Entity Mark) :=
  params.flatMap (fun p => [.visit (.decl p), .mark (.claim (.decl p))]) ++
    [.visit (.stmt body), .mark (.claim (.function site d))] ++ j.flowAgenda d ++
    [.visit (.function site d)]

def siteAgenda (site : Nat) (d : DeclId) : List (Item Entity Mark) :=
  match j.unit.decl? d with
  | none => []
  | some decl =>
      match decl.kind with
      | .function .. =>
          match decl.definition? with
          | some (params, body) => j.functionAgenda site d params body
          | none => [.mark (.skip d)]
      | .record .. =>
          if j.options.visitRecords then [.visit (.record (j.unit.recordDefinition d))] else []
      | _ => []

/-- The agenda of the whole unit: its top level in order. -/
def program : List (Item Entity Mark) :=
  j.unit.topLevel.zipIdx.flatMap fun (d, site) => j.siteAgenda site d

/-- The entities of the unit's own tables: the statements, the four roles of each declaration, the
functions of the top level and their blocks. -/
def known : List Entity :=
  (List.range j.unit.stmts.size).map (.stmt ⟨·⟩) ++
    (List.range j.unit.decls.size).flatMap
      (fun i => [.decl ⟨i⟩, .record ⟨i⟩, .enum ⟨i⟩, .typedef ⟨i⟩]) ++
    j.unit.topLevel.zipIdx.map (fun (d, site) => .function site d) ++
    j.unit.topLevel.flatMap fun d => (List.range (j.blocks d).length).map (.block d ·)

/-- All entities that an extraction can meet: the known ones, and whatever the top level or a known one
asks for. An identity outside the tables asks for nothing further. -/
def pool : List Entity :=
  j.known ++ requested j.program ++ j.known.flatMap fun e => requested (j.agenda e)

def events : List (Event Entity Mark) := traverse j.agenda j.pool j.program

/-- The entities that get a node, in order of creation. -/
def entities : List Entity := entered j.events

/-- The records declared at top level, each by its definition and where it comes first. -/
def topRecords : List DeclId :=
  if j.options.visitRecords then
    (j.unit.topLevel.filterMap fun d =>
      match j.unit.declKind? d with
      | some (.record ..) => some (j.unit.recordDefinition d)
      | _ => none).eraseDups
  else []

/-- The defined functions at top level with their positions. -/
def topFunctions : List (Nat × DeclId) :=
  j.unit.topLevel.zipIdx.filterMap fun (d, site) =>
    ((j.unit.decl? d).bind Decl.definition?).map fun _ => (site, d)

end Job

end UnitGraph
