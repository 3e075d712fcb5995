import UnitGraph.Extraction.Agenda
import UnitGraph.Extraction.Settlement
import UnitGraph.Graph.Arena
import UnitGraph.Registry

/-!
# From a source unit to its code graph

The events of an extraction determine which entities get a node and in which order; settling its marks
determines the tokens. Each node is then written down from its entity alone: links go to the nodes of the
entities that the unit names there.
-/
namespace UnitGraph

namespace Job

variable (j : Job)

/-- Every entity with its node, numbered in order of creation. -/
def registry : Registry Entity NodeId := Registry.ofKeys NodeId.mk j.entities

/-- The node of an entity; one past the end if it has none. -/
def idOf (e : Entity) : NodeId := (j.registry.get? e).getD ⟨j.registry.size⟩

def outcomes : List Outcome := j.unit.settle j.unit.ledger (Traversal.marks j.events)

end Job

/-- The token at the location of a declaration, taken or not. -/
def SourceUnit.nameToken? (u : SourceUnit) (d : DeclId) : Option Token :=
  (u.decl? d).bind fun decl => u.ledger.tokenAt? decl.location

/-- The node of an entity, given the identities of all nodes and the tokens it was granted. -/
def Job.nodeOf (j : Job) (idOf : Entity → NodeId) (tokens : List Token) : Entity → Node
  | .stmt s =>
      let stmt := (j.unit.stmt? s).getD default
      .stmt
        { name := stmt.className
          tokens := tokens
          children := stmt.children.map (idOf <| .stmt ·) ++ stmt.decls.map (idOf <| .decl ·)
          references := stmt.referenced.toList.map (idOf <| .decl ·) }
  | .decl d =>
      .decl
        { name := j.unit.nameOf d
          type := j.unit.shownType d
          kind := ((j.unit.declKind? d).map (·.name)).getD ""
          tokens := tokens
          nameToken := j.unit.nameToken? d
          record := (j.unit.recordOf? d).map (idOf <| .record ·)
          typedef := (j.unit.aliasOf? d).map (idOf <| .typedef ·) }
  | .record d =>
      let types := j.unit.fieldTypes d
      .record
        { name := j.unit.nameOf d
          isTypedef := j.unit.isTypedefTarget d
          tokens := tokens
          records := types.flatMap fun t =>
            ((j.unit.referencedRecord t).toList ++ j.unit.signatureRecords t).map (idOf <| .record ·)
          enums := (types.filterMap j.unit.namedEnum).map (idOf <| .enum ·)
          typedefs := (types.filterMap j.unit.referencedAlias).map (idOf <| .typedef ·) }
  | .enum d => .enum { name := j.unit.nameOf d, tokens := tokens }
  | .typedef d =>
      .typedef
        { name := j.unit.nameOf d
          underlying := ((j.unit.underlying? d).map j.unit.spellingOf).getD ""
          tokens := tokens
          nameToken := j.unit.nameToken? d }
  | .block f i =>
      let block := (j.block? f i).getD default
      .block
        { name := s!"cfg_{block.label}"
          statements := block.statements.map (idOf <| .stmt ·)
          successors := block.targets.map (idOf <| .block f ·) }
  | .function _ d =>
      let decl := (j.unit.decl? d).getD default
      let (params, body) := decl.definition?.getD ([], default)
      .function
        { name := decl.name.text
          type := (decl.type.map j.unit.spellingOf).getD ""
          tokens := tokens
          args := params.map (idOf <| .decl ·)
          entry := idOf (.stmt body)
          blocks := (List.range (j.blocks d).length).map (idOf <| .block d ·) }

def Job.codeGraph (j : Job) : CodeGraph :=
  let registry := j.registry
  let idOf := fun e => (registry.get? e).getD ⟨registry.size⟩
  let outcomes := j.outcomes
  { arena := ⟨(registry.keys.map fun e => j.nodeOf idOf (holdings outcomes e) e).toArray⟩
    functions := j.topFunctions.map fun (site, d) => idOf (.function site d)
    records := j.topRecords.map (idOf <| .record ·)
    diagnostics := reports outcomes }

def Frontend.codeGraph (f : Frontend) (options : ExtractionOptions) (u : SourceUnit) : CodeGraph :=
  Job.codeGraph ⟨u, f, options⟩

def Frontend.codeGraphOfSource (f : Frontend) (options : ExtractionOptions) (source : String) :
    Except ExtractionError CodeGraph :=
  (f.unit source).map (f.codeGraph options)

def Frontend.codeGraphsOfSources (f : Frontend) (options : ExtractionOptions) (sources : List String) :
    List (Except ExtractionError CodeGraph) :=
  sources.map (f.codeGraphOfSource options)

end UnitGraph
