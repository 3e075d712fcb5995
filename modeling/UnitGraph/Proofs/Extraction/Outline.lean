import UnitGraph.Proofs.Extraction.Diagnostics
import UnitGraph.Proofs.Unit.Outline

/-!
# Extractions from outlines

An extraction from the outline of a unit, with the same flow graphs, meets the same entities in the same order.
Its nodes are those of the unit without their tokens; functions, records and the reports about flow graphs are
the same. So tokens and places in the source have no say in the structure of a code graph.
-/
namespace UnitGraph

/-- A node without its tokens. -/
def Node.outline : Node → Node
  | .decl n => .decl { n with tokens := [], nameToken := none }
  | .stmt n => .stmt { n with tokens := [] }
  | .record n => .record { n with tokens := [] }
  | .enum n => .enum { n with tokens := [] }
  | .typedef n => .typedef { n with tokens := [], nameToken := none }
  | .block n => .block n
  | .function n => .function { n with tokens := [] }

def Arena.outline (a : Arena) : Arena := ⟨a.nodes.map Node.outline⟩

/-- A report without its place in the source. -/
def Diagnostic.outline (d : Diagnostic) : Diagnostic := { d with range := none }

/-- A code graph without tokens; what is left of the reports are those about flow graphs. -/
def CodeGraph.outline (g : CodeGraph) : CodeGraph where
  arena := g.arena.outline
  functions := g.functions
  records := g.records
  diagnostics := (g.diagnostics.filter (·.code ≠ .tokenLookup)).map Diagnostic.outline

namespace Job

/-- The extraction from the outline of a unit, with the flow graphs of the unit; its frontend parses nothing. -/
def outline (j : Job) : Job where
  unit := j.unit.outline
  frontend := { parse := fun _ => .error ⟨[]⟩, flowGraph := fun _ => j.frontend.flowGraph j.unit }
  options := j.options

variable (j : Job)

@[simp] theorem unit_outline : j.outline.unit = j.unit.outline := rfl
@[simp] theorem options_outline : j.outline.options = j.options := rfl
@[simp] theorem blocks_outline : j.outline.blocks = j.blocks := rfl
@[simp] theorem block?_outline : j.outline.block? = j.block? := rfl
@[simp] theorem flowAgenda_outline : j.outline.flowAgenda = j.flowAgenda := rfl
@[simp] theorem functionAgenda_outline : j.outline.functionAgenda = j.functionAgenda := rfl
@[simp] theorem noFlow?_outline : j.outline.noFlow? = j.noFlow? := rfl

@[simp] theorem agenda_outline : j.outline.agenda = j.agenda := by
  funext e
  cases e with
  | stmt s => cases h : j.unit.stmt? s <;> simp [agenda, h]
  | _ => simp [agenda]

@[simp] theorem siteAgenda_outline : j.outline.siteAgenda = j.siteAgenda := by
  funext site d
  cases h : j.unit.decl? d <;> simp [siteAgenda, h]

@[simp] theorem program_outline : j.outline.program = j.program := by
  simp [program]

@[simp] theorem known_outline : j.outline.known = j.known := by
  simp [known]

@[simp] theorem pool_outline : j.outline.pool = j.pool := by
  simp [pool]

@[simp] theorem events_outline : j.outline.events = j.events := by
  simp [events]

@[simp] theorem entities_outline : j.outline.entities = j.entities := by
  simp [entities]

@[simp] theorem registry_outline : j.outline.registry = j.registry := by
  simp [registry]

@[simp] theorem topRecords_outline : j.outline.topRecords = j.topRecords := by
  simp [topRecords]

@[simp] theorem topFunctions_outline : j.outline.topFunctions = j.topFunctions := by
  simp [topFunctions, Option.bind_map, Function.comp_def]

/-- The node of an entity shows the same whatever its tokens are. -/
theorem nodeOf_outline (idOf : Entity → NodeId) (tokens tokens' : List Token) (e : Entity) :
    (j.outline.nodeOf idOf tokens e).outline = (j.nodeOf idOf tokens' e).outline := by
  cases e with
  | stmt s => cases h : j.unit.stmt? s <;> simp [nodeOf, Node.outline, h]
  | function site d => cases h : j.unit.decl? d <;> simp [nodeOf, Node.outline, h]
  | _ => simp [nodeOf, Node.outline]

theorem arena_outline : j.outline.codeGraph.arena.outline = j.codeGraph.arena.outline := by
  have hNode : ∀ (idOf : Entity → NodeId) (e : Entity),
      (j.outline.nodeOf idOf (holdings j.outline.outcomes e) e).outline =
        (j.nodeOf idOf (holdings j.outcomes e) e).outline :=
    fun idOf e => j.nodeOf_outline idOf _ _ e
  simp [codeGraph, Arena.outline, hNode]

theorem functions_outline : j.outline.codeGraph.functions = j.codeGraph.functions := by
  simp [codeGraph]

theorem records_outline : j.outline.codeGraph.records = j.codeGraph.records := by
  simp [codeGraph]

/-- A flow graph that is missing is told of in the same words. -/
theorem flowFault?_outline (u : SourceUnit) (d : DeclId) (e : FlowError) :
    (u.outline.flowFault? d e).map Diagnostic.outline = (u.flowFault? d e).map Diagnostic.outline := by
  cases h : u.decl? d with
  | none => simp [SourceUnit.flowFault?, h]
  | some decl =>
      simp only [SourceUnit.flowFault?, SourceUnit.decl?_outline, SourceUnit.nameOf_outline, h]
      rfl

theorem flowWarning?_outline (d : DeclId) :
    (j.outline.flowWarning? d).map Diagnostic.outline = (j.flowWarning? d).map Diagnostic.outline := by
  rw [flowWarning?, flowWarning?, noFlow?_outline]
  cases j.noFlow? d with
  | none => rfl
  | some e => exact flowFault?_outline j.unit d e

theorem flow_diagnostics_outline :
    (j.outline.codeGraph.diagnostics.filter (·.code ≠ .tokenLookup)).map Diagnostic.outline =
      (j.codeGraph.diagnostics.filter (·.code ≠ .tokenLookup)).map Diagnostic.outline := by
  rw [flow_diagnostics, flow_diagnostics, List.map_filterMap, List.map_filterMap]
  simp only [topFunctions_outline, flowWarning?_outline]

/-- The outline of a code graph is that of the code graph of the outline. -/
theorem outline_codeGraph : j.outline.codeGraph.outline = j.codeGraph.outline := by
  rw [CodeGraph.outline, CodeGraph.outline, arena_outline, functions_outline, records_outline,
    flow_diagnostics_outline]

end Job

end UnitGraph
