import Mathlib.Logic.Equiv.Fin.Rotate
import UnitGraph.Proofs.Extraction.Canonical
import UnitGraph.Proofs.Extraction.Renaming
import UnitGraph.Proofs.Unit.Renumbering

/-!
# Extractions from renumbered units

Every entity has a counterpart in a renumbered unit, and its agenda asks for the counterparts of what the entity
asks for. Main statement: if the frontend tells of the same control flow under the new numbers, the code graph
and the sequences of a renumbered unit are those of the unit itself.
-/
namespace UnitGraph

open Traversal

namespace SourceUnit

namespace Renumbering

variable {u : SourceUnit} (ρ : u.Renumbering)

/-- The counterpart of an entity. -/
def entity : Entity → Entity
  | .stmt s => .stmt (ρ.stmt s)
  | .decl d => .decl (ρ.decl d)
  | .record d => .record (ρ.decl d)
  | .enum d => .enum (ρ.decl d)
  | .typedef d => .typedef (ρ.decl d)
  | .block f i => .block (ρ.decl f) i
  | .function site d => .function site (ρ.decl d)

def mark : Mark → Mark := Mark.map ρ.entity ρ.decl

def item : Item Entity Mark → Item Entity Mark := Item.map ρ.entity ρ.mark

/-- A flow block that names its statements by their new numbers. -/
def flowBlock (b : FlowBlock) : FlowBlock :=
  { b with elements := b.elements.map ρ.stmt, terminator := b.terminator.map ρ.stmt }

def flowGraph (g : FlowGraph) : FlowGraph := ⟨g.blocks.map ρ.flowBlock⟩

theorem entity_injective : Function.Injective ρ.entity := by
  intro e e' h
  cases e <;> cases e' <;>
    simp_all [entity, ρ.decl_injective.eq_iff, ρ.stmt_injective.eq_iff]

theorem statements_flowBlock (b : FlowBlock) : (ρ.flowBlock b).statements = b.statements.map ρ.stmt := by
  cases h : b.terminator <;> simp [FlowBlock.statements, flowBlock, h]

@[simp] theorem targets_flowBlock (b : FlowBlock) : (ρ.flowBlock b).targets = b.targets := rfl

theorem checked_flowGraph (g : FlowGraph) : (ρ.flowGraph g).checked = g.checked.map ρ.flowGraph := by
  have hDangling : (ρ.flowGraph g).firstDangling? = g.firstDangling? := by
    simp only [FlowGraph.firstDangling?, flowGraph, List.findSome?_map, List.length_map]
    rfl
  rw [FlowGraph.checked, FlowGraph.checked, hDangling]
  cases g.firstDangling? <;> rfl

theorem relabels : Relabels ρ.entity ρ.decl u (u.renumber ρ) where
  lexemes := rfl
  range e := by
    cases e with
    | stmt s => simp [Entity.range?, entity, Function.comp_def]
    | block f i => rfl
    | _ => simp [Entity.range?, entity, Function.comp_def]
  label e := by
    cases e with
    | stmt s => simp [Entity.label, entity, Function.comp_def]
    | block f i => rfl
    | _ => simp [Entity.label, entity]
  access e := by cases e <;> rfl
  declRange d := by simp [Function.comp_def]
  declName := nameOf_renumber ρ

end Renumbering

variable {u : SourceUnit} (ρ : u.Renumbering)

theorem fieldEntities_renumber (t : TypeId) :
    (u.renumber ρ).fieldEntities (ρ.type t) = (u.fieldEntities t).map ρ.entity := by
  cases hr : u.referencedRecord t <;> cases ha : u.referencedAlias t <;> cases hc : u.namedEnum t <;>
    simp [fieldEntities, hr, ha, hc, Renumbering.entity]

@[simp] theorem nameToken?_renumber (d : DeclId) : (u.renumber ρ).nameToken? (ρ.decl d) = u.nameToken? d := by
  simp [nameToken?, Option.bind_map, Function.comp_def, ρ.relabels.ledger]

theorem sequenceMark?_renumber (site : Nat) (d : DeclId) :
    (u.renumber ρ).sequenceMark? site (ρ.decl d) = (u.sequenceMark? site d).map ρ.mark := by
  rw [sequenceMark?, sequenceMark?, decl?_renumber]
  cases u.decl? d with
  | none => rfl
  | some decl =>
      simp only [Option.map_some, Option.bind_some, ρ.definition?_declEntry, ρ.kind_declEntry]
      cases decl.kind with
      | function params body => cases decl.definition? <;> rfl
      | _ => rfl

theorem sequenceMarks_renumber :
    (u.renumber ρ).sequenceMarks = u.sequenceMarks.map (Mark.map ρ.entity ρ.decl) := by
  rw [sequenceMarks, sequenceMarks, topLevel_renumber, List.zipIdx_map, List.filterMap_map,
    List.map_filterMap]
  exact List.filterMap_congr fun x _ => sequenceMark?_renumber ρ x.2 x.1

/-- The sequences of a unit do not depend on its numbers. -/
theorem sequences_renumber : (u.renumber ρ).sequences = u.sequences := by
  rw [sequences_eq_sequencesFrom, sequenceMarks_renumber]
  exact ρ.relabels.sequencesFrom_map ρ.entity_injective _

end SourceUnit

namespace Job

/-- The extraction from a renumbered unit, by a frontend that knows the new numbers. -/
def renumber (j : Job) (ρ : j.unit.Renumbering) (g : Frontend) : Job := ⟨j.unit.renumber ρ, g, j.options⟩

/-- A frontend tells of the same control flow under the new numbers. -/
def FlowRenumbered (j : Job) (ρ : j.unit.Renumbering) (g : Frontend) : Prop :=
  ∀ d ∈ j.unit.topLevel,
    g.flowGraph (j.unit.renumber ρ) (ρ.decl d) = (j.frontend.flowGraph j.unit d).map ρ.flowGraph

variable {j : Job} {ρ : j.unit.Renumbering} {g : Frontend}

@[simp] theorem unit_renumber : (j.renumber ρ g).unit = j.unit.renumber ρ := rfl
@[simp] theorem options_renumber : (j.renumber ρ g).options = j.options := rfl

section Flow
variable (h : j.FlowRenumbered ρ g) {d : DeclId} (hd : d ∈ j.unit.topLevel)
include h hd

theorem flow_renumber : (j.renumber ρ g).flow (ρ.decl d) = (j.flow d).map ρ.flowGraph := by
  rw [flow, flow, renumber, h d hd]
  cases j.frontend.flowGraph j.unit d with
  | error e => rfl
  | ok graph => exact ρ.checked_flowGraph graph

theorem blocks_renumber : (j.renumber ρ g).blocks (ρ.decl d) = (j.blocks d).map ρ.flowBlock := by
  rw [blocks, blocks, flow_renumber h hd, options_renumber]
  split
  · cases j.flow d <;> rfl
  · rfl

theorem block?_renumber (i : Nat) :
    (j.renumber ρ g).block? (ρ.decl d) i = (j.block? d i).map ρ.flowBlock := by
  rw [block?, block?, blocks_renumber h hd, List.getElem?_map]

theorem flowAgenda_renumber : (j.renumber ρ g).flowAgenda (ρ.decl d) = (j.flowAgenda d).map ρ.item := by
  rw [flowAgenda, flowAgenda, flow_renumber h hd, options_renumber]
  split
  · cases j.flow d with
    | error e => rfl
    | ok graph =>
        simp only [Except.map, SourceUnit.Renumbering.flowGraph, List.length_map, List.map_map]
        rfl
  · rfl

theorem functionAgenda_renumber (site : Nat) (params : List DeclId) (body : StmtId) :
    (j.renumber ρ g).functionAgenda site (ρ.decl d) (params.map ρ.decl) (ρ.stmt body) =
      (j.functionAgenda site d params body).map ρ.item := by
  simp only [functionAgenda, flowAgenda_renumber h hd, List.map_append, List.map_flatMap, List.flatMap_map]
  rfl

theorem siteAgenda_renumber (site : Nat) :
    (j.renumber ρ g).siteAgenda site (ρ.decl d) = (j.siteAgenda site d).map ρ.item := by
  rw [siteAgenda, siteAgenda, unit_renumber, SourceUnit.decl?_renumber]
  cases j.unit.decl? d with
  | none => rfl
  | some decl =>
      simp only [Option.map_some, ρ.definition?_declEntry, ρ.kind_declEntry]
      cases hk : decl.kind with
      | function params body =>
          cases decl.definition? with
          | none => rfl
          | some definition => exact functionAgenda_renumber h hd site definition.1 definition.2
      | record tag fields definition =>
          simp only [SourceUnit.Renumbering.declKind, SourceUnit.recordDefinition_renumber, options_renumber]
          split <;> rfl
      | _ => rfl

end Flow

/-- The agenda of a counterpart asks for the counterparts and leaves their marks. -/
theorem agenda_renumber (h : j.FlowRenumbered ρ g) {e : Entity} (he : e ∈ j.pool) :
    (j.renumber ρ g).agenda (ρ.entity e) = (j.agenda e).map ρ.item := by
  cases e with
  | stmt s =>
      simp only [agenda, SourceUnit.Renumbering.entity, unit_renumber, SourceUnit.stmt?_renumber]
      cases j.unit.stmt? s with
      | none => rfl
      | some stmt =>
          simp only [Option.map_some, List.map_append, List.map_map, ρ.children_stmtEntry, ρ.decls_stmtEntry,
            ρ.referenced_stmtEntry, Option.toList_map]
          rfl
  | decl d =>
      simp only [agenda, SourceUnit.Renumbering.entity, unit_renumber, SourceUnit.recordOf?_renumber,
        SourceUnit.aliasOf?_renumber, Option.toList_map, List.map_append, List.map_map]
      rfl
  | record d =>
      simp only [agenda, SourceUnit.Renumbering.entity, unit_renumber, SourceUnit.fieldTypes_renumber,
        List.flatMap_map, SourceUnit.fieldEntities_renumber, ← List.map_flatMap, List.map_map, List.map_cons]
      rfl
  | block f i =>
      have hf := topLevel_of_block_mem_pool he
      simp only [agenda, SourceUnit.Renumbering.entity, block?_renumber h hf]
      cases j.block? f i with
      | none => rfl
      | some b =>
          simp only [Option.map_some, ρ.statements_flowBlock, ρ.targets_flowBlock, List.map_append, List.map_map]
          rfl
  | _ => rfl

theorem program_renumber (h : j.FlowRenumbered ρ g) : (j.renumber ρ g).program = j.program.map ρ.item := by
  rw [program, program, unit_renumber, SourceUnit.topLevel_renumber, List.zipIdx_map, List.flatMap_map,
    List.map_flatMap]
  refine List.flatMap_congr fun x hx => ?_
  exact siteAgenda_renumber h (List.mem_of_getElem? (List.mem_zipIdx_iff_getElem?.mp hx)) x.2

theorem events_renumber (h : j.FlowRenumbered ρ g) :
    (j.renumber ρ g).events = j.events.map (Event.map ρ.entity ρ.mark) :=
  events_map ρ.entity_injective (fun _ => agenda_renumber h) (program_renumber h) requested_program_pool

/-- The node of a counterpart differs in nothing, if nodes are numbered alike. -/
theorem nodeOf_renumber (h : j.FlowRenumbered ρ g) {e : Entity} (he : e ∈ j.entities) {ids ids' : Entity → NodeId}
    (hIds : ∀ e, ids' (ρ.entity e) = ids e) (tokens : List Token) :
    (j.renumber ρ g).nodeOf ids' tokens (ρ.entity e) = j.nodeOf ids tokens e := by
  have hStmt : ∀ s, ids' (.stmt (ρ.stmt s)) = ids (.stmt s) := fun s => hIds (.stmt s)
  have hDecl : ∀ d, ids' (.decl (ρ.decl d)) = ids (.decl d) := fun d => hIds (.decl d)
  have hRecord : ∀ d, ids' (.record (ρ.decl d)) = ids (.record d) := fun d => hIds (.record d)
  have hEnum : ∀ d, ids' (.enum (ρ.decl d)) = ids (.enum d) := fun d => hIds (.enum d)
  have hTypedef : ∀ d, ids' (.typedef (ρ.decl d)) = ids (.typedef d) := fun d => hIds (.typedef d)
  have hBlock : ∀ f i, ids' (.block (ρ.decl f) i) = ids (.block f i) := fun f i => hIds (.block f i)
  cases e with
  | stmt s =>
      simp only [nodeOf, SourceUnit.Renumbering.entity, unit_renumber, SourceUnit.stmt?_renumber]
      cases j.unit.stmt? s with
      | none => rfl
      | some stmt => simp [hStmt, hDecl, Function.comp_def, Option.toList_map]
  | decl d => simp [nodeOf, SourceUnit.Renumbering.entity, hRecord, hTypedef, Function.comp_def]
  | record d =>
      simp [nodeOf, SourceUnit.Renumbering.entity, hRecord, hEnum, hTypedef, Function.comp_def,
        List.flatMap_map, List.filterMap_map, List.map_filterMap, Option.toList_map]
  | enum d => simp [nodeOf, SourceUnit.Renumbering.entity]
  | typedef d => simp [nodeOf, SourceUnit.Renumbering.entity, Function.comp_def]
  | block f i =>
      have hf := topLevel_of_block_mem_pool (mem_pool_of_mem_entities he)
      simp only [nodeOf, SourceUnit.Renumbering.entity, block?_renumber h hf]
      cases j.block? f i with
      | none => rfl
      | some b =>
          simp only [Option.map_some, Option.getD_some, ρ.statements_flowBlock, ρ.targets_flowBlock, List.map_map]
          simp only [Function.comp_def, hStmt, hBlock]
          rfl
  | function site d =>
      obtain ⟨params, body, hSite, hDef⟩ := visits_of_mem_entities he
      obtain ⟨decl, hDecl', hDef⟩ := Option.bind_eq_some_iff.mp hDef
      simp only [nodeOf, SourceUnit.Renumbering.entity, unit_renumber, SourceUnit.decl?_renumber,
        blocks_renumber h (List.mem_of_getElem? hSite), hDecl', Option.map_some, Option.getD_some,
        ρ.definition?_declEntry, hDef]
      simp [hStmt, hDecl, hBlock, Function.comp_def]

theorem topFunctions_renumber (j : Job) (ρ : j.unit.Renumbering) (g : Frontend) :
    (j.renumber ρ g).topFunctions = j.topFunctions.map fun f => (f.1, ρ.decl f.2) := by
  rw [topFunctions, topFunctions, unit_renumber, SourceUnit.topLevel_renumber, List.zipIdx_map,
    List.filterMap_map, List.map_filterMap]
  refine List.filterMap_congr fun x _ => ?_
  obtain ⟨d, site⟩ := x
  simp only [Function.comp_apply, Prod.map, SourceUnit.decl?_renumber, Option.bind_map, Function.comp_def,
    ρ.definition?_declEntry, Option.map_map, Option.map_bind, id]

theorem topRecords_renumber (j : Job) (ρ : j.unit.Renumbering) (g : Frontend) :
    (j.renumber ρ g).topRecords = j.topRecords.map ρ.decl := by
  rw [topRecords, topRecords, options_renumber, unit_renumber, SourceUnit.topLevel_renumber]
  split
  · rw [← eraseDups_map fun _ _ _ _ h => ρ.decl_injective h, List.filterMap_map, List.map_filterMap]
    congr 1
    refine List.filterMap_congr fun d _ => ?_
    simp only [Function.comp_apply, SourceUnit.declKind?_renumber, SourceUnit.recordDefinition_renumber]
    cases j.unit.declKind? d with
    | none => rfl
    | some k => cases k <;> rfl
  · rfl

theorem renames_renumber (h : j.FlowRenumbered ρ g) : Renames ρ.entity j (j.renumber ρ g) where
  injective := ρ.entity_injective
  entities := by rw [entities, events_renumber h, entered_map, entities]
  nodes _ he _ _ tokens hIds := nodeOf_renumber h he hIds tokens
  functions := by
    rw [topFunctions_renumber, List.map_map]
    rfl
  records := by
    rw [topRecords_renumber, List.map_map]
    rfl

theorem outcomes_renumber (h : j.FlowRenumbered ρ g) :
    (j.renumber ρ g).outcomes = j.outcomes.map (Outcome.map ρ.entity) := by
  rw [outcomes, events_renumber h, marks_map, unit_renumber, ρ.relabels.ledger]
  exact ρ.relabels.settle_map _ _

end Job

/-- On every unit, also where its identities lead out of its tables. -/
theorem codeGraph_renumber (f g : Frontend) (options : ExtractionOptions) (u : SourceUnit) (ρ : u.Renumbering)
    (hFlow : ∀ d ∈ u.topLevel,
      g.flowGraph (u.renumber ρ) (ρ.decl d) = (f.flowGraph u d).map ρ.flowGraph) :
    g.codeGraph options (u.renumber ρ) = f.codeGraph options u ∧ (u.renumber ρ).sequences = u.sequences := by
  have h : Job.FlowRenumbered ⟨u, f, options⟩ ρ g := hFlow
  have hOutcomes := Job.outcomes_renumber h
  refine ⟨(Job.renames_renumber h).codeGraph_eq (fun e => ?_) ?_, u.sequences_renumber ρ⟩
  · rw [hOutcomes, holdings_map ρ.entity_injective]
  · rw [hOutcomes, reports_map]

/-- Declarations and types of the cell's unit in reverse order, its statements one place further. -/
def cellNumbering : cellUnit.Renumbering := ⟨Fin.revPerm, finRotate _, Fin.revPerm⟩

/-- The frontend of the cell's job under the new numbers: the block lists statement 2, which was statement 1. -/
def renumberedCell : Job where
  unit := cellUnit.renumber cellNumbering
  frontend :=
    { parse := fun _ => .ok (cellUnit.renumber cellNumbering)
      flowGraph := fun _ _ => .ok ⟨[⟨0, [⟨2⟩], none, [some 0]⟩]⟩ }
  options := { flowBlocks := true }

theorem codeGraph_renumber_cell : renumberedCell.unit.topLevel = [⟨4⟩, ⟨2⟩, ⟨0⟩] ∧
    renumberedCell.codeGraph = (cellJob true).codeGraph ∧ renumberedCell.unit.sequences = cellUnit.sequences := by
  have hBlock : cellNumbering.flowGraph ⟨[⟨0, [⟨1⟩], none, [some 0]⟩]⟩ = ⟨[⟨0, [⟨2⟩], none, [some 0]⟩]⟩ := by
    decide
  refine ⟨by decide, codeGraph_renumber (cellJob true).frontend renumberedCell.frontend { flowBlocks := true }
    cellUnit cellNumbering fun d _ => ?_⟩
  exact congrArg Except.ok hBlock.symm

end UnitGraph
