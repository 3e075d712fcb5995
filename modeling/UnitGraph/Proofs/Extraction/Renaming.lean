import UnitGraph.Extraction.Sequences
import UnitGraph.Proofs.Extraction.Diagnostics
import UnitGraph.Proofs.Traversal.Renaming

/-!
# Extractions under other names

Two extractions whose entities correspond one to one, in the order in which they are entered, give corresponding
entities the same node identity. If the marks correspond as well and corresponding entities have the same range
and label, then the marks have the same outcomes. So a code graph does not show what its entities are called.
-/
namespace UnitGraph

open Traversal

variable {F : Entity → Entity} {G : DeclId → DeclId}

/-- A mark under the new names of its entity or its declaration. -/
def Mark.map (F : Entity → Entity) (G : DeclId → DeclId) : Mark → Mark
  | .claim e => .claim (F e)
  | .skip d => .skip (G d)
  | .noFlow d error => .noFlow (G d) error

/-- An outcome under the new name of its entity. -/
def Outcome.map (F : Entity → Entity) : Outcome → Outcome
  | .granted e tokens => .granted (F e) tokens
  | .drained count => .drained count
  | .reported d => .reported d

@[simp] theorem reports_map (os : List Outcome) : reports (os.map (Outcome.map F)) = reports os := by
  induction os with
  | nil => rfl
  | cons o os ih =>
      cases o with
      | reported d => exact congrArg (d :: ·) ih
      | _ => exact ih

theorem holdings_map (hF : Function.Injective F) (os : List Outcome) (e : Entity) :
    holdings (os.map (Outcome.map F)) (F e) = holdings os e := by
  induction os with
  | nil => rfl
  | cons o os ih =>
      cases o with
      | granted holder tokens =>
          rw [List.map_cons, holdings, holdings, List.flatMap_cons, List.flatMap_cons]
          refine congrArg₂ _ ?_ ih
          simp only [Outcome.map, hF.eq_iff]
      | _ => exact ih

namespace SourceUnit

/-- The sequences that some marks give: whoever claims, with what it holds when all marks are settled. -/
def sequencesFrom (u : SourceUnit) (ms : List Mark) : SequenceSet where
  functions := ms.filterMap fun
    | .claim e => some ⟨e.label u, holdings (u.settle u.ledger ms) e⟩
    | _ => none
  diagnostics := reports (u.settle u.ledger ms)

theorem sequences_eq_sequencesFrom (u : SourceUnit) : u.sequences = u.sequencesFrom u.sequenceMarks := rfl

/-- The stream is the same, and so are range, label and access of whatever has a new name. -/
structure Relabels (F : Entity → Entity) (G : DeclId → DeclId) (u u' : SourceUnit) : Prop where
  lexemes : u'.lexemes = u.lexemes
  range : ∀ e, (F e).range? u' = e.range? u
  label : ∀ e, (F e).label u' = e.label u
  access : ∀ e, (F e).access = e.access
  declRange : ∀ d, (u'.decl? (G d)).map (·.range) = (u.decl? d).map (·.range)
  declName : ∀ d, u'.nameOf (G d) = u.nameOf d

namespace Relabels

variable {u u' : SourceUnit} (h : Relabels F G u u')
include h

theorem ledger : u'.ledger = u.ledger := congrArg Ledger.ofLexemes h.lexemes

theorem rangeOf_map (m : Mark) : u'.rangeOf (m.map F G) = u.rangeOf m := by
  cases m with
  | claim e => exact h.range e
  | skip d => exact h.declRange d
  | noFlow d error => exact h.declRange d

theorem settleAt_map (l : Ledger) (r : SourceRange) (m : Mark) :
    u'.settleAt l r (m.map F G) = ((u.settleAt l r m).1.map F, (u.settleAt l r m).2) := by
  cases m with
  | claim e =>
      simp only [Mark.map, settleAt, h.access, h.label]
      cases l.claim r e.access <;> rfl
  | skip d =>
      simp only [Mark.map, settleAt, h.declName]
      cases l.discard r <;> rfl
  | noFlow d error =>
      simp only [Mark.map, settleAt, h.declName]
      rfl

/-- The marks have the same outcomes under the new names. -/
theorem settle_map (l : Ledger) (ms : List Mark) :
    u'.settle l (ms.map (Mark.map F G)) = (u.settle l ms).map (Outcome.map F) := by
  induction ms generalizing l with
  | nil => rfl
  | cons m ms ih =>
      rw [List.map_cons, settle, settle, h.rangeOf_map]
      cases u.rangeOf m with
      | none => exact ih l
      | some r =>
          simp only [h.settleAt_map, List.map_cons]
          rw [ih]

theorem sequencesFrom_map (hF : Function.Injective F) (ms : List Mark) :
    u'.sequencesFrom (ms.map (Mark.map F G)) = u.sequencesFrom ms := by
  simp only [sequencesFrom, h.ledger, h.settle_map, reports_map, List.filterMap_map]
  congr 1
  refine List.filterMap_congr fun m _ => ?_
  cases m with
  | claim e => simp only [Function.comp_apply, Mark.map, h.label, holdings_map hF]
  | _ => rfl

end Relabels

end SourceUnit

namespace Job

theorem functions_eq_map_idOf (j : Job) :
    j.codeGraph.functions = (j.topFunctions.map fun f => Entity.function f.1 f.2).map j.idOf := by
  rw [List.map_map]
  rfl

theorem records_eq_map_idOf (j : Job) : j.codeGraph.records = (j.topRecords.map Entity.record).map j.idOf := by
  rw [List.map_map]
  rfl

/-- The entities of two extractions correspond in order, and their nodes, functions and records show so. -/
structure Renames (F : Entity → Entity) (j j' : Job) : Prop where
  injective : Function.Injective F
  entities : j'.entities = j.entities.map F
  nodes : ∀ e ∈ j.entities, ∀ (ids ids' : Entity → NodeId) tokens, (∀ e, ids' (F e) = ids e) →
    j'.nodeOf ids' tokens (F e) = j.nodeOf ids tokens e
  functions : j'.topFunctions.map (fun f => Entity.function f.1 f.2) =
    j.topFunctions.map fun f => F (.function f.1 f.2)
  records : j'.topRecords.map Entity.record = j.topRecords.map fun r => F (.record r)

variable {j j' : Job}

/-- One agenda after another does for the new names what it does for the old ones, and so does the top level,
apart from marks that have been added to it. -/
theorem events_map {items : List (Item Entity Mark)} (hF : Function.Injective F)
    (hAgenda : ∀ e ∈ j.pool, j'.agenda (F e) = (j.agenda e).map (Item.map F (Mark.map F G)))
    (hProgram : j'.program = items.map (Item.map F (Mark.map F G))) (hItems : ∀ e ∈ requested items, e ∈ j.pool) :
    j'.events = (run j.agenda j.pool [] items).map (Event.map F (Mark.map F G)) := by
  have hRenames : Traversal.Renames (· ∈ j.pool) F (Mark.map F G) j.agenda j'.agenda :=
    ⟨j.closed_pool, fun _ _ _ _ => @hF _ _, hAgenda⟩
  rw [events, Traversal.traverse, hProgram]
  refine hRenames.run_map j.closed_pool j'.closed_pool hItems (fun e he => requested_program_pool _ ?_) hItems
    (by simp)
  rw [hProgram, requested_map]
  exact List.mem_map_of_mem he

namespace Renames

variable (h : Renames F j j')
include h

theorem idOf_map (e : Entity) : j'.idOf (F e) = j.idOf e := by
  have hSize : ∀ i : Job, i.registry.size = i.entities.length := fun i =>
    (List.length_map ..).symm.trans (congrArg _ (Registry.keys_ofKeys _ i.entities_nodup))
  have hNode : ∀ id, j'.registry.get? (F e) = some id ↔ j.registry.get? e = some id := by
    intro id
    rw [registry_get?_iff, registry_get?_iff, h.entities, List.getElem?_map]
    cases j.entities[id.index]? <;> simp [h.injective.eq_iff]
  rw [idOf, idOf, hSize, hSize, h.entities, List.length_map, Option.ext hNode]

theorem functions_codeGraph : j'.codeGraph.functions = j.codeGraph.functions := by
  rw [functions_eq_map_idOf, functions_eq_map_idOf, h.functions, List.map_map, List.map_map]
  exact List.map_congr_left fun f _ => h.idOf_map _

theorem records_codeGraph : j'.codeGraph.records = j.codeGraph.records := by
  rw [records_eq_map_idOf, records_eq_map_idOf, h.records, List.map_map, List.map_map]
  exact List.map_congr_left fun r _ => h.idOf_map _

/-- Nodes differ in their tokens at most. -/
theorem arena_get? (x : NodeId) : j'.codeGraph.arena.get? x =
    (j.entities[x.index]?).map fun e => j.nodeOf j.idOf (holdings j'.outcomes (F e)) e := by
  rw [Job.arena_get?, h.entities, List.getElem?_map, Option.map_map]
  cases he : j.entities[x.index]? with
  | none => rfl
  | some e => exact congrArg some (h.nodes e (List.mem_of_getElem? he) _ _ _ h.idOf_map)

theorem arena_eq (hTokens : ∀ e, holdings j'.outcomes (F e) = holdings j.outcomes e) :
    j'.codeGraph.arena = j.codeGraph.arena := by
  refine congrArg Arena.mk (Array.ext_getElem? fun i => ?_)
  have hNode := h.arena_get? ⟨i⟩
  simp only [hTokens] at hNode
  exact hNode.trans (j.arena_get? ⟨i⟩).symm

/-- Entities that hold the same tokens and marks that report the same leave nothing in which the two differ. -/
theorem codeGraph_eq (hTokens : ∀ e, holdings j'.outcomes (F e) = holdings j.outcomes e)
    (hReports : reports j'.outcomes = reports j.outcomes) : j'.codeGraph = j.codeGraph :=
  (CodeGraph.mk.injEq ..).mpr ⟨h.arena_eq hTokens, h.functions_codeGraph, h.records_codeGraph, hReports⟩

end Renames

end Job

end UnitGraph
