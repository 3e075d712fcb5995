import UnitGraph.Proofs.Extraction.Entities
import UnitGraph.Proofs.Unit.InRange

/-!
# Extractions from units in range

If the unit is in range and the blocks of its functions name statements of the unit, then every entity that
an extraction enters is one of the unit's own: a statement or declaration of its tables, a function of its
top level, or a block of such a function.
-/
namespace UnitGraph.Job

open Traversal

/-- The unit is in range, and the blocks of its functions name only statements of the unit. -/
structure InRange (j : Job) : Prop where
  unit : j.unit.InRange
  flow : ∀ d ∈ j.unit.topLevel, ∀ b ∈ j.blocks d, ∀ s ∈ b.statements, s.index < j.unit.stmts.size

variable {j : Job}

/-- No edge leaves the blocks of a function. -/
theorem target_lt_blocks {f : DeclId} {b : FlowBlock} {t : Nat} (hb : b ∈ j.blocks f)
    (ht : t ∈ b.targets) : t < (j.blocks f).length := by
  unfold blocks flow at hb ⊢
  split at hb
  · next hWanted =>
      rw [if_pos hWanted]
      cases hg : j.frontend.flowGraph j.unit f with
      | error e => simp [hg, Except.bind] at hb
      | ok g =>
          simp only [hg, Except.bind, FlowGraph.checked] at hb ⊢
          cases hDangling : g.firstDangling? with
          | some e => simp [hDangling] at hb
          | none =>
              simp only [hDangling] at hb ⊢
              exact FlowGraph.firstDangling?_eq_none_iff.mp hDangling b hb t ht
  · cases hb

namespace InRange

variable (h : j.InRange)
include h

theorem known_of_starts {e : Entity} (he : j.Starts e) : e ∈ j.known := by
  have hKind : ∀ {site d params body}, j.Visits site d params body →
      ∃ decl ∈ j.unit.decls, decl.kind = .function params (some body) := by
    intro site d params body hVisits
    obtain ⟨decl, hDecl, hKind⟩ := Option.map_eq_some_iff.mp (declKind?_of_definition? hVisits.2)
    exact ⟨decl, SourceUnit.mem_decls_of_decl? hDecl, hKind⟩
  cases he with
  | @param site d p params body hVisits hp =>
      obtain ⟨decl, hDecl, hKind⟩ := hKind hVisits
      exact decl_mem_known.mpr (h.unit.declDecls decl hDecl p (by rw [hKind]; exact hp))
  | @body site d params body hVisits =>
      obtain ⟨decl, hDecl, hKind⟩ := hKind hVisits
      exact stmt_mem_known.mpr (h.unit.declBody decl hDecl body (by rw [hKind]; rfl))
  | block hVisits hi => exact block_mem_known.mpr ⟨List.mem_of_getElem? hVisits.1, hi⟩
  | function hVisits => exact function_mem_known.mpr hVisits.1
  | record hd _ _ => exact record_mem_known.mpr (h.unit.recordDefinition_lt (h.unit.topLevel _ hd))

theorem known_of_asks {e e' : Entity} (he : e ∈ j.known) (hAsks : j.Asks e e') : e' ∈ j.known := by
  cases hAsks with
  | child hs hc => exact stmt_mem_known.mpr (h.unit.stmtChildren _ (Array.mem_of_getElem? hs) _ hc)
  | mention hs hd => exact decl_mem_known.mpr (h.unit.stmtDecls _ (Array.mem_of_getElem? hs) _ hd)
  | valueRecord hr => exact record_mem_known.mpr (h.unit.recordOf?_lt hr)
  | valueAlias ha => exact typedef_mem_known.mpr (h.unit.aliasOf?_lt ha)
  | fieldRecord _ hr => exact record_mem_known.mpr (h.unit.referencedRecord_lt hr)
  | fieldSignature _ hr => exact record_mem_known.mpr (h.unit.signatureRecords_lt hr)
  | fieldAlias _ ha => exact typedef_mem_known.mpr (h.unit.referencedAlias_lt ha)
  | fieldEnum _ hc => exact enum_mem_known.mpr (h.unit.namedEnum_lt hc)
  | blockStmt hb hs =>
      have hTop := (block_mem_known.mp he).1
      exact stmt_mem_known.mpr (h.flow _ hTop _ (List.mem_of_getElem? hb) _ hs)
  | blockTarget hb ht =>
      have hTop := (block_mem_known.mp he).1
      exact block_mem_known.mpr ⟨hTop, target_lt_blocks (List.mem_of_getElem? hb) ht⟩

theorem known_of_mem_entities {e : Entity} (he : e ∈ j.entities) : e ∈ j.known :=
  forall_entities (fun _ => h.known_of_starts) (fun _ _ => h.known_of_asks) e he

end InRange

end UnitGraph.Job

namespace UnitGraph

/-- The unit of a cell, from a frontend whose flow graphs are a single block that loops. -/
def cellJob (flowBlocks : Bool) : Job where
  unit := cellUnit
  frontend := { parse := fun _ => .ok cellUnit, flowGraph := fun _ _ => .ok ⟨[⟨0, [⟨1⟩], none, [some 0]⟩]⟩ }
  options := { flowBlocks := flowBlocks }

theorem cellJob_inRange (flowBlocks : Bool) : (cellJob flowBlocks).InRange := by
  refine ⟨cellUnit_inRange, ?_⟩
  cases flowBlocks <;> decide

end UnitGraph
