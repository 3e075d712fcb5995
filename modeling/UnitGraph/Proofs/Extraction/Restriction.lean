import UnitGraph.Proofs.Extraction.Agreement
import UnitGraph.Proofs.Extraction.Diagnostics
import UnitGraph.Proofs.Graph.Walk

/-!
# Sequences beside the code graph

The marks of the sequences are among those of an extraction, in the same order, and what a mark reports does
not depend on the marks before it. Main statement: the code graph shows the functions of the sequences, reports
whatever they report in the same order, and has a node for each of their tokens.
-/
namespace UnitGraph.Job

open Traversal

variable {j : Job}

theorem diagnostics_sublist (j : Job) : j.unit.sequences.diagnostics.Sublist j.codeGraph.diagnostics := by
  rw [SourceUnit.diagnostics_sequences, diagnostics_eq_filterMap, ← j.filter_marks_events]
  exact List.Sublist.filterMap _ List.filter_sublist

/-- The node of a function that is visited has its name. -/
theorem name_function? {site : Nat} {d : DeclId} {params : List DeclId} {body : StmtId}
    (hVisits : j.Visits site d params body) :
    (j.codeGraph.arena.function? (j.idOf (.function site d))).map (·.name) = some (j.unit.nameOf d) := by
  obtain ⟨decl, hDecl, -⟩ := Option.bind_eq_some_iff.mp hVisits.2
  rw [Arena.function?, arena_get?_idOf (Starts.function hVisits).mem_entities]
  simp [nodeOf, Node.asFunction?, SourceUnit.nameOf, hDecl]

theorem function_names (j : Job) :
    j.codeGraph.functions.map (fun x => (j.codeGraph.arena.function? x).map (·.name)) =
      j.unit.sequences.functions.map fun q => some q.name := by
  have hFunctions : j.codeGraph.functions = j.topFunctions.map fun f => j.idOf (.function f.1 f.2) := rfl
  rw [hFunctions, functions_sequences, List.map_map, List.map_map]
  refine List.map_congr_left fun f hf => ?_
  obtain ⟨params, body, hVisits⟩ := mem_topFunctions_iff.mp hf
  exact name_function? hVisits

/-- On every unit, for every frontend and all options. -/
theorem sequences_within_graph (j : Job) :
    j.codeGraph.functions.map (fun x => (j.codeGraph.arena.function? x).map (·.name)) =
      (j.unit.sequences.functions.map fun q => some q.name) ∧
    j.unit.sequences.diagnostics.Sublist j.codeGraph.diagnostics ∧
    ∀ q ∈ j.unit.sequences.functions, ∀ t ∈ q.tokens,
      ∃ x n, j.codeGraph.arena.get? x = some n ∧ t ∈ n.tokens := by
  refine ⟨j.function_names, j.diagnostics_sublist, ?_⟩
  intro q hq t ht
  rw [functions_sequences] at hq
  obtain ⟨⟨site, d⟩, -, rfl⟩ := List.mem_map.mp hq
  obtain ⟨x, hx⟩ := exists_node_of_sequence ht
  exact ⟨x, Arena.mem_tokensOf_iff.mp hx⟩

end UnitGraph.Job
