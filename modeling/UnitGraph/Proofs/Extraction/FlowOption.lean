import Mathlib.Data.List.NodupEquivFin
import UnitGraph.Proofs.Extraction.Diagnostics
import UnitGraph.Proofs.Extraction.Flow
import UnitGraph.Proofs.Labelled.Embedding

/-!
# The control-flow option

Main statement: control flow adds blocks to a code graph, the lists of them to its functions, and the reports of
what is missing to its diagnostics. Everything else is as it is without, under identities that leave room for the
blocks, and so are the labelled graphs that do not show control flow.
-/
namespace UnitGraph

open Traversal

namespace SourceUnit

variable (u : SourceUnit)

/-- That a function has no control flow takes no tokens and gives none. -/
theorem holdings_filter_noFlow (l : Ledger) (ms : List Mark) (e : Entity) :
    holdings (u.settle l (ms.filter (!·.isNoFlow))) e = holdings (u.settle l ms) e := by
  induction ms generalizing l with
  | nil => rfl
  | cons m ms ih =>
      cases m with
      | noFlow d error =>
          rw [settle]
          cases u.rangeOf (.noFlow d error) with
          | none => exact ih l
          | some r => exact ih l
      | _ =>
          rw [List.filter_cons_of_pos rfl, settle, settle]
          split
          · exact ih l
          · exact congrArg (_ ++ ·) (ih _)

/-- Without the warnings about control flow, the reports are those of the other marks. -/
theorem filterMap_report?_noFlow (ms : List Mark) :
    (ms.filter (!·.isNoFlow)).filterMap u.report? = (ms.filterMap u.report?).filter
      fun d => d.code ≠ .flowUnsupported ∧ d.code ≠ .flowMalformed := by
  have hCode : ∀ d : Diagnostic, (d.code ≠ .flowUnsupported ∧ d.code ≠ .flowMalformed) ↔ d.code = .tokenLookup := by
    intro d
    cases d.code <;> simp
  have hMark : ∀ m : Mark, (if (!m.isNoFlow) = true then u.report? m else none) = u.lookupReport? m := by
    intro m
    cases m <;> rfl
  simp only [List.filterMap_filter, List.filter_filterMap, hCode, filter_report?_lookup, hMark]

end SourceUnit

namespace Job

variable {j : Job} {e : Entity}

theorem nodeOf_withFlow (he : e.isBlock = false) (ids : Entity → NodeId) (tokens : List Token) :
    ((j.withFlow true).nodeOf ids tokens e).withoutBlocks = (j.withFlow false).nodeOf ids tokens e := by
  cases e with
  | block f i => cases he
  | _ => rfl

theorem isBlock_nodeOf (ids : Entity → NodeId) (tokens : List Token) :
    (j.nodeOf ids tokens e).isBlock = e.isBlock := by
  cases e <;> rfl

section Flow
variable (hBelow : (j.withFlow true).FlowBelow)
include hBelow

theorem isBlock_of_withoutFlow (he : e ∈ (j.withFlow false).entities) :
    e.isBlock = false ∧ e ∈ (j.withFlow true).entities := by
  rw [entities_withFlow hBelow, List.mem_filter] at he
  exact ⟨by simpa using he.2, he.1⟩

theorem holdings_withFlow (e : Entity) :
    holdings (j.withFlow true).outcomes e = holdings (j.withFlow false).outcomes e := by
  rw [outcomes, outcomes, marks_withFlow hBelow]
  exact (j.unit.holdings_filter_noFlow _ _ e).symm

theorem diagnostics_withFlow : (j.withFlow false).codeGraph.diagnostics =
    (j.withFlow true).codeGraph.diagnostics.filter
      fun d => d.code ≠ .flowUnsupported ∧ d.code ≠ .flowMalformed := by
  rw [diagnostics_eq_filterMap, diagnostics_eq_filterMap, marks_withFlow hBelow]
  exact j.unit.filterMap_report?_noFlow _

/-- The entities met without control flow are met with it, in the same order. -/
theorem exists_renaming : ∃ ρ : NodeId → NodeId, (∀ x y, x.index < y.index → (ρ x).index < (ρ y).index) ∧
    ∀ x : NodeId, (j.withFlow true).entities[(ρ x).index]? = (j.withFlow false).entities[x.index]? := by
  have hSublist : (j.withFlow false).entities.Sublist (j.withFlow true).entities := by
    rw [entities_withFlow hBelow]
    exact List.filter_sublist
  obtain ⟨f, hf⟩ := List.sublist_iff_exists_orderEmbedding_getElem?_eq.mp hSublist
  exact ⟨fun x => ⟨f x.index⟩, fun _ _ => f.lt_iff_lt.mpr, fun x => (hf x.index).symm⟩

section Renaming
variable {ρ : NodeId → NodeId}
  (hAt : ∀ x : NodeId, (j.withFlow true).entities[(ρ x).index]? = (j.withFlow false).entities[x.index]?)
include hAt

omit hBelow in
theorem idOf_withFlow (he : e ∈ (j.withFlow false).entities) :
    (j.withFlow true).idOf e = ρ ((j.withFlow false).idOf e) :=
  idOf_of_registry (registry_get?_iff.mpr ((hAt _).trans (registry_get?_iff.mp (registry_idOf he))))

/-- Corresponding nodes are equal, apart from the blocks of functions. -/
theorem nodes_withFlow (x : NodeId) : ((j.withFlow true).codeGraph.arena.get? (ρ x)).map Node.withoutBlocks =
    ((j.withFlow false).codeGraph.arena.get? x).map (Node.mapIds ρ) := by
  rw [arena_get?, arena_get?, hAt, Option.map_map, Option.map_map]
  cases he : (j.withFlow false).entities[x.index]? with
  | none => rfl
  | some e =>
      have hMem := List.mem_of_getElem? he
      refine congrArg some ?_
      rw [Function.comp_apply, nodeOf_withFlow (isBlock_of_withoutFlow hBelow hMem).1, holdings_withFlow hBelow]
      exact nodeOf_mapIds (fun e he => idOf_withFlow hAt he) hMem _

/-- The nodes that correspond to one without control flow are those that are no blocks. -/
theorem range_withFlow (y : NodeId) :
    (∃ n, (j.withFlow true).codeGraph.arena.get? y = some n ∧ n.isBlock = false) ↔
      ∃ x ∈ (j.withFlow false).codeGraph.arena.ids, ρ x = y := by
  constructor
  · rintro ⟨n, hn, hNot⟩
    obtain ⟨e, he, rfl⟩ := exists_entity hn
    rw [isBlock_nodeOf] at hNot
    have hMem : e ∈ (j.withFlow false).entities := by
      rw [entities_withFlow hBelow, List.mem_filter]
      exact ⟨mem_entities_of_registry he, by rw [hNot]; rfl⟩
    exact ⟨_, Arena.mem_ids_iff.mpr ⟨_, arena_get?_idOf hMem⟩,
      (idOf_withFlow hAt hMem).symm.trans (idOf_of_registry he)⟩
  · rintro ⟨x, hx, rfl⟩
    obtain ⟨n, hn⟩ := Arena.mem_ids_iff.mp hx
    obtain ⟨e, he, -⟩ := exists_entity hn
    have hMem := mem_entities_of_registry he
    obtain ⟨hNot, hMem'⟩ := isBlock_of_withoutFlow hBelow hMem
    rw [← idOf_of_registry he, ← idOf_withFlow hAt hMem]
    exact ⟨_, arena_get?_idOf hMem', (isBlock_nodeOf ..).trans hNot⟩

end Renaming

theorem exists_embeds :
    ∃ ρ, CodeGraph.Embeds ρ (j.withFlow false).codeGraph (j.withFlow true).codeGraph := by
  obtain ⟨ρ, hMono, hAt⟩ := exists_renaming hBelow
  exact ⟨ρ, hMono, nodes_withFlow hBelow hAt, range_withFlow hBelow hAt,
    functions_mapIds fun e he => idOf_withFlow hAt he, records_mapIds fun e he => idOf_withFlow hAt he⟩

end Flow

theorem links_of_child {s c : StmtId} (hs : .stmt s ∈ j.entities) (h : Relation.ReflTransGen j.unit.Child s c) :
    Relation.ReflTransGen j.codeGraph.arena.Links (j.idOf (.stmt s)) (j.idOf (.stmt c)) := by
  induction h with
  | refl => exact .refl
  | tail hReach hChild ih =>
      obtain ⟨stmt, hStmt, hMem⟩ := hChild
      exact ih.tail (links_of_asks (stmt_mem_entities_of_child hs hReach) (.child hStmt hMem))

/-- A block that a function node lists is the node of one of its blocks. -/
theorem block_of_function_node {x b : NodeId} {n : FunctionNode} {m : BlockNode}
    (hn : j.codeGraph.arena.get? x = some (.function n)) (hb : b ∈ n.blocks)
    (hm : j.codeGraph.arena.get? b = some (.block m)) :
    ∃ site d params body block, j.Visits site d params body ∧ n.entry = j.idOf (.stmt body) ∧
      n.blocks = (List.range (j.blocks d).length).map (j.idOf <| .block d ·) ∧ block ∈ j.blocks d ∧
      m.statements = block.statements.map (j.idOf <| .stmt ·) ∧
      m.successors = block.targets.map (j.idOf <| .block d ·) := by
  obtain ⟨site, d, params, body, -, hVisits, -, hEntry, hBlocks⟩ := visits_of_function_node hn
  rw [hBlocks] at hb
  obtain ⟨i, hi, rfl⟩ := List.mem_map.mp hb
  have hi := List.mem_range.mp hi
  have hBlock : j.block? d i = some (j.blocks d)[i] := List.getElem?_eq_getElem hi
  have hNode := arena_get?_idOf (Starts.block hVisits hi).mem_entities
  simp only [nodeOf, hBlock, Option.getD_some] at hNode
  cases hm.symm.trans hNode
  exact ⟨site, d, params, body, _, hVisits, hEntry, hBlocks, List.getElem_mem _, rfl, rfl⟩

/-- If the blocks of a function name statements below its body, then their nodes lead to the nodes of these. -/
theorem FlowBelow.arena (h : j.FlowBelow) : j.codeGraph.arena.FlowBelow where
  successors := by
    intro x b n m hn hb hm y hy
    obtain ⟨site, d, params, body, block, -, -, hBlocks, hBlock, -, hSuccessors⟩ := block_of_function_node hn hb hm
    rw [hSuccessors] at hy
    obtain ⟨t, ht, rfl⟩ := List.mem_map.mp hy
    rw [hBlocks]
    exact List.mem_map_of_mem (List.mem_range.mpr (target_lt_blocks hBlock ht))
  statements := by
    intro x b n m hn hb hm y hy
    obtain ⟨site, d, params, body, block, hVisits, hEntry, -, hBlock, hStatements, -⟩ :=
      block_of_function_node hn hb hm
    rw [hStatements] at hy
    obtain ⟨s, hs, rfl⟩ := List.mem_map.mp hy
    rw [hEntry]
    exact links_of_child (Starts.body hVisits).mem_entities (h site d params body hVisits block hBlock s hs)

/-- On every unit, for every frontend whose flow graphs name only statements below the body of their function. -/
theorem flow_only_adds_blocks (j : Job) (hBelow : (j.withFlow true).FlowBelow) :
    ∃ ρ, CodeGraph.Embeds ρ (j.withFlow false).codeGraph (j.withFlow true).codeGraph ∧
      (j.withFlow false).codeGraph.diagnostics = (j.withFlow true).codeGraph.diagnostics.filter
        (fun d => d.code ≠ .flowUnsupported ∧ d.code ≠ .flowMalformed) ∧
      ∀ flavor ∈ [Flavor.ast, .astData],
        (j.withFlow true).codeGraph.labelled flavor = ((j.withFlow false).codeGraph.labelled flavor).mapIds ρ ∧
        ((j.withFlow true).codeGraph.labelled flavor).nodes.map (·.label) =
          ((j.withFlow false).codeGraph.labelled flavor).nodes.map (·.label) ∧
        ((j.withFlow true).codeGraph.labelled flavor).positionedEdges =
          ((j.withFlow false).codeGraph.labelled flavor).positionedEdges := by
  obtain ⟨ρ, hEmbeds⟩ := exists_embeds hBelow
  refine ⟨ρ, hEmbeds, diagnostics_withFlow hBelow, ?_⟩
  intro flavor hFlavor
  have hPlain : flavor.includes .cfg = false ∧ flavor.includes .token = false := by
    simp only [List.mem_cons, List.not_mem_nil, or_false] at hFlavor
    rcases hFlavor with rfl | rfl <;> exact ⟨rfl, rfl⟩
  have hLabelled := hEmbeds.labelled (wellFormed_codeGraph _) (wellFormed_codeGraph _) hBelow.arena hPlain.1 hPlain.2
  rw [hLabelled]
  exact ⟨rfl, LabelledGraph.labels_mapIds _, LabelledGraph.positionedEdges_mapIds hEmbeds.injective _⟩

theorem forkJob_flowBelow : (forkJob.withFlow true).FlowBelow := by
  intro site d params body hVisits b hb s hs
  have hVisits : (cellJob true).Visits site d params body := hVisits
  obtain ⟨-, rfl, -, rfl⟩ := cellJob_visits hVisits
  have hListed : ∀ b ∈ (forkJob.withFlow true).blocks ⟨2⟩, ∀ s ∈ b.statements, s = ⟨1⟩ ∨ s = ⟨2⟩ := by decide
  have hReturn : Relation.ReflTransGen cellUnit.Child ⟨0⟩ ⟨1⟩ := .single ⟨_, rfl, List.mem_cons_self⟩
  rcases hListed b hb s hs with rfl | rfl
  · exact hReturn
  · exact hReturn.tail ⟨_, rfl, List.mem_cons_self⟩

/-- Two blocks are added, and the last node makes room for them. -/
theorem flow_only_adds_blocks_fork : (forkJob.withFlow true).FlowBelow ∧
    (forkJob.withFlow false).codeGraph.arena.size = 6 ∧ (forkJob.withFlow true).codeGraph.arena.size = 8 ∧
    ∃ ρ, CodeGraph.Embeds ρ (forkJob.withFlow false).codeGraph (forkJob.withFlow true).codeGraph ∧
      ((forkJob.withFlow true).codeGraph.labelled .astData).nodes.map (·.label) =
        ((forkJob.withFlow false).codeGraph.labelled .astData).nodes.map (·.label) := by
  obtain ⟨ρ, hEmbeds, -, hLabelled⟩ := flow_only_adds_blocks forkJob forkJob_flowBelow
  exact ⟨forkJob_flowBelow, by decide, by decide, ρ, hEmbeds, (hLabelled .astData (by decide)).2.1⟩

end Job

end UnitGraph
