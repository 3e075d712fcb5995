import UnitGraph.Proofs.Assembly.History
import UnitGraph.Proofs.Extraction.Identities
import UnitGraph.Proofs.Extraction.Renaming
import UnitGraph.Proofs.Extraction.TopLevel

/-!
# Extractions from a growing top level

The extraction from a first part of the top level is where the extraction from the whole begins: its events are
the first ones of the whole. What an entity has claimed it keeps, so that later functions add to the tokens of
declarations only, namely of their parameters. Main statement: the code graph of a first part is the first part
of the code graph, apart from such tokens.
-/
namespace UnitGraph.Job

open Traversal

variable {j : Job} {p q : List DeclId} {e : Entity} {h : History}

/-- An entity that has claimed holds what it will hold in the end. -/
theorem held_final (hr : j.Reached h) (hm : .claim e ∈ marks h) : j.held h e = holdings j.outcomes e := by
  cases he : e.access with
  | shared => exact held_of_claimed (count_claim_le_one he) hr hm
  | exclusive =>
      obtain ⟨rest, hRest⟩ := hr
      have hLater : holdings (j.unit.settle (j.unit.settledLedger j.unit.ledger (marks h)) (marks rest)) e = [] := by
        rw [SourceUnit.holdings_exclusive (SourceUnit.tokens_settledLedger rfl _) he, List.filter_eq_nil_iff]
        intro t _ ht
        obtain ⟨hFree, hFirst⟩ := of_decide_eq_true ht
        have hTaken := (SourceUnit.takenAt_settledLedger rfl (marks h) t.index).mpr
          (.inr ⟨_, hm, SourceUnit.takes_of_firstTaker? hFirst⟩)
        rw [hTaken] at hFree
        cases hFree
      rw [held, outcomes, ← hRest, marks_append, SourceUnit.settle_append, SourceUnit.holdings_append, hLater,
        List.append_nil]

section Initial
variable (hTop : j.unit.topLevel = p ++ q) (hFlow : ∀ d ∈ p, j.SameFlow p d)
include hTop hFlow

theorem reached_withTopLevel : j.Reached (j.withTopLevel p).events := by
  have hProgram : j.program = (j.withTopLevel p).program ++ j.programFrom (0 + p.length) q := by
    rw [program_eq_programFrom, program_eq_programFrom, hTop, programFrom_append]
    exact congrArg (· ++ _) (programFrom_withTopLevel hFlow 0).symm
  have hPool : ∀ b ∈ requested (j.withTopLevel p).program, b ∈ j.pool := by
    intro b hb
    refine requested_program_pool b ?_
    rw [hProgram, requested_append]
    exact List.mem_append_left _ hb
  have hAgenda : ∀ e ∈ (j.withTopLevel p).pool, j.agenda e = (j.withTopLevel p).agenda e := by
    intro e he
    exact (agenda_withTopLevel fun f hf => hFlow f (topLevel_of_flowOwner he hf)).symm
  have hRun : run j.agenda j.pool [] (j.withTopLevel p).program = (j.withTopLevel p).events :=
    run_congr (P := (· ∈ (j.withTopLevel p).pool)) (j.withTopLevel p).closed_pool j.closed_pool
      (j.withTopLevel p).closed_pool hAgenda requested_program_pool hPool requested_program_pool (by simp)
  rw [Reached, ← hRun, events, Traversal.traverse, hProgram, run_append]
  exact List.prefix_append ..

theorem registry_withTopLevel {x : NodeId} (he : (j.withTopLevel p).registry.get? e = some x) :
    j.registry.get? e = some x := by
  obtain ⟨rest, hRest⟩ := (reached_withTopLevel hTop hFlow).entered_initial
  have hAt := registry_get?_iff.mp he
  rw [registry_get?_iff, ← hRest]
  exact (List.getElem?_append_left (List.getElem?_eq_some_iff.mp hAt).1).trans hAt

theorem idOf_withTopLevel (he : e ∈ (j.withTopLevel p).entities) : j.idOf e = (j.withTopLevel p).idOf e :=
  idOf_of_registry (registry_withTopLevel hTop hFlow (registry_idOf he))

omit hTop hFlow in
/-- What is met and is no declaration claims, if at all, before the later functions come to turn. -/
theorem claim_mem_marks_withTopLevel (he : e ∈ (j.withTopLevel p).entities) (hDecl : ∀ d, e ≠ .decl d)
    (hm : .claim e ∈ marks j.events) : .claim e ∈ marks (j.withTopLevel p).events := by
  refine claim_mem_marks_iff.mpr ?_
  cases claim_mem_marks_iff.mp hm with
  | @param site d p params body hVisits hp => exact absurd rfl (hDecl p)
  | function _ =>
      obtain ⟨params, body, hVisits⟩ := visits_of_mem_entities he
      exact .function hVisits
  | itself _ hOwn =>
      refine .itself he ?_
      cases e <;> exact hOwn

omit hFlow in
/-- A declaration that has not claimed yet does so only as a parameter of a later function. -/
theorem param_of_claim {d : DeclId} (hm : .claim (.decl d) ∈ marks j.events)
    (hNot : .claim (.decl d) ∉ marks (j.withTopLevel p).events) :
    ∃ f ∈ q, ∃ params body, j.unit.definition? f = some (params, body) ∧ d ∈ params := by
  cases claim_mem_marks_iff.mp hm with
  | itself _ hOwn => cases hOwn
  | @param site f _ params body hVisits hp =>
      obtain ⟨hSite, hDef⟩ := hVisits
      refine ⟨f, ?_, params, body, hDef, hp⟩
      rw [hTop] at hSite
      by_cases hlt : site < p.length
      · rw [List.getElem?_append_left hlt] at hSite
        have hVisits : (j.withTopLevel p).Visits site f params body := ⟨hSite, hDef⟩
        exact absurd (claim_mem_marks_iff.mpr (.param hVisits hp)) hNot
      · rw [List.getElem?_append_right (Nat.le_of_not_lt hlt)] at hSite
        exact List.mem_of_getElem? hSite

/-- What an entity holds stays as it is, unless it is a declaration that holds nothing yet. -/
theorem holdings_withTopLevel (he : e ∈ (j.withTopLevel p).entities) :
    holdings j.outcomes e = holdings (j.withTopLevel p).outcomes e ∨
      ∃ d, e = .decl d ∧ holdings (j.withTopLevel p).outcomes e = [] ∧
        ∃ f ∈ q, ∃ params body, j.unit.definition? f = some (params, body) ∧ d ∈ params := by
  have hHeld : j.held (j.withTopLevel p).events e = holdings (j.withTopLevel p).outcomes e :=
    congrArg (holdings · e) (j.unit.settle_withTopLevel p _ _).symm
  have hReached := reached_withTopLevel hTop hFlow
  rw [← hHeld]
  by_cases hm : .claim e ∈ marks (j.withTopLevel p).events
  · exact .inl (held_final hReached hm).symm
  · rw [held_of_not_claimed hm]
    by_cases hLater : .claim e ∈ marks j.events
    · right
      cases e with
      | decl d => exact ⟨d, rfl, rfl, param_of_claim hTop hLater hm⟩
      | _ => exact absurd (claim_mem_marks_withTopLevel he nofun hLater) hm
    · exact .inl (SourceUnit.holdings_settle_of_not_mem hLater _)

/-- A node of the first part is a node of the whole, but for the tokens of a declaration that holds none yet. -/
theorem get?_withTopLevel {x : NodeId} {n : Node} (hn : (j.withTopLevel p).codeGraph.arena.get? x = some n) :
    j.codeGraph.arena.get? x = some n ∨
      ∃ d m tokens, j.registry.get? (.decl d) = some x ∧ n = .decl m ∧ m.tokens = [] ∧
        j.codeGraph.arena.get? x = some (.decl { m with tokens := tokens }) ∧
        ∃ f ∈ q, ∃ params body, j.unit.definition? f = some (params, body) ∧ d ∈ params := by
  obtain ⟨e, he, rfl⟩ := exists_entity hn
  have hMem := mem_entities_of_registry he
  have hNode : ∀ tokens, j.nodeOf j.idOf tokens e = (j.withTopLevel p).nodeOf (j.withTopLevel p).idOf tokens e := by
    intro tokens
    have hLinks := nodeOf_congr (fun e he => idOf_withTopLevel hTop hFlow he) hMem tokens
    refine (nodeOf_withTopLevel (fun f hf => ?_) j.idOf tokens).symm.trans hLinks
    have hOwner : f ∈ (j.withTopLevel p).unit.topLevel := topLevel_of_flowOwner (mem_pool_of_mem_entities hMem) hf
    exact hFlow f hOwner
  have hWhole := registry_withTopLevel hTop hFlow he
  rw [arena_get?_of_registry hWhole, hNode]
  rcases holdings_withTopLevel hTop hFlow hMem with hTokens | ⟨d, rfl, hNone, hParam⟩
  · rw [hTokens]
    exact .inl rfl
  · exact .inr ⟨d, _, _, hWhole, rfl, hNone, rfl, hParam⟩

omit hFlow in
theorem topFunctions_withTopLevel : (j.withTopLevel p).topFunctions <+: j.topFunctions := by
  rw [topFunctions, topFunctions, hTop, List.zipIdx_append, List.filterMap_append]
  exact List.prefix_append ..

omit hFlow in
theorem topRecords_withTopLevel : (j.withTopLevel p).topRecords <+: j.topRecords := by
  rw [topRecords, topRecords, hTop, List.filterMap_append, options_withTopLevel]
  by_cases hWanted : j.options.visitRecords = true
  · rw [if_pos hWanted, if_pos hWanted, List.eraseDups_append]
    exact List.prefix_append ..
  · simp only [if_neg hWanted, List.prefix_rfl]

theorem functions_withTopLevel : (j.withTopLevel p).codeGraph.functions <+: j.codeGraph.functions := by
  have hIds := functions_mapIds (ρ := id) fun e he => idOf_withTopLevel hTop hFlow he
  rw [List.map_id] at hIds
  rw [← hIds]
  exact (topFunctions_withTopLevel hTop).map _

theorem records_withTopLevel : (j.withTopLevel p).codeGraph.records <+: j.codeGraph.records := by
  have hIds := records_mapIds (ρ := id) fun e he => idOf_withTopLevel hTop hFlow he
  rw [List.map_id] at hIds
  rw [← hIds]
  exact (topRecords_withTopLevel hTop).map _

theorem diagnostics_withTopLevel : (j.withTopLevel p).codeGraph.diagnostics <+: j.codeGraph.diagnostics := by
  rw [diagnostics_eq_filterMap, diagnostics_eq_filterMap]
  exact ((reached_withTopLevel hTop hFlow).filterMap _).filterMap _

end Initial

/-- On every unit, for every frontend that tells of the same control flow of the functions of the first part. -/
theorem codeGraph_of_initial_topLevel (j : Job) (p q : List DeclId) (hTop : j.unit.topLevel = p ++ q)
    (hFlow : ∀ d ∈ p, j.frontend.flowGraph (j.unit.withTopLevel p) d = j.frontend.flowGraph j.unit d) :
    (∀ x n, (j.withTopLevel p).codeGraph.arena.get? x = some n →
      j.codeGraph.arena.get? x = some n ∨
        ∃ d m tokens, j.registry.get? (.decl d) = some x ∧ n = .decl m ∧ m.tokens = [] ∧
          j.codeGraph.arena.get? x = some (.decl { m with tokens := tokens }) ∧
          ∃ f ∈ q, ∃ params body, j.unit.definition? f = some (params, body) ∧ d ∈ params) ∧
    (j.withTopLevel p).codeGraph.functions <+: j.codeGraph.functions ∧
    (j.withTopLevel p).codeGraph.records <+: j.codeGraph.records ∧
    (j.withTopLevel p).codeGraph.diagnostics <+: j.codeGraph.diagnostics :=
  ⟨fun _ _ => get?_withTopLevel hTop hFlow, functions_withTopLevel hTop hFlow,
    records_withTopLevel hTop hFlow, diagnostics_withTopLevel hTop hFlow⟩

theorem codeGraph_of_initial_topLevel_cell : (cellJob true).unit.topLevel = [⟨0⟩, ⟨2⟩] ++ [⟨4⟩] ∧
    ((cellJob true).withTopLevel [⟨0⟩, ⟨2⟩]).codeGraph.functions <+: (cellJob true).codeGraph.functions ∧
    ((cellJob true).withTopLevel [⟨0⟩, ⟨2⟩]).codeGraph.records <+: (cellJob true).codeGraph.records := by
  obtain ⟨-, hFunctions, hRecords, -⟩ :=
    codeGraph_of_initial_topLevel (cellJob true) [⟨0⟩, ⟨2⟩] [⟨4⟩] rfl fun _ _ => rfl
  exact ⟨rfl, hFunctions, hRecords⟩

end UnitGraph.Job
