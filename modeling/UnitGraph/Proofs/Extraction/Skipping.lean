import Mathlib.Data.List.Forall2
import UnitGraph.Proofs.Extraction.Draining
import UnitGraph.Proofs.Extraction.Exclusivity
import UnitGraph.Proofs.Extraction.Renaming
import UnitGraph.Proofs.Extraction.Sequences
import UnitGraph.Proofs.Extraction.TopLevel

/-!
# A skipped function among the others

One more skipped function at top level moves the functions after it one place on and leaves one more mark; all
else is asked for and claimed as before, in the same order. Main statement: the code graph and the sequences stay
as they are, apart from tokens in the slots of the skipped function, or from one report if its range is faulty.
-/
namespace UnitGraph

open Traversal

/-- The node with other tokens; a block has none. -/
def Node.withTokens (tokens : List Token) : Node → Node
  | .decl n => .decl { n with tokens := tokens }
  | .stmt n => .stmt { n with tokens := tokens }
  | .record n => .record { n with tokens := tokens }
  | .enum n => .enum { n with tokens := tokens }
  | .typedef n => .typedef { n with tokens := tokens }
  | .block n => .block n
  | .function n => .function { n with tokens := tokens }

/-- How one more skipped function shows in a code graph: nodes lose tokens at most, and only those in its slots;
if its range is faulty, a report about it is all that shows. -/
structure CodeGraph.WithSkipped (u : SourceUnit) (d : DeclId) (g g' : CodeGraph) : Prop where
  size : g'.arena.size = g.arena.size
  nodes : ∀ x n, g.arena.get? x = some n → ∃ tokens, g'.arena.get? x = some (n.withTokens tokens) ∧
    (tokens = n.tokens ∨ n.isDefinition = false ∧ tokens = u.outside d n.tokens)
  functions : g'.functions = g.functions
  records : g'.records = g.records
  faulty : ∀ report, u.lookupFault? (.decl d) = some report → report.code = .tokenLookup ∧
    g'.arena = g.arena ∧ ∃ before after, g.diagnostics = before ++ after ∧ g'.diagnostics = before ++ report :: after
  resolvable : u.lookupFault? (.decl d) = none → g'.diagnostics = g.diagnostics

/-- How one more skipped function shows in the sequences of a unit. -/
structure SequenceSet.WithSkipped (u : SourceUnit) (d : DeclId) (s s' : SequenceSet) : Prop where
  functions : List.Forall₂ (fun f f' => f'.name = f.name ∧
    (f'.tokens = f.tokens ∨ f'.tokens = u.outside d f.tokens)) s.functions s'.functions
  faulty : ∀ report, u.lookupFault? (.decl d) = some report → s'.functions = s.functions ∧
    ∃ before after, s.diagnostics = before ++ after ∧ s'.diagnostics = before ++ report :: after
  resolvable : u.lookupFault? (.decl d) = none → s'.diagnostics = s.diagnostics

/-- The entity that a function becomes when one more declaration stands at a position of the top level. -/
def Entity.shift (n : Nat) : Entity → Entity
  | .function site d => .function (if site < n then site else site + 1) d
  | .stmt s => .stmt s
  | .decl d => .decl d
  | .record d => .record d
  | .enum d => .enum d
  | .typedef d => .typedef d
  | .block f i => .block f i

theorem Entity.shift_injective (n : Nat) : Function.Injective (Entity.shift n) := by
  intro e e' h
  cases e <;> cases e' <;> simp only [shift, reduceCtorEq, Entity.function.injEq] at h ⊢ <;> try exact h
  obtain ⟨hSite, hDecl⟩ := h
  refine ⟨?_, hDecl⟩
  split at hSite <;> split at hSite <;> omega

/-- The places of declarations when one more stands among them. -/
theorem zipIdx_insert {α : Type} (p q : List α) (a : α) :
    (p ++ a :: q).zipIdx =
      p.zipIdx.map (fun x => (x.1, if x.2 < p.length then x.2 else x.2 + 1)) ++ (a, p.length) ::
        (q.zipIdx p.length).map (fun x => (x.1, if x.2 < p.length then x.2 else x.2 + 1)) := by
  rw [List.zipIdx_append, Nat.zero_add, List.zipIdx_cons, List.zipIdx_succ]
  congr 1
  · refine (List.map_id _).symm.trans (List.map_congr_left fun x hx => ?_)
    have := (List.mem_zipIdx_iff_getElem?.mp hx)
    have hlt := (List.getElem?_eq_some_iff.mp this).1
    rw [if_pos hlt]
    rfl
  · congr 1
    refine List.map_congr_left fun x hx => ?_
    rw [if_neg (Nat.not_lt.mpr (List.le_snd_of_mem_zipIdx hx))]

theorem SourceUnit.relabels_shift (u : SourceUnit) (ds : List DeclId) (n : Nat) :
    Relabels (Entity.shift n) id u (u.withTopLevel ds) where
  lexemes := rfl
  range e := by cases e <;> rfl
  label e := by cases e <;> rfl
  access e := by cases e <;> rfl
  declRange _ := rfl
  declName _ := rfl

theorem SourceUnit.fieldEntities_shift (u : SourceUnit) (n : Nat) (t : TypeId) :
    (u.fieldEntities t).map (Entity.shift n) = u.fieldEntities t := by
  simp only [fieldEntities, List.map_append, List.map_map]
  rfl

/-- Whoever claims among some marks, in order. -/
def claimants (ms : List Mark) : List Entity :=
  ms.filterMap fun
    | .claim e => some e
    | _ => none

theorem mem_claimants {ms : List Mark} {e : Entity} : e ∈ claimants ms ↔ .claim e ∈ ms := by
  rw [claimants, List.mem_filterMap]
  constructor
  · intro h
    obtain ⟨m, hm, hEq⟩ := h
    cases m with
    | claim e' =>
        cases hEq
        exact hm
    | _ => cases hEq
  · intro h
    exact ⟨_, h, rfl⟩

theorem claimants_insert (before after : List Mark) (d : DeclId) :
    claimants (before ++ .skip d :: after) = claimants (before ++ after) := by
  simp [claimants]

namespace SourceUnit

variable {u : SourceUnit} {before after : List Mark} {d : DeclId}

theorem functions_sequencesFrom (u : SourceUnit) (ms : List Mark) : (u.sequencesFrom ms).functions =
    (claimants ms).map fun e => ⟨e.label u, holdings (u.settle u.ledger ms) e⟩ := by
  rw [claimants, List.map_filterMap]
  refine List.filterMap_congr fun m _ => ?_
  cases m <;> rfl

theorem functions_sequencesFrom_insert (h : ∀ e, .claim e ∈ before ++ after →
      holdings (u.settle u.ledger (before ++ .skip d :: after)) e =
        holdings (u.settle u.ledger (before ++ after)) e) :
    (u.sequencesFrom (before ++ .skip d :: after)).functions = (u.sequencesFrom (before ++ after)).functions := by
  rw [functions_sequencesFrom, functions_sequencesFrom, claimants_insert]
  refine List.map_congr_left fun e he => ?_
  rw [h e (mem_claimants.mp he)]

theorem diagnostics_sequencesFrom_insert (u : SourceUnit) (before after : List Mark) (d : DeclId) :
    ∃ ds ds', (u.sequencesFrom (before ++ after)).diagnostics = ds ++ ds' ∧
      (u.sequencesFrom (before ++ .skip d :: after)).diagnostics =
        ds ++ ((u.lookupFault? (.decl d)).toList ++ ds') := by
  refine ⟨before.filterMap u.report?, after.filterMap u.report?, ?_, ?_⟩
  · exact (reports_settle rfl _).trans (List.filterMap_append ..)
  · exact (reports_insert before after d).trans (List.append_assoc ..)

/-- One more skipped function among marks of functions. -/
theorem sequencesFrom_insert (hAccess : ∀ e, .claim e ∈ before ++ after → e.access = .exclusive) :
    SequenceSet.WithSkipped u d (u.sequencesFrom (before ++ after))
      (u.sequencesFrom (before ++ .skip d :: after)) := by
  obtain ⟨ds, ds', hBefore, hAfter⟩ := u.diagnostics_sequencesFrom_insert before after d
  constructor
  case functions =>
      rw [functions_sequencesFrom, functions_sequencesFrom, claimants_insert, List.forall₂_map_left_iff,
        List.forall₂_map_right_iff, List.forall₂_same]
      intro e he
      refine ⟨rfl, ?_⟩
      exact (holdings_insert (.inl (hAccess e (mem_claimants.mp he)))).imp id And.right
  case faulty =>
      intro report hReport
      refine ⟨functions_sequencesFrom_insert fun e he => ?_, ds, ds', hBefore, ?_⟩
      · rcases holdings_insert (.inl (hAccess e he)) with hSame | ⟨-, hOutside⟩
        · exact hSame
        · rw [hOutside, outside_of_lookupFault hReport]
      · rw [hAfter, hReport]
        rfl
  case resolvable =>
      intro hNone
      rw [hAfter, hBefore, hNone]
      rfl

theorem sequenceMark?_shift (u : SourceUnit) (n site : Nat) (d : DeclId) :
    u.sequenceMark? (if site < n then site else site + 1) d =
      (u.sequenceMark? site d).map (Mark.map (Entity.shift n) id) := by
  rw [sequenceMark?, sequenceMark?]
  cases u.decl? d with
  | none => rfl
  | some decl =>
      simp only [Option.bind_some]
      cases decl.kind with
      | function params body => cases decl.definition? <;> rfl
      | _ => rfl

theorem sequenceMarks_insert {p q : List DeclId} {g : DeclId} (hTop : u.topLevel = p ++ q)
    (hSkipped : u.Skipped g) : ∃ before after, u.sequenceMarks = before ++ after ∧
      (u.withTopLevel (p ++ g :: q)).sequenceMarks =
        (before ++ .skip g :: after).map (Mark.map (Entity.shift p.length) id) := by
  have hTopLevel : (u.withTopLevel (p ++ g :: q)).topLevel = p ++ g :: q := rfl
  have hMark : (u.withTopLevel (p ++ g :: q)).sequenceMark? = u.sequenceMark? := rfl
  have hSkip : u.sequenceMark? p.length g = some (.skip g) := sequenceMark?_eq_some_iff.mpr (.inr ⟨hSkipped, rfl⟩)
  refine ⟨p.zipIdx.filterMap fun x => u.sequenceMark? x.2 x.1,
    (q.zipIdx p.length).filterMap fun x => u.sequenceMark? x.2 x.1, ?_, ?_⟩
  · rw [sequenceMarks, hTop, List.zipIdx_append, Nat.zero_add, List.filterMap_append]
  · rw [sequenceMarks, hTopLevel, hMark, zipIdx_insert]
    simp only [List.filterMap_append, List.filterMap_cons, hSkip, List.filterMap_map, List.map_append,
      List.map_cons, List.map_filterMap, Function.comp_def, sequenceMark?_shift]
    rfl

end SourceUnit

namespace Job

variable {j : Job}

/-- A line of an agenda when one more declaration stands at top level. -/
def shiftItem (n : Nat) : Item Entity Mark → Item Entity Mark :=
  Item.map (Entity.shift n) (Mark.map (Entity.shift n) id)

theorem flowAgenda_shift (j : Job) (n : Nat) (d : DeclId) :
    (j.flowAgenda d).map (shiftItem n) = j.flowAgenda d := by
  rw [flowAgenda]
  split
  · cases j.flow d with
    | error e => rfl
    | ok g =>
        rw [List.map_map]
        rfl
  · rfl

theorem functionAgenda_shift (j : Job) (n site : Nat) (d : DeclId) (params : List DeclId) (body : StmtId) :
    j.functionAgenda (if site < n then site else site + 1) d params body =
      (j.functionAgenda site d params body).map (shiftItem n) := by
  simp only [functionAgenda, List.map_append, List.map_flatMap, flowAgenda_shift]
  rfl

theorem siteAgenda_shift (j : Job) (n site : Nat) (d : DeclId) :
    j.siteAgenda (if site < n then site else site + 1) d = (j.siteAgenda site d).map (shiftItem n) :=
  siteAgenda_map rfl rfl (j.functionAgenda_shift n site d) rfl fun _ => rfl

theorem agenda_shift (j : Job) (n : Nat) (e : Entity) :
    j.agenda (e.shift n) = (j.agenda e).map (shiftItem n) := by
  cases e with
  | stmt s =>
      simp only [agenda, Entity.shift]
      cases j.unit.stmt? s with
      | none => rfl
      | some stmt =>
          simp only [List.map_append, List.map_map]
          rfl
  | decl d =>
      simp only [agenda, Entity.shift, List.map_append, List.map_map]
      rfl
  | record d =>
      simp only [agenda, Entity.shift, List.map_cons, List.map_flatMap]
      refine congrArg _ (List.flatMap_congr fun t _ => ?_)
      conv => lhs; rw [← SourceUnit.fieldEntities_shift j.unit n t]
      rw [List.map_map, List.map_map]
      rfl
  | block f i =>
      simp only [agenda, Entity.shift]
      cases j.block? f i with
      | none => rfl
      | some b =>
          simp only [List.map_append, List.map_map]
          rfl
  | _ => rfl

/-- What a node shows does not depend on where functions stand. -/
theorem nodeOf_shift {n : Nat} {ids ids' : Entity → NodeId} (hIds : ∀ e, ids' (Entity.shift n e) = ids e)
    (tokens : List Token) (e : Entity) : j.nodeOf ids' tokens (e.shift n) = j.nodeOf ids tokens e := by
  have hStmt : ∀ s, ids' (.stmt s) = ids (.stmt s) := fun s => hIds (.stmt s)
  have hDecl : ∀ d, ids' (.decl d) = ids (.decl d) := fun d => hIds (.decl d)
  have hRecord : ∀ d, ids' (.record d) = ids (.record d) := fun d => hIds (.record d)
  have hEnum : ∀ d, ids' (.enum d) = ids (.enum d) := fun d => hIds (.enum d)
  have hTypedef : ∀ d, ids' (.typedef d) = ids (.typedef d) := fun d => hIds (.typedef d)
  have hBlock : ∀ f i, ids' (.block f i) = ids (.block f i) := fun f i => hIds (.block f i)
  cases e <;> simp only [nodeOf, Entity.shift, hStmt, hDecl, hRecord, hEnum, hTypedef, hBlock]

theorem nodeOf_withTokens (ids : Entity → NodeId) (tokens tokens' : List Token) (e : Entity) :
    (j.nodeOf ids tokens e).withTokens tokens' = j.nodeOf ids tokens' e := by
  cases e <;> rfl

/-- The tokens of a node are what its entity holds; a block holds nothing. -/
theorem tokens_nodeOf_holdings (ids : Entity → NodeId) (e : Entity) :
    (j.nodeOf ids (holdings j.outcomes e) e).tokens = holdings j.outcomes e := by
  obtain hTokens | ⟨f, i, rfl⟩ := j.tokens_nodeOf ids (holdings j.outcomes e) e
  · exact hTokens
  · refine (SourceUnit.holdings_settle_of_not_mem (fun hm => ?_) _).symm
    cases claim_mem_marks_iff.mp hm with
    | itself _ hOwn => cases hOwn

theorem isDefinition_of_exclusive {ids : Entity → NodeId} {tokens : List Token} {e : Entity}
    (he : e.access = .exclusive) : (j.nodeOf ids tokens e).isDefinition = false := by
  cases e <;> first | rfl | cases he

section Inserted
variable {p q : List DeclId} {g : DeclId} (hTop : j.unit.topLevel = p ++ q) (hSkipped : j.unit.Skipped g)
  (hFlow : ∀ d ∈ p ++ q, j.SameFlow (p ++ g :: q) d)
include hTop hSkipped hFlow

omit hTop in
/-- The agenda of the top level has one more mark, where the function is skipped. -/
theorem program_insert : (j.withTopLevel (p ++ g :: q)).program =
    (j.programFrom 0 p ++ Item.mark (.skip g) :: j.programFrom p.length q).map (shiftItem p.length) := by
  have hSite : ∀ x ∈ p ++ q, ∀ site, (j.withTopLevel (p ++ g :: q)).siteAgenda
      (if site < p.length then site else site + 1) x = (j.siteAgenda site x).map (shiftItem p.length) := by
    intro x hx site
    rw [siteAgenda_withTopLevel (hFlow x hx), siteAgenda_shift]
  have hSkip : (j.withTopLevel (p ++ g :: q)).siteAgenda p.length g = [.mark (.skip g)] :=
    siteAgenda_of_skipped (j := j.withTopLevel (p ++ g :: q)) hSkipped p.length
  have hTopLevel : (j.withTopLevel (p ++ g :: q)).unit.topLevel = p ++ g :: q := rfl
  simp only [program, hTopLevel, zipIdx_insert, List.flatMap_append, List.flatMap_cons, hSkip, List.flatMap_map,
    List.map_append, List.map_cons, programFrom, List.map_flatMap]
  refine congrArg₂ _ ?_ (congrArg _ ?_)
  · exact List.flatMap_congr fun x hx => hSite x.1 (List.mem_append_left _ (List.fst_mem_of_mem_zipIdx hx)) x.2
  · exact List.flatMap_congr fun x hx => hSite x.1 (List.mem_append_right _ (List.fst_mem_of_mem_zipIdx hx)) x.2

/-- The same is entered and marked in the same order, apart from the mark of the skipped function. -/
theorem events_insert : ∃ before after, j.events = before ++ after ∧
    (j.withTopLevel (p ++ g :: q)).events = (before ++ .marked (.skip g) :: after).map
      (Event.map (Entity.shift p.length) (Mark.map (Entity.shift p.length) id)) := by
  have hProgram : j.program = j.programFrom 0 p ++ j.programFrom p.length q := by
    rw [program_eq_programFrom, hTop, programFrom_append, Nat.zero_add]
  refine ⟨run j.agenda j.pool [] (j.programFrom 0 p), run j.agenda j.pool
    ((entered (run j.agenda j.pool [] (j.programFrom 0 p))).reverse ++ []) (j.programFrom p.length q), ?_, ?_⟩
  · rw [events, Traversal.traverse, hProgram, run_append]
  · have hAgenda : ∀ e ∈ j.pool, (j.withTopLevel (p ++ g :: q)).agenda (e.shift p.length) =
        (j.agenda e).map (shiftItem p.length) := by
      intro e he
      rw [← agenda_shift]
      refine agenda_withTopLevel fun f hf => hFlow f ?_
      rw [← hTop]
      refine topLevel_of_flowOwner he ?_
      cases e <;> exact hf
    have hItems : ∀ e ∈ requested (j.programFrom 0 p ++ Item.mark (.skip g) :: j.programFrom p.length q),
        e ∈ j.pool := by
      intro e he
      refine requested_program_pool e ?_
      rw [hProgram]
      simpa using he
    rw [events_map (Entity.shift_injective _) hAgenda (program_insert hSkipped hFlow) hItems,
      run_append, run_mark]

omit hFlow in
theorem topFunctions_insert : (j.withTopLevel (p ++ g :: q)).topFunctions =
    j.topFunctions.map fun f => (if f.1 < p.length then f.1 else f.1 + 1, f.2) := by
  have hNone : (j.unit.decl? g).bind Decl.definition? = none := hSkipped.2
  have hTopLevel : (j.withTopLevel (p ++ g :: q)).unit.topLevel = p ++ g :: q := rfl
  have hDecl : (j.withTopLevel (p ++ g :: q)).unit.decl? = j.unit.decl? := rfl
  rw [topFunctions, topFunctions, hTopLevel, hTop, hDecl, zipIdx_insert, List.zipIdx_append, Nat.zero_add]
  simp only [List.filterMap_append, List.filterMap_cons, hNone, Option.map_none, List.filterMap_map,
    List.map_append, List.map_filterMap, Option.map_map]
  rfl

omit hFlow in
theorem topRecords_insert : (j.withTopLevel (p ++ g :: q)).topRecords = j.topRecords := by
  obtain ⟨⟨params, body, hKind⟩, -⟩ := hSkipped
  have hTopLevel : (j.withTopLevel (p ++ g :: q)).unit.topLevel = p ++ g :: q := rfl
  have hDecl : (j.withTopLevel (p ++ g :: q)).unit.declKind? = j.unit.declKind? := rfl
  simp only [topRecords, hTopLevel, hTop, hDecl, List.filterMap_append, List.filterMap_cons, hKind]
  rfl

theorem renames_insert : Renames (Entity.shift p.length) j (j.withTopLevel (p ++ g :: q)) where
  injective := Entity.shift_injective _
  entities := by
    obtain ⟨before, after, hEvents, hEvents'⟩ := events_insert hTop hSkipped hFlow
    rw [entities, entities, hEvents, hEvents', entered_map, entered_append, entered_append, entered_cons_marked]
  nodes e he ids ids' tokens hIds := by
    rw [← nodeOf_shift hIds tokens e]
    refine nodeOf_withTopLevel (fun f hf => hFlow f ?_) ids' tokens
    rw [← hTop]
    refine topLevel_of_flowOwner (mem_pool_of_mem_entities he) ?_
    cases e <;> exact hf
  functions := by
    rw [topFunctions_insert hTop hSkipped, List.map_map]
    rfl
  records := by
    rw [topRecords_insert hTop hSkipped]
    rfl

theorem outcomes_insert : ∃ before after, marks j.events = before ++ after ∧
    (j.withTopLevel (p ++ g :: q)).outcomes =
      (j.unit.settle j.unit.ledger (before ++ .skip g :: after)).map (Outcome.map (Entity.shift p.length)) := by
  obtain ⟨before, after, hEvents, hEvents'⟩ := events_insert hTop hSkipped hFlow
  refine ⟨marks before, marks after, by rw [hEvents, marks_append], ?_⟩
  rw [outcomes, hEvents', marks_map, marks_append, marks_cons_marked]
  exact (j.unit.relabels_shift _ _).settle_map _ _

theorem holdings_withSkipped (e : Entity) :
    holdings (j.withTopLevel (p ++ g :: q)).outcomes (e.shift p.length) = holdings j.outcomes e ∨
      e.access = .exclusive ∧ holdings (j.withTopLevel (p ++ g :: q)).outcomes (e.shift p.length) =
        j.unit.outside g (holdings j.outcomes e) := by
  obtain ⟨before, after, hMarks, hOutcomes⟩ := outcomes_insert hTop hSkipped hFlow
  rw [hOutcomes, holdings_map (Entity.shift_injective _), outcomes, hMarks]
  refine SourceUnit.holdings_insert ?_
  cases he : e.access with
  | exclusive => exact .inl rfl
  | shared => exact .inr (hMarks ▸ count_claim_le_one he)

theorem diagnostics_withSkipped : ∃ ds ds', j.codeGraph.diagnostics = ds ++ ds' ∧
    (j.withTopLevel (p ++ g :: q)).codeGraph.diagnostics =
      ds ++ ((j.unit.lookupFault? (.decl g)).toList ++ ds') := by
  obtain ⟨before, after, hMarks, hOutcomes⟩ := outcomes_insert hTop hSkipped hFlow
  refine ⟨before.filterMap j.unit.report?, after.filterMap j.unit.report?, ?_, ?_⟩
  · rw [diagnostics_eq_filterMap, hMarks, List.filterMap_append]
  · have hReports : (j.withTopLevel (p ++ g :: q)).codeGraph.diagnostics =
        reports (j.withTopLevel (p ++ g :: q)).outcomes := rfl
    rw [hReports, hOutcomes, reports_map, SourceUnit.reports_insert, List.append_assoc]

theorem withSkipped_codeGraph :
    CodeGraph.WithSkipped j.unit g j.codeGraph (j.withTopLevel (p ++ g :: q)).codeGraph := by
  have hRenames := renames_insert hTop hSkipped hFlow
  have hHoldings := holdings_withSkipped hTop hSkipped hFlow
  obtain ⟨ds, ds', hBefore, hAfter⟩ := diagnostics_withSkipped hTop hSkipped hFlow
  constructor
  case size => rw [size_arena, size_arena, hRenames.entities, List.length_map]
  case nodes =>
      intro x n hn
      obtain ⟨e, he, rfl⟩ := exists_entity hn
      refine ⟨holdings (j.withTopLevel (p ++ g :: q)).outcomes (e.shift p.length), ?_, ?_⟩
      · rw [hRenames.arena_get?, registry_get?_iff.mp he, nodeOf_withTokens]
        rfl
      · rw [tokens_nodeOf_holdings]
        exact (hHoldings e).imp id (And.imp_left isDefinition_of_exclusive)
  case functions => exact hRenames.functions_codeGraph
  case records => exact hRenames.records_codeGraph
  case faulty =>
      intro report hReport
      refine ⟨SourceUnit.code_of_lookupFault? hReport, hRenames.arena_eq fun e => ?_, ds, ds', hBefore, ?_⟩
      · rcases hHoldings e with hSame | ⟨-, hOutside⟩
        · exact hSame
        · rw [hOutside, SourceUnit.outside_of_lookupFault hReport]
      · rw [hAfter, hReport]
        rfl
  case resolvable =>
      intro hNone
      rw [hAfter, hBefore, hNone]
      rfl

omit hFlow in
theorem sequences_insert : ∃ before after, j.unit.sequenceMarks = before ++ after ∧
    (j.unit.withTopLevel (p ++ g :: q)).sequences = j.unit.sequencesFrom (before ++ .skip g :: after) := by
  obtain ⟨before, after, hMarks, hMarks'⟩ := SourceUnit.sequenceMarks_insert hTop hSkipped
  refine ⟨before, after, hMarks, ?_⟩
  rw [SourceUnit.sequences_eq_sequencesFrom, hMarks']
  exact (j.unit.relabels_shift _ _).sequencesFrom_map (Entity.shift_injective _) _

omit hTop hSkipped hFlow in
/-- Only functions that stand at top level claim for sequences, and they claim in an extraction, too. -/
theorem claims_of_mem_sequenceMarks {e : Entity} (h : .claim e ∈ j.unit.sequenceMarks) :
    j.Claims e ∧ e.access = .exclusive := by
  obtain ⟨site, d, hSite, ⟨hDef, hEq⟩ | ⟨-, hEq⟩⟩ := SourceUnit.mem_sequenceMarks.mp h
  · obtain ⟨definition, hDef⟩ := Option.isSome_iff_exists.mp hDef
    have hVisits : j.Visits site d definition.1 definition.2 := ⟨hSite, hDef⟩
    cases hEq
    exact ⟨.function hVisits, rfl⟩
  · cases hEq

omit hFlow in
theorem withSkipped_sequences :
    SequenceSet.WithSkipped j.unit g j.unit.sequences (j.unit.withTopLevel (p ++ g :: q)).sequences := by
  obtain ⟨before, after, hMarks, hSequences⟩ := sequences_insert hTop hSkipped
  rw [hSequences, SourceUnit.sequences_eq_sequencesFrom, hMarks]
  exact SourceUnit.sequencesFrom_insert fun e he => (claims_of_mem_sequenceMarks (hMarks ▸ he)).2

section Disjoint
variable (hNone : j.unit.lookupFault? (.decl g) = none)
  (hDisjoint : ∀ e, j.Claims e → e.access = .exclusive →
    ∀ i, j.unit.takes (.claim e) i = true → j.unit.takes (.skip g) i = false)
include hNone hDisjoint

theorem codeGraph_insert_of_disjoint : (j.withTopLevel (p ++ g :: q)).codeGraph = j.codeGraph := by
  obtain ⟨before, after, hMarks, hOutcomes⟩ := outcomes_insert hTop hSkipped hFlow
  refine (renames_insert hTop hSkipped hFlow).codeGraph_eq (fun e => ?_)
    ((withSkipped_codeGraph hTop hSkipped hFlow).resolvable hNone)
  rw [hOutcomes, holdings_map (Entity.shift_injective _), outcomes, hMarks]
  refine SourceUnit.holdings_insert_of_disjoint ?_ fun hm => hDisjoint e (claim_mem_marks_iff.mp (hMarks ▸ hm))
  cases he : e.access with
  | exclusive => exact .inl rfl
  | shared => exact .inr (hMarks ▸ count_claim_le_one he)

omit hFlow in
theorem sequences_insert_of_disjoint :
    (j.unit.withTopLevel (p ++ g :: q)).sequences = j.unit.sequences := by
  have hReports := (withSkipped_sequences hTop hSkipped).resolvable hNone
  obtain ⟨before, after, hMarks, hSequences⟩ := sequences_insert hTop hSkipped
  rw [hSequences, SourceUnit.sequences_eq_sequencesFrom, hMarks] at hReports ⊢
  refine (SequenceSet.mk.injEq ..).mpr ⟨SourceUnit.functions_sequencesFrom_insert fun e he => ?_, hReports⟩
  obtain ⟨hClaims, hAccess⟩ := claims_of_mem_sequenceMarks (hMarks ▸ he)
  exact SourceUnit.holdings_insert_of_disjoint (.inl hAccess) fun _ => hDisjoint e hClaims

end Disjoint

end Inserted

/-- On every unit and at every place of its top level. The slots of a skipped function are of no account if no
entity that takes tokens for itself claims any of them. -/
theorem skipped_function_inserted (j : Job) (p q : List DeclId) (g : DeclId) (hTop : j.unit.topLevel = p ++ q)
    (hSkipped : j.unit.Skipped g)
    (hFlow : ∀ d ∈ p ++ q,
      j.frontend.flowGraph (j.unit.withTopLevel (p ++ g :: q)) d = j.frontend.flowGraph j.unit d) :
    CodeGraph.WithSkipped j.unit g j.codeGraph (j.withTopLevel (p ++ g :: q)).codeGraph ∧
    SequenceSet.WithSkipped j.unit g j.unit.sequences (j.unit.withTopLevel (p ++ g :: q)).sequences ∧
    (j.unit.lookupFault? (.decl g) = none →
      (∀ e, j.Claims e → e.access = .exclusive →
        ∀ i, j.unit.takes (.claim e) i = true → j.unit.takes (.skip g) i = false) →
      (j.withTopLevel (p ++ g :: q)).codeGraph = j.codeGraph ∧
        (j.unit.withTopLevel (p ++ g :: q)).sequences = j.unit.sequences) := by
  refine ⟨withSkipped_codeGraph hTop hSkipped hFlow, withSkipped_sequences hTop hSkipped, ?_⟩
  intro hNone hDisjoint
  exact ⟨codeGraph_insert_of_disjoint hTop hSkipped hFlow hNone hDisjoint,
    sequences_insert_of_disjoint hTop hSkipped hNone hDisjoint⟩

theorem skipped_function_inserted_cell : cellUnit.Skipped ⟨4⟩ ∧
    CodeGraph.WithSkipped cellUnit ⟨4⟩ (cellJob true).codeGraph
      ((cellJob true).withTopLevel [⟨0⟩, ⟨4⟩, ⟨2⟩, ⟨4⟩]).codeGraph := by
  have hSkipped : cellUnit.Skipped ⟨4⟩ := ⟨⟨[], none, rfl⟩, rfl⟩
  exact ⟨hSkipped, (skipped_function_inserted (cellJob true) [⟨0⟩] [⟨2⟩, ⟨4⟩] ⟨4⟩ rfl hSkipped fun _ _ => rfl).1⟩

end Job

end UnitGraph
