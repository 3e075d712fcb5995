import UnitGraph.Proofs.Extraction.Canonical

/-!
# Extractions with another top level

The top level of a unit says where an extraction starts and in which order; what an entity asks for and what its
node shows depends on the tables alone, and on the control flow that the frontend tells of. The agenda of a top
level is that of its parts, one after the other.
-/
namespace UnitGraph

open Traversal

/-- The unit with other declarations at top level. -/
def SourceUnit.withTopLevel (u : SourceUnit) (ds : List DeclId) : SourceUnit := { u with topLevel := ds }

/-- Marks have the same outcomes, whatever stands at top level. -/
theorem SourceUnit.settle_withTopLevel (u : SourceUnit) (ds : List DeclId) (l : Ledger) (ms : List Mark) :
    (u.withTopLevel ds).settle l ms = u.settle l ms := by
  induction ms generalizing l with
  | nil => rfl
  | cons m ms ih =>
      have hRange : (u.withTopLevel ds).rangeOf m = u.rangeOf m := by cases m <;> rfl
      have hStep : ∀ r, (u.withTopLevel ds).settleAt l r m = u.settleAt l r m := fun r => by cases m <;> rfl
      rw [settle, settle, hRange]
      cases u.rangeOf m with
      | none => exact ih l
      | some r => simp only [hStep, ih]

/-- The function whose control flow has a say in an entity. -/
def Entity.flowOwner? : Entity → Option DeclId
  | .block f _ | .function _ f => some f
  | .stmt _ | .decl _ | .record _ | .enum _ | .typedef _ => none

namespace Job

/-- The extraction from the unit with other declarations at top level. -/
def withTopLevel (j : Job) (ds : List DeclId) : Job := { j with unit := j.unit.withTopLevel ds }

/-- The frontend tells of the same control flow, whatever stands at top level. -/
def SameFlow (j : Job) (ds : List DeclId) (d : DeclId) : Prop :=
  j.frontend.flowGraph (j.unit.withTopLevel ds) d = j.frontend.flowGraph j.unit d

/-- The agenda of declarations that stand at top level from a position on. -/
def programFrom (j : Job) (start : Nat) (ds : List DeclId) : List (Item Entity Mark) :=
  (ds.zipIdx start).flatMap fun (d, site) => j.siteAgenda site d

variable {j : Job} {ds : List DeclId} {d : DeclId} {e : Entity}

@[simp] theorem options_withTopLevel (j : Job) (ds : List DeclId) : (j.withTopLevel ds).options = j.options := rfl

theorem program_eq_programFrom (j : Job) : j.program = j.programFrom 0 j.unit.topLevel := rfl

theorem programFrom_append (j : Job) (start : Nat) (xs ys : List DeclId) :
    j.programFrom start (xs ++ ys) = j.programFrom start xs ++ j.programFrom (start + xs.length) ys := by
  rw [programFrom, List.zipIdx_append, List.flatMap_append]
  rfl

theorem flow_withTopLevel (h : j.SameFlow ds d) : (j.withTopLevel ds).flow d = j.flow d :=
  congrArg (Except.bind · FlowGraph.checked) h

theorem blocks_withTopLevel (h : j.SameFlow ds d) : (j.withTopLevel ds).blocks d = j.blocks d := by
  rw [blocks, blocks, flow_withTopLevel h]
  rfl

theorem block?_withTopLevel (h : j.SameFlow ds d) (i : Nat) :
    (j.withTopLevel ds).block? d i = j.block? d i := by
  rw [block?, block?, blocks_withTopLevel h]

theorem siteAgenda_withTopLevel (h : j.SameFlow ds d) (site : Nat) :
    (j.withTopLevel ds).siteAgenda site d = j.siteAgenda site d := by
  have hFlow : (j.withTopLevel ds).flowAgenda d = j.flowAgenda d := by
    rw [flowAgenda, flowAgenda, flow_withTopLevel h]
    rfl
  have hFunction : (j.withTopLevel ds).functionAgenda site d = j.functionAgenda site d := by
    funext params body
    rw [functionAgenda, functionAgenda, hFlow]
  rw [siteAgenda, siteAgenda, hFunction]
  rfl

theorem programFrom_withTopLevel {xs : List DeclId} (h : ∀ d ∈ xs, j.SameFlow ds d) (start : Nat) :
    (j.withTopLevel ds).programFrom start xs = j.programFrom start xs := by
  refine List.flatMap_congr fun x hx => ?_
  exact siteAgenda_withTopLevel (h x.1 (List.fst_mem_of_mem_zipIdx hx)) x.2

theorem agenda_withTopLevel (h : ∀ f, e.flowOwner? = some f → j.SameFlow ds f) :
    (j.withTopLevel ds).agenda e = j.agenda e := by
  cases e with
  | block f i =>
      rw [agenda, agenda, block?_withTopLevel (h f rfl)]
  | _ => rfl

theorem nodeOf_withTopLevel (h : ∀ f, e.flowOwner? = some f → j.SameFlow ds f) (ids : Entity → NodeId)
    (tokens : List Token) : (j.withTopLevel ds).nodeOf ids tokens e = j.nodeOf ids tokens e := by
  cases e with
  | block f i =>
      rw [nodeOf, nodeOf, block?_withTopLevel (h f rfl)]
  | function site f =>
      rw [nodeOf, nodeOf, blocks_withTopLevel (h f rfl)]
      rfl
  | _ => rfl

/-- The control flow that has a say in an entity is that of a function of the top level. -/
theorem topLevel_of_flowOwner {f : DeclId} (he : e ∈ j.pool) (hf : e.flowOwner? = some f) :
    f ∈ j.unit.topLevel := by
  cases e with
  | block f' i =>
      cases hf
      exact topLevel_of_block_mem_pool he
  | function site f' =>
      cases hf
      simp only [pool, List.mem_append, List.mem_flatMap] at he
      obtain (he | he) | ⟨e, -, he⟩ := he
      · exact List.mem_of_getElem? (function_mem_known.mp he)
      · cases mem_requested_program.mp he with
        | function hVisits => exact List.mem_of_getElem? hVisits.1
      · cases mem_requested_agenda.mp he
  | _ => cases hf

end Job

end UnitGraph
