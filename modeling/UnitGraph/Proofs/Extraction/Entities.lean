import Mathlib.Data.List.Nodup
import UnitGraph.Proofs.Extraction.Agenda

/-!
# The entities of an extraction

The pool is closed on every unit, so the laws of a traversal hold of every extraction. No entity is entered
twice; what the top level or an entity asks for is entered; and the claims met are those of the entities
entered that claim at all.
-/
namespace UnitGraph.Job

open Traversal

variable {j : Job}

@[simp] theorem stmt_mem_known {s : StmtId} : .stmt s ∈ j.known ↔ s.index < j.unit.stmts.size := by
  cases s
  simp [known]

@[simp] theorem decl_mem_known {d : DeclId} : .decl d ∈ j.known ↔ d.index < j.unit.decls.size := by
  cases d
  simp [known]

@[simp] theorem record_mem_known {d : DeclId} : .record d ∈ j.known ↔ d.index < j.unit.decls.size := by
  cases d
  simp [known]

@[simp] theorem enum_mem_known {d : DeclId} : .enum d ∈ j.known ↔ d.index < j.unit.decls.size := by
  cases d
  simp [known]

@[simp] theorem typedef_mem_known {d : DeclId} :
    .typedef d ∈ j.known ↔ d.index < j.unit.decls.size := by
  cases d
  simp [known]

@[simp] theorem block_mem_known {f : DeclId} {i : Nat} :
    .block f i ∈ j.known ↔ f ∈ j.unit.topLevel ∧ i < (j.blocks f).length := by
  simp [known]

@[simp] theorem function_mem_known {site : Nat} {d : DeclId} :
    .function site d ∈ j.known ↔ j.unit.topLevel[site]? = some d := by
  simp only [known, List.mem_append, List.mem_map, List.mem_range, List.mem_flatMap, List.mem_cons,
    List.mem_zipIdx_iff_getElem?, reduceCtorEq, and_false, exists_false, false_or, or_false,
    List.not_mem_nil, Prod.exists, Entity.function.injEq]
  constructor
  · intro h
    obtain ⟨d, site, h, rfl, rfl⟩ := h
    exact h
  · intro h
    exact ⟨d, site, h, rfl, rfl⟩

/-- Only blocks ask for blocks, and those are blocks of the same function. -/
theorem topLevel_of_block_mem_pool {f : DeclId} {i : Nat} (h : .block f i ∈ j.pool) :
    f ∈ j.unit.topLevel := by
  simp only [pool, List.mem_append, List.mem_flatMap] at h
  obtain (h | h) | ⟨e, he, h⟩ := h
  · exact (block_mem_known.mp h).1
  · cases mem_requested_program.mp h with
    | block hVisits _ => exact List.mem_of_getElem? hVisits.1
  · cases mem_requested_agenda.mp h with
    | blockTarget hb ht => exact (block_mem_known.mp he).1

/-- Whatever lies outside the tables asks for nothing. -/
theorem known_of_asks {e e' : Entity} (he : e ∈ j.pool) (h : j.Asks e e') : e ∈ j.known := by
  have hStmt : ∀ {s stmt}, j.unit.stmt? s = some stmt → .stmt s ∈ j.known := fun hs =>
    stmt_mem_known.mpr (Array.getElem?_eq_some_iff.mp hs).1
  have hValue : ∀ {d t}, j.unit.valueType? d = some t → .decl d ∈ j.known := by
    intro d t ht
    obtain ⟨decl, hd, _⟩ := Option.bind_eq_some_iff.mp ht
    exact decl_mem_known.mpr (Array.getElem?_eq_some_iff.mp hd).1
  have hField : ∀ {d t}, t ∈ j.unit.fieldTypes d → .record d ∈ j.known := by
    intro d t ht
    unfold SourceUnit.fieldTypes at ht
    split at ht
    · next hk =>
        obtain ⟨decl, hd, _⟩ := Option.map_eq_some_iff.mp hk
        exact record_mem_known.mpr (Array.getElem?_eq_some_iff.mp hd).1
    · cases ht
  have hBlock : ∀ {f i b}, .block f i ∈ j.pool → j.block? f i = some b → .block f i ∈ j.known := by
    intro f i b hPool hb
    exact block_mem_known.mpr ⟨topLevel_of_block_mem_pool hPool, (List.getElem?_eq_some_iff.mp hb).1⟩
  cases h with
  | child hs _ => exact hStmt hs
  | mention hs _ => exact hStmt hs
  | valueRecord hr =>
      obtain ⟨t, ht, _⟩ := Option.bind_eq_some_iff.mp hr
      exact hValue ht
  | valueAlias ha =>
      obtain ⟨t, ht, _⟩ := Option.bind_eq_some_iff.mp ha
      exact hValue ht
  | fieldRecord ht _ => exact hField ht
  | fieldSignature ht _ => exact hField ht
  | fieldAlias ht _ => exact hField ht
  | fieldEnum ht _ => exact hField ht
  | blockStmt hb _ => exact hBlock he hb
  | blockTarget hb _ => exact hBlock he hb

/-- No agenda leads out of the pool, also on a unit whose references leave its tables. -/
theorem closed_pool (j : Job) : Closed j.agenda j.pool := by
  intro e he e' he'
  have hKnown := known_of_asks he (mem_requested_agenda.mp he')
  exact List.mem_append_right _ (List.mem_flatMap.mpr ⟨e, hKnown, he'⟩)

theorem requested_program_pool : ∀ e ∈ requested j.program, e ∈ j.pool := by
  intro e he
  exact List.mem_append_left _ (List.mem_append_right _ he)

theorem entities_nodup (j : Job) : j.entities.Nodup :=
  (entered_run_nodup j.closed_pool requested_program_pool).1

theorem Starts.mem_entities {e : Entity} (h : j.Starts e) : e ∈ j.entities :=
  (mem_entered_of_requested j.closed_pool requested_program_pool e
    (mem_requested_program.mpr h)).resolve_left (by simp)

theorem Asks.mem_entities {e e' : Entity} (h : j.Asks e e') (he : e ∈ j.entities) : e' ∈ j.entities :=
  (mem_entered_of_entered j.closed_pool requested_program_pool e he e'
    (mem_requested_agenda.mpr h)).resolve_left (by simp)

/-- Induction over the entities met: those of the top level, and those asked for by others. -/
theorem forall_entities {P : Entity → Prop} (hi : ∀ e, j.Starts e → P e)
    (hp : ∀ e e', P e → j.Asks e e' → P e') : ∀ e ∈ j.entities, P e :=
  forall_entered_run j.closed_pool (fun e he e' he' => hp e e' he (mem_requested_agenda.mp he'))
    requested_program_pool fun e he => hi e (mem_requested_program.mp he)

theorem mem_pool_of_mem_entities {e : Entity} (he : e ∈ j.entities) : e ∈ j.pool :=
  forall_entities (fun e he => requested_program_pool e (mem_requested_program.mpr he))
    (fun e e' he hAsks => j.closed_pool e he e' (mem_requested_agenda.mpr hAsks)) e he

theorem marks_events_perm (j : Job) : (marks j.events).Perm
    (itemMarks j.program ++ (j.entities.filter j.claimsItself).map .claim) := by
  have hOwn : (j.entities.flatMap fun e => itemMarks (j.agenda e)) =
      (j.entities.filter j.claimsItself).map .claim := by
    simp only [itemMarks_agenda]
    induction j.entities with
    | nil => rfl
    | cons e es ih => cases h : j.claimsItself e <;> simp [h, ih]
  rw [← hOwn]
  exact marks_run_perm j.closed_pool requested_program_pool

/-- The entities that claim tokens: parameters at their functions, functions where they stand, and every
statement and definition that is met. -/
inductive Claims (j : Job) : Entity → Prop
  | param {site : Nat} {d p : DeclId} {params : List DeclId} {body : StmtId} :
      j.Visits site d params body → p ∈ params → Claims j (.decl p)
  | function {site : Nat} {d : DeclId} {params : List DeclId} {body : StmtId} :
      j.Visits site d params body → Claims j (.function site d)
  | itself {e : Entity} : e ∈ j.entities → j.claimsItself e = true → Claims j e

theorem claim_mem_marks_iff {e : Entity} : .claim e ∈ marks j.events ↔ j.Claims e := by
  rw [j.marks_events_perm.mem_iff, List.mem_append, mem_itemMarks_program]
  constructor
  · intro h
    rcases h with h | h
    · cases h with
      | param hVisits hp => exact .param hVisits hp
      | function hVisits => exact .function hVisits
    · obtain ⟨e', he, hEq⟩ := List.mem_map.mp h
      cases hEq
      exact .itself (List.mem_filter.mp he).1 (List.mem_filter.mp he).2
  · intro h
    cases h with
    | param hVisits hp => exact Or.inl (.param hVisits hp)
    | function hVisits => exact Or.inl (.function hVisits)
    | itself he hOwn => exact Or.inr (List.mem_map.mpr ⟨e, List.mem_filter.mpr ⟨he, hOwn⟩, rfl⟩)

theorem skip_mem_marks_iff {d : DeclId} :
    .skip d ∈ marks j.events ↔ d ∈ j.unit.topLevel ∧ j.unit.Skipped d := by
  rw [j.marks_events_perm.mem_iff, List.mem_append, mem_itemMarks_program]
  constructor
  · intro h
    rcases h with h | h
    · cases h with
      | skip hd hSkip => exact ⟨hd, hSkip⟩
    · obtain ⟨e, _, hEq⟩ := List.mem_map.mp h
      cases hEq
  · intro h
    exact Or.inl (.skip h.1 h.2)

/-- Whatever claims in its own agenda claims once in the whole extraction. -/
theorem count_claim_of_claimsItself {e : Entity} (hOwn : j.claimsItself e = true) :
    (marks j.events).count (.claim e) ≤ 1 := by
  have hProgram : (itemMarks j.program).count (.claim e) = 0 := by
    refine List.count_eq_zero.mpr fun h => ?_
    cases mem_itemMarks_program.mp h <;> cases hOwn
  have hNodup : ((j.entities.filter j.claimsItself).map Mark.claim).Nodup :=
    List.Nodup.map (fun _ _ => Mark.claim.inj) (j.entities_nodup.filter _)
  rw [j.marks_events_perm.count_eq, List.count_append, hProgram, Nat.zero_add]
  exact List.nodup_iff_count_le_one.mp hNodup _

theorem count_claim_le_one {e : Entity} (he : e.access = .shared) :
    (marks j.events).count (.claim e) ≤ 1 := by
  apply count_claim_of_claimsItself
  cases e <;> first | rfl | cases he

theorem Claims.mem_entities {e : Entity} (h : j.Claims e) : e ∈ j.entities := by
  cases h with
  | param hVisits hp => exact (Starts.param hVisits hp).mem_entities
  | function hVisits => exact (Starts.function hVisits).mem_entities
  | itself he _ => exact he

end UnitGraph.Job
