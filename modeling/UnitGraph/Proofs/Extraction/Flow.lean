import UnitGraph.Proofs.Extraction.Blocks
import UnitGraph.Proofs.Extraction.Nesting
import UnitGraph.Proofs.Traversal.Detours
import UnitGraph.Proofs.Traversal.Renaming

/-!
# Extractions with and without control flow

The blocks of a function are visited when everything below its body has been. If they name nothing else, then they
enter no statement, and what the extraction does besides is the same as without them: its events are those that
remain when the blocks and the reports of missing control flow are left out.
-/
namespace UnitGraph

open Traversal

def Entity.isBlock : Entity → Bool
  | .block .. => true
  | .stmt _ | .decl _ | .record _ | .enum _ | .typedef _ | .function .. => false

def Mark.isNoFlow : Mark → Bool
  | .noFlow .. => true
  | .claim _ | .skip _ => false

/-- Whether an event is there for the control flow only. -/
def ofFlow : Event Entity Mark → Bool
  | .entered e => e.isBlock
  | .marked m => m.isNoFlow

namespace Job

/-- The extraction with control flow or without it. -/
def withFlow (j : Job) (wanted : Bool) : Job := { j with options := { j.options with flowBlocks := wanted } }

/-- The blocks of a function that is visited name only statements below its body. -/
def FlowBelow (j : Job) : Prop :=
  ∀ site d params body, j.Visits site d params body → ∀ b ∈ j.blocks d, ∀ s ∈ b.statements,
    Relation.ReflTransGen j.unit.Child body s

variable {j : Job} {d : DeclId} {e e' : Entity}

@[simp] theorem unit_withFlow (j : Job) (wanted : Bool) : (j.withFlow wanted).unit = j.unit := rfl

theorem agenda_withFlow (h : e.isBlock = false) (wanted : Bool) : (j.withFlow wanted).agenda e = j.agenda e := by
  cases e with
  | block f i => cases h
  | _ => rfl

@[simp] theorem flowAgenda_withoutFlow (j : Job) (d : DeclId) : (j.withFlow false).flowAgenda d = [] := rfl

@[simp] theorem blocks_withoutFlow (j : Job) (d : DeclId) : (j.withFlow false).blocks d = [] := rfl

/-- Nothing but a block asks for blocks. -/
theorem isBlock_of_asks (he : e.isBlock = false) (h : j.Asks e e') : e'.isBlock = false := by
  cases h with
  | blockTarget => cases he
  | _ => rfl

theorem isBlock_of_requested (he : e.isBlock = false) : ∀ e' ∈ requested (j.agenda e), e'.isBlock = false :=
  fun _ h => isBlock_of_asks he (mem_requested_agenda.mp h)

/-- A declaration of the top level that is no defined function has no flow. -/
theorem siteAgenda_of_no_definition (hDef : j.unit.definition? d = none) (site : Nat) :
    (j.withFlow true).siteAgenda site d = (j.withFlow false).siteAgenda site d := by
  cases hd : j.unit.decl? d with
  | none => simp only [siteAgenda, unit_withFlow, hd]
  | some decl =>
      have hNone : decl.definition? = none := by simpa [SourceUnit.definition?, hd] using hDef
      simp only [siteAgenda, unit_withFlow, hd, hNone]
      rfl

theorem isBlock_of_siteAgenda (hDef : j.unit.definition? d = none) {site : Nat} :
    ∀ e ∈ requested (j.siteAgenda site d), e.isBlock = false := by
  intro e he
  obtain ⟨params, body, hDef', -⟩ | ⟨-, hs⟩ | ⟨-, hs⟩ | ⟨-, -, -, hs⟩ := j.siteAgenda_cases site d
  · cases hDef.symm.trans hDef'
  · rw [hs] at he
    cases he
  · rw [hs] at he
    split at he
    · cases List.mem_singleton.mp he
      rfl
    · cases he
  · rw [hs] at he
    cases he

section Step
variable {seen seen' : List Entity} {items : List (Item Entity Mark)}

/-- What asks for no block happens with control flow as it does without. -/
theorem run_withFlow (hr : ∀ e ∈ requested items, e ∈ (j.withFlow false).pool)
    (hr' : ∀ e ∈ requested items, e ∈ (j.withFlow true).pool) (hItems : ∀ e ∈ requested items, e.isBlock = false)
    (hSeen : SameOn (·.isBlock = false) seen seen') :
    run (j.withFlow true).agenda (j.withFlow true).pool seen' items =
      run (j.withFlow false).agenda (j.withFlow false).pool seen items :=
  run_congr (P := fun e : Entity => e.isBlock = false) (j.withFlow false).closed_pool (j.withFlow true).closed_pool
    (fun _ he => isBlock_of_requested he)
    (fun _ he => (agenda_withFlow he true).trans (agenda_withFlow he false).symm) hr hr' hItems hSeen

/-- Whatever is below a body has been entered once the body has. -/
theorem stmt_mem_of_bodyAgenda {site : Nat} {params : List DeclId} {body : StmtId}
    (hSat : Saturated j.agenda (fun _ => True)
      ((entered (run j.agenda j.pool seen (bodyAgenda site d params body))).reverse ++ seen))
    (hr : ∀ e ∈ requested (bodyAgenda site d params body), e ∈ j.pool) (s : StmtId)
    (hs : Relation.ReflTransGen j.unit.Child body s) :
    .stmt s ∈ (entered (run j.agenda j.pool seen (bodyAgenda site d params body))).reverse ++ seen := by
  have hBody : .stmt body ∈ (entered (run j.agenda j.pool seen (bodyAgenda site d params body))).reverse ++ seen := by
    rw [List.mem_append, List.mem_reverse]
    exact (mem_entered_of_requested j.closed_pool hr _ (by simp [requested_bodyAgenda])).symm
  have hLeads : Relation.ReflTransGen (fun a b => b ∈ requested (j.agenda a)) (.stmt body) (.stmt s) := by
    refine hs.lift Entity.stmt fun a b hChild => ?_
    obtain ⟨stmt, hStmt, hb⟩ := hChild
    exact mem_requested_agenda.mpr (.child hStmt hb)
  exact (hSat.mem_of_leads (fun _ _ _ _ => trivial) hLeads hBody trivial).1

/-- The flow of a function enters its blocks and nothing else, provided that these name only what has been
entered. -/
theorem entered_flowAgenda (hSat : Saturated j.agenda (fun _ => True) seen)
    (hr : ∀ e ∈ requested (j.flowAgenda d), e ∈ j.pool)
    (hBelow : ∀ b ∈ j.blocks d, ∀ s ∈ b.statements, .stmt s ∈ seen) :
    ∀ e ∈ entered (run j.agenda j.pool seen (j.flowAgenda d)), ∃ i, e = .block d i := by
  refine hSat.forall_entered (O := fun e => ∃ i, e = .block d i) j.closed_pool
    (fun _ _ _ _ => trivial) ?_ hr ?_
  · rintro _ ⟨i, rfl⟩ e' he'
    cases mem_requested_agenda.mp he' with
    | blockStmt hb hs => exact .inr ⟨hBelow _ (List.mem_of_getElem? hb) _ hs, trivial⟩
    | blockTarget _ _ => exact .inl ⟨_, rfl⟩
  · intro e he
    rw [requested_flowAgenda] at he
    obtain ⟨i, -, rfl⟩ := List.mem_map.mp he
    exact ⟨i, rfl⟩

/-- Apart from its own events, the flow of a function leaves none. -/
theorem filter_run_flowAgenda (hSat : Saturated j.agenda (fun _ => True) seen)
    (hr : ∀ e ∈ requested (j.flowAgenda d), e ∈ j.pool)
    (hBelow : ∀ b ∈ j.blocks d, ∀ s ∈ b.statements, .stmt s ∈ seen) :
    (run j.agenda j.pool seen (j.flowAgenda d)).filter (!ofFlow ·) = [] := by
  have hEntered := entered_flowAgenda hSat hr hBelow
  refine List.filter_eq_nil_iff.mpr fun v hv => ?_
  cases v with
  | entered e =>
      obtain ⟨i, rfl⟩ := hEntered e (mem_entered_iff.mpr hv)
      exact nofun
  | marked m =>
      have hm := (marks_run_perm j.closed_pool hr).mem_iff.mp (mem_marks_iff.mpr hv)
      rcases List.mem_append.mp hm with hm | hm
      · obtain ⟨-, error, -, rfl⟩ := mem_itemMarks_flowAgenda.mp hm
        exact nofun
      · -- blocks leave no marks
        obtain ⟨e, he, hm⟩ := List.mem_flatMap.mp hm
        obtain ⟨i, rfl⟩ := hEntered e he
        rw [itemMarks_agenda] at hm
        cases hm

theorem not_ofFlow_entered (e : Entity) (he : e.isBlock = false) : (!ofFlow (.entered e)) = true := by
  rw [ofFlow, he]
  rfl

/-- Where a function is visited, the two extractions differ in the events of its flow only. -/
theorem filter_run_functionAgenda {site : Nat} {params : List DeclId} {body : StmtId}
    (hBelow : ∀ b ∈ (j.withFlow true).blocks d, ∀ s ∈ b.statements, Relation.ReflTransGen j.unit.Child body s)
    (hSat : Saturated (j.withFlow true).agenda (fun _ => True) seen') (hSeen : SameOn (·.isBlock = false) seen seen')
    (hr : ∀ e ∈ requested ((j.withFlow false).functionAgenda site d params body), e ∈ (j.withFlow false).pool)
    (hr' : ∀ e ∈ requested ((j.withFlow true).functionAgenda site d params body), e ∈ (j.withFlow true).pool) :
    (run (j.withFlow true).agenda (j.withFlow true).pool seen'
        ((j.withFlow true).functionAgenda site d params body)).filter (!ofFlow ·) =
      (run (j.withFlow false).agenda (j.withFlow false).pool seen
        ((j.withFlow false).functionAgenda site d params body)).filter (!ofFlow ·) := by
  rw [functionAgenda_split] at hr hr' ⊢
  rw [functionAgenda_split, flowAgenda_withoutFlow, List.nil_append]
  simp only [flowAgenda_withoutFlow, requested_append, List.mem_append, requested_nil, List.not_mem_nil,
    false_or] at hr hr'
  have hFront : ∀ e ∈ requested (bodyAgenda site d params body), e.isBlock = false := by
    intro e he
    rw [requested_bodyAgenda, List.mem_append, List.mem_map] at he
    rcases he with ⟨p, -, rfl⟩ | he
    · rfl
    · cases List.mem_singleton.mp he
      rfl
  have hBody := run_withFlow (fun e he => hr e (.inl he)) (fun e he => hr' e (.inl he)) hFront hSeen
  have hSame := hSeen.after not_ofFlow_entered (congrArg (List.filter (!ofFlow ·)) hBody)
  have hSat' := hSat.run (j.withFlow true).closed_pool (fun e he => hr' e (.inl he))
  have hEntered := stmt_mem_of_bodyAgenda hSat' (fun e he => hr' e (.inl he))
  have hFlow := filter_run_flowAgenda hSat' (fun e he => hr' e (.inr (.inl he))) fun b hb s hs =>
    hEntered s (hBelow b hb s hs)
  have hVisit : ∀ e ∈ requested [(Item.visit (.function site d) : Item Entity Mark)], e.isBlock = false := by
    simp [requested, Entity.isBlock]
  have hLast := run_withFlow (fun e he => hr e (.inr he)) (fun e he => hr' e (.inr (.inr he))) hVisit
    (hSame.detour not_ofFlow_entered hFlow)
  rw [run_append, run_append, run_append, List.filter_append, List.filter_append, List.filter_append, hFlow,
    List.nil_append, hLast, hBody]

/-- At a declaration of the top level, the two extractions differ in the events of the flow only. -/
theorem filter_run_siteAgenda {site : Nat} (hBelow : (j.withFlow true).FlowBelow) (hTop : d ∈ j.unit.topLevel)
    (hSat : Saturated (j.withFlow true).agenda (fun _ => True) seen') (hSeen : SameOn (·.isBlock = false) seen seen')
    (hr : ∀ e ∈ requested ((j.withFlow false).siteAgenda site d), e ∈ (j.withFlow false).pool)
    (hr' : ∀ e ∈ requested ((j.withFlow true).siteAgenda site d), e ∈ (j.withFlow true).pool) :
    (run (j.withFlow true).agenda (j.withFlow true).pool seen' ((j.withFlow true).siteAgenda site d)).filter
        (!ofFlow ·) =
      (run (j.withFlow false).agenda (j.withFlow false).pool seen ((j.withFlow false).siteAgenda site d)).filter
        (!ofFlow ·) := by
  cases hDef : j.unit.definition? d with
  | some definition =>
      obtain ⟨params, body⟩ := definition
      obtain ⟨place, hPlace⟩ := List.getElem?_of_mem hTop
      rw [siteAgenda_of_definition (j := j.withFlow true) hDef] at hr' ⊢
      rw [siteAgenda_of_definition (j := j.withFlow false) hDef] at hr ⊢
      exact filter_run_functionAgenda (hBelow place d params body ⟨hPlace, hDef⟩) hSat hSeen hr hr'
  | none =>
      -- nothing but a function has a flow
      have hAgenda : (j.withFlow true).siteAgenda site d = (j.withFlow false).siteAgenda site d :=
        siteAgenda_of_no_definition hDef site
      rw [hAgenda] at hr' ⊢
      rw [run_withFlow hr hr' (isBlock_of_siteAgenda (j := j.withFlow false) hDef) hSeen]

end Step

/-- Without control flow wanted there is none in the events. -/
theorem filter_events_withoutFlow (j : Job) :
    (j.withFlow false).events.filter (!ofFlow ·) = (j.withFlow false).events := by
  refine List.filter_eq_self.mpr fun v hv => ?_
  cases v with
  | entered e =>
      cases e with
      | block f i =>
          have hBlock := (visits_of_block (mem_entered_iff.mpr hv)).2
          rw [blocks_withoutFlow] at hBlock
          cases hBlock
      | _ => rfl
  | marked m =>
      cases m with
      | noFlow f error =>
          have hMark := (j.withFlow false).marks_events_perm.mem_iff.mp (mem_marks_iff.mpr hv)
          rcases List.mem_append.mp hMark with hMark | hMark
          · cases mem_itemMarks_program.mp hMark with
            | noFlow _ hWanted _ => cases hWanted
          · obtain ⟨e, -, hEq⟩ := List.mem_map.mp hMark
            cases hEq
      | _ => rfl

/-- What happens without control flow is what happens with it, apart from the control flow. -/
theorem events_withFlow (hBelow : (j.withFlow true).FlowBelow) :
    (j.withFlow false).events = (j.withFlow true).events.filter (!ofFlow ·) := by
  rw [← filter_events_withoutFlow]
  have hPool : ∀ (i : Job), ∀ x ∈ i.unit.topLevel.zipIdx, ∀ e ∈ requested (i.siteAgenda x.2 x.1), e ∈ i.pool := by
    intro i x hx e he
    refine requested_program_pool e ?_
    rw [program, requested_flatMap]
    exact List.mem_flatMap.mpr ⟨x, hx, he⟩
  refine (filter_run_flatMap (Q := fun _ => True) not_ofFlow_entered (j.withFlow true).closed_pool ?_
    (hPool (j.withFlow true)) saturated_nil (.refl [])).symm
  intro x hx seen seen' hSat hSeen
  exact filter_run_siteAgenda hBelow (List.fst_mem_of_mem_zipIdx hx) hSat hSeen (hPool (j.withFlow false) x hx)
    (hPool (j.withFlow true) x hx)

theorem entities_withFlow (hBelow : (j.withFlow true).FlowBelow) :
    (j.withFlow false).entities = (j.withFlow true).entities.filter (!·.isBlock) := by
  rw [entities, events_withFlow hBelow, entered_filter]
  rfl

theorem marks_withFlow (hBelow : (j.withFlow true).FlowBelow) :
    marks (j.withFlow false).events = (marks (j.withFlow true).events).filter (!·.isNoFlow) := by
  rw [events_withFlow hBelow, marks_filter]
  rfl

end Job

end UnitGraph
