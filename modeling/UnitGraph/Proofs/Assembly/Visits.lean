import UnitGraph.Proofs.Assembly.Follows
import UnitGraph.Proofs.Extraction.Image

/-!
# Every visit follows its agenda

The construction of a node follows the agenda of its entity, whatever is still a draft at that moment. The
recursive ones are taken by induction on the depth: a visit that enters an entity leaves less to enter.
-/
namespace UnitGraph.Job

open Traversal Assembling

variable {j : Job} {tops : List NodeId} {drafts : List (Entity × Node)} {depth : Nat}

section Definitions

variable (hj : j.InRange)
include hj

theorem enumNode_follows {d : DeclId} (he : .enum d ∈ j.entities) :
    j.Follows tops drafts depth (j.enumNode d) [.visit (.enum d)] (j.idOf (.enum d)) := by
  obtain ⟨decl, hd⟩ := SourceUnit.exists_decl (enum_mem_known.mp (hj.known_of_mem_entities he))
  obtain ⟨hRange, hOwner⟩ := Entity.Role.enum.range_label hd
  simp only [enumNode, Checked.decl_eq hd, lift_bind]
  refine .mono (Nat.le_succ depth) (follows_once_claiming he rfl (fun _ _ _ => rfl)
    ((follows_claim rfl hRange hOwner).map _) ?_)
  simp [nodeOf, SourceUnit.nameOf, hd]

theorem typedefNode_follows {d : DeclId} (he : .typedef d ∈ j.entities) :
    j.Follows tops drafts depth (j.typedefNode d) [.visit (.typedef d)] (j.idOf (.typedef d)) := by
  obtain ⟨decl, hd⟩ := SourceUnit.exists_decl (typedef_mem_known.mp (hj.known_of_mem_entities he))
  have hTypes := hj.unit.declTypes decl (SourceUnit.mem_decls_of_decl? hd)
  have hUnderlying := Checked.underlyingSpelling_eq (k := decl.kind) (u := j.unit)
    fun t ht => hTypes t (by simp [ht])
  obtain ⟨hRange, hOwner⟩ := Entity.Role.typedef.range_label hd
  simp only [typedefNode, Checked.decl_eq hd, hUnderlying, lift_bind]
  refine .mono (Nat.le_succ depth) (follows_once_claiming he rfl
    (fun h a ht => tokenAt_run ht decl.location _) ((follows_claim rfl hRange hOwner).map _) ?_)
  simp [nodeOf, SourceUnit.nameOf, SourceUnit.nameToken?, underlying?_of_decl? hd, hd]

omit hj in
theorem fieldTypes_eq {d : DeclId} {decl : Decl} (hd : j.unit.decl? d = some decl) :
    j.unit.fieldTypes d =
      (fieldsOf decl.kind).filterMap fun field => (j.unit.decl? field).bind (·.type) := by
  rw [SourceUnit.fieldTypes, SourceUnit.declKind?, hd, Option.map_some]
  cases decl.kind <;> rfl

omit hj in
/-- Going over the fields is going over their types. -/
theorem flatMap_fieldsOf {α : Type} {d : DeclId} {decl : Decl} (hd : j.unit.decl? d = some decl)
    (f : TypeId → List α) :
    ((fieldsOf decl.kind).flatMap fun field => ((j.unit.decl? field).bind (·.type)).toList.flatMap f) =
      (j.unit.fieldTypes d).flatMap f := by
  rw [fieldTypes_eq hd, List.filterMap_eq_flatMap_toList, List.flatMap_assoc]

/-- What a field adds to the lists of its record. -/
def linksOf (j : Job) (field : DeclId) : FieldLinks :=
  let types := ((j.unit.decl? field).bind (·.type)).toList
  { records := types.flatMap fun t =>
      ((j.unit.referencedRecord t).toList ++ j.unit.signatureRecords t).map (j.idOf <| .record ·)
    enums := types.flatMap fun t => (j.unit.namedEnum t).toList.map (j.idOf <| .enum ·)
    typedefs := types.flatMap fun t => (j.unit.referencedAlias t).toList.map (j.idOf <| .typedef ·) }

section Fields

variable {recordNode : DeclId → Assembling NodeId}
  (hRecord : ∀ r, .record r ∈ j.entities →
    j.Follows tops drafts depth (recordNode r) [.visit (.record r)] (j.idOf (.record r)))
include hRecord

theorem recordNodes_follows {t : TypeId} (ht : Checked.Known j.unit t)
    (hMet : ∀ r, j.unit.referencedRecord t = some r → .record r ∈ j.entities) :
    j.Follows tops drafts depth (j.recordNodes recordNode t)
      ((j.unit.referencedRecord t).toList.map (.visit <| .record ·))
      ((j.unit.referencedRecord t).toList.map (j.idOf <| .record ·)) := by
  simp only [recordNodes, Checked.referencedRecord_eq hj.unit ht, lift_bind]
  exact .mapM_visit fun r hr => hRecord r (hMet r (Option.mem_toList.mp hr))

theorem signatureNodes_follows {t : TypeId} (ht : Checked.Known j.unit t)
    (hMet : ∀ r ∈ j.unit.signatureRecords t, .record r ∈ j.entities) :
    j.Follows tops drafts depth (j.signatureNodes recordNode t)
      ((j.unit.signatureRecords t).map (.visit <| .record ·))
      ((j.unit.signatureRecords t).map (j.idOf <| .record ·)) := by
  simp only [signatureNodes, Checked.functionPointer_eq hj.unit ht, lift_bind]
  cases hs : j.unit.functionPointer t with
  | none =>
      simp only [SourceUnit.signatureRecords, hs]
      exact .pure []
  | some s =>
      have hTypes := Checked.known_of_functionPointer hj.unit hs
      have hList : j.unit.signatureRecords t =
          s.types.flatMap fun t' => (j.unit.referencedRecord t').toList := by
        simp only [SourceUnit.signatureRecords, hs, Option.map_some, Option.getD_some,
          List.filterMap_eq_flatMap_toList]
      rw [hList] at hMet
      rw [hList, List.map_flatMap, List.map_flatMap]
      refine Follows.map (Follows.mapM fun t' ht' => ?_) List.flatten
      refine recordNodes_follows hj hRecord (hTypes t' ht') fun r hr => hMet r ?_
      exact List.mem_flatMap.mpr ⟨t', ht', Option.mem_toList.mpr hr⟩

theorem fieldLinks_follows {field : DeclId} (hField : field.index < j.unit.decls.size)
    (hMet : ∀ t ∈ ((j.unit.decl? field).bind (·.type)).toList, ∀ e ∈ j.unit.fieldEntities t, e ∈ j.entities) :
    j.Follows tops drafts depth (j.fieldLinks recordNode field)
      ((((j.unit.decl? field).bind (·.type)).toList.flatMap j.unit.fieldEntities).map .visit)
      (j.linksOf field) := by
  obtain ⟨decl, hd⟩ := SourceUnit.exists_decl hField
  simp only [fieldLinks, linksOf, Checked.decl_eq hd, lift_bind]
  rw [hd, Option.bind_some] at hMet ⊢
  cases hType : decl.type with
  | none => exact .pure _
  | some t =>
      rw [hType, Option.toList_some] at hMet
      have hMet := hMet t List.mem_cons_self
      have ht : Checked.Known j.unit t :=
        hj.unit.declTypes decl (SourceUnit.mem_decls_of_decl? hd) t (by simp [hType])
      simp only [Checked.referencedAlias_eq hj.unit ht, Checked.namedEnum_eq hj.unit ht, lift_bind,
        Option.toList_some, List.flatMap_cons, List.flatMap_nil, List.append_nil, SourceUnit.fieldEntities,
        List.map_append, List.map_map, List.append_assoc]
      refine (recordNodes_follows hj hRecord ht fun r hr => hMet _ ?_).bind
        ((Follows.mapM_visit fun a ha => typedefNode_follows hj (hMet _ ?_)).bind
          ((signatureNodes_follows hj hRecord ht fun r hr => hMet _ ?_).bind
            ((Follows.mapM_visit fun c hc => enumNode_follows hj (hMet _ ?_)).map _)))
      · simp [SourceUnit.fieldEntities, hr]
      · simp [SourceUnit.fieldEntities, Option.mem_toList.mp ha]
      · simp [SourceUnit.fieldEntities, hr]
      · simp [SourceUnit.fieldEntities, Option.mem_toList.mp hc]

end Fields

theorem recordNode_follows {d : DeclId} (he : .record d ∈ j.entities) :
    j.Follows tops drafts depth (j.recordNode depth d) [.visit (.record d)] (j.idOf (.record d)) := by
  induction depth generalizing d drafts with
  | zero => exact .zero
  | succ depth ih =>
      have hIndex := record_mem_known.mp (hj.known_of_mem_entities he)
      obtain ⟨decl, hd⟩ := SourceUnit.exists_decl hIndex
      obtain ⟨hRange, hOwner⟩ := Entity.Role.record.range_label hd
      have hAgenda : j.agenda (.record d) = [.mark (.claim (.record d))] ++
          (fieldsOf decl.kind).flatMap fun f =>
            (((j.unit.decl? f).bind (·.type)).toList.flatMap j.unit.fieldEntities).map .visit := by
        rw [← List.map_flatMap, flatMap_fieldsOf hd]
        rfl
      simp only [recordNode, Checked.decl_eq hd, Checked.isTypedefTarget_eq hj.unit hIndex, lift_bind]
      refine follows_once_claiming he rfl (fun _ _ _ => rfl) (hAgenda ▸ (follows_claim rfl hRange hOwner).bind
        ((Follows.mapM fun f hf => fieldLinks_follows hj (fun r hr => ih hr) ?_ ?_).map _)) ?_
      · simp only [nodeOf, linksOf, List.flatMap_map, flatMap_fieldsOf hd, SourceUnit.nameOf, hd,
          Option.map_some, Option.getD_some, List.filterMap_eq_flatMap_toList, List.map_flatMap]
      · refine hj.unit.declDecls decl (SourceUnit.mem_decls_of_decl? hd) f ?_
        cases hk : decl.kind with
        | record tag fields definition =>
            rw [hk] at hf
            exact List.mem_append_left _ hf
        | _ =>
            rw [hk] at hf
            cases hf
      · intro t ht e hEntity
        have hType : t ∈ j.unit.fieldTypes d := by
          rw [fieldTypes_eq hd]
          exact List.mem_filterMap.mpr ⟨f, hf, Option.mem_toList.mp ht⟩
        have hAsks := mem_requested_agenda.mp (mem_requested_agenda_record.mpr ⟨t, hType, hEntity⟩)
        exact hAsks.mem_entities he

end Definitions

section Declarations

variable (hj : j.InRange)
include hj

/-- The agenda of a declaration, and what its node shows of its type, follow from its kind and its type. -/
theorem typeLinks_follows {d : DeclId} {decl : Decl} (hd : j.unit.decl? d = some decl)
    (he : .decl d ∈ j.entities) :
    j.Follows tops drafts depth (j.typeLinks depth decl) (j.agenda (.decl d))
      ⟨j.unit.shownType d, (j.unit.recordOf? d).map (j.idOf <| .record ·),
        (j.unit.aliasOf? d).map (j.idOf <| .typedef ·)⟩ := by
  have hTypes := hj.unit.declTypes decl (SourceUnit.mem_decls_of_decl? hd)
  have hRecord : ∀ r, j.unit.recordOf? d = some r → .record r ∈ j.entities := fun r hr =>
    (Asks.valueRecord hr).mem_entities he
  have hAlias : ∀ a, j.unit.aliasOf? d = some a → .typedef a ∈ j.entities := fun a ha =>
    (Asks.valueAlias ha).mem_entities he
  simp only [agenda, SourceUnit.shownType, SourceUnit.recordOf?, SourceUnit.aliasOf?,
    valueType?_of_decl? hd, underlying?_of_decl? hd] at hRecord hAlias ⊢
  have hNoTypedef : (∀ t, decl.kind = .typedef t → False) → decl.kind.underlying? = none := by
    intro h
    cases hk : decl.kind with
    | typedef t => exact (h t hk).elim
    | _ => rfl
  unfold typeLinks
  split
  · next underlying hk =>
      obtain ⟨entry, hEntry⟩ :=
        SourceUnit.exists_type (hTypes underlying (by simp [hk, DeclKind.underlying?]))
      simp only [hk, DeclKind.underlying?, DeclKind.isValue, Checked.type_eq hEntry, lift_bind,
        SourceUnit.typeKind?, hEntry]
      exact .pure _
  · next t ht hk =>
      have hKnown : Checked.Known j.unit t := hTypes t (by simp [ht])
      rw [hNoTypedef hk, ht]
      rw [ht] at hRecord hAlias
      split
      · next hValue =>
          simp only [hValue, if_true, Option.bind_some] at hRecord hAlias ⊢
          simp only [Checked.referencedRecord_eq hj.unit hKnown, Checked.referencedAlias_eq hj.unit hKnown,
            Checked.spelling_eq hKnown, lift_bind]
          exact (Follows.mapM_option fun r hr => recordNode_follows hj (hRecord r hr)).bind
            ((Follows.mapM_option fun a ha => typedefNode_follows hj (hAlias a ha)).map _)
      · exact .pure _
  · next hNone hk =>
      rw [hNoTypedef hk, hNone, ite_self]
      exact .pure _

theorem declNode_follows {d : DeclId} (he : .decl d ∈ j.entities) :
    j.Follows tops drafts depth (j.declNode depth d) [.visit (.decl d)] (j.idOf (.decl d)) := by
  obtain ⟨decl, hd⟩ := SourceUnit.exists_decl (decl_mem_known.mp (hj.known_of_mem_entities he))
  have hPool : ∀ b ∈ requested [Item.visit (β := Mark) (Entity.decl d)], b ∈ j.pool := by
    intro b hb
    cases List.mem_singleton.mp hb
    exact mem_pool_of_mem_entities he
  simp only [declNode, Checked.decl_eq hd, lift_bind]
  refine .mono (Nat.le_succ depth) (follows_once he rfl (fun _ _ _ => rfl)
    (.of_run (fun h a ht => tokenAt_run ht decl.location _) ((typeLinks_follows hj hd he).map _)) ?_)
  intro h hs _ hClaimed
  have hUnclaimed : .claim (.decl d) ∉ marks (j.after h [.visit (.decl d)]) := by
    rw [marks_after, List.mem_append, not_or]
    exact ⟨fun hm => hs (hClaimed d hm), claim_decl_not_mem_marks_run hPool (by simp)⟩
  rw [held_of_not_claimed hUnclaimed]
  simp [nodeOf, SourceUnit.nameOf, SourceUnit.nameToken?, SourceUnit.declKind?, hd]

/-- A parameter is met when no node is a draft. Its node is taken up again for the tokens of its claim. -/
theorem paramNode_follows {p : DeclId} (he : .decl p ∈ j.entities) :
    j.Follows tops [] depth (j.paramNode depth p) [.visit (.decl p), .mark (.claim (.decl p))]
      (j.idOf (.decl p)) := by
  obtain ⟨decl, hp⟩ := SourceUnit.exists_decl (decl_mem_known.mp (hj.known_of_mem_entities he))
  obtain ⟨hRange, hOwner⟩ : j.unit.rangeOf (.claim (.decl p)) = some decl.range ∧ _ :=
    Entity.Role.decl.range_label hp
  intro h a ht hr hDepth
  rw [← List.singleton_append, after_append, after_mark] at hr ⊢
  have hVisited : j.Reached (j.after h [.visit (.decl p)]) := hr.earlier (List.prefix_append ..)
  obtain ⟨a₁, hRun, ht₁⟩ := declNode_follows hj he h a ht hVisited hDepth
  have hEntered := mem_entered_after_visit j h (mem_pool_of_mem_entities he)
  -- the node is taken up again, claims, and is put down
  have ht₂ := (ht₁.reopen hEntered (by simp)).mark hRange
    (fun e hEq _ => ⟨_, by cases hEq; exact List.mem_cons_self⟩) (fun d hEq => by cases hEq; exact hEntered)
  obtain ⟨-, hGet⟩ := ht₂.draft _ _ List.mem_cons_self
  have ht₃ := Tracks.close (ht₂.rewrite hr (by simp) (j.nodeOf j.idOf (j.held _ (.decl p)) (.decl p)))
  refine ⟨_, ?_, ht₃⟩
  have hClaim : claim decl.range .exclusive decl.name.text a₁ = _ := claim_run (e := .decl p) rfl hOwner _ _
  rw [paramNode, bind_run hRun, Checked.decl_eq hp, lift_bind, bind_run hClaim, bind_run (update_run hGet _),
    ht₁.held_marked hRange]
  rfl

end Declarations

section Bodies

variable (hj : j.InRange)
include hj

theorem stmtNode_follows {s : StmtId} (he : .stmt s ∈ j.entities) :
    j.Follows tops drafts depth (j.stmtNode depth s) [.visit (.stmt s)] (j.idOf (.stmt s)) := by
  induction depth generalizing s drafts with
  | zero => exact .zero
  | succ depth ih =>
      obtain ⟨stmt, hs⟩ := SourceUnit.exists_stmt (stmt_mem_known.mp (hj.known_of_mem_entities he))
      have hRange : Entity.range? j.unit (.stmt s) = some stmt.range := by simp [Entity.range?, hs]
      have hOwner : Entity.label j.unit (.stmt s) = stmt.className := by simp [Entity.label, hs]
      have hDecl : ∀ d ∈ stmt.decls, .decl d ∈ j.entities := fun d hd =>
        (Asks.mention hs (List.mem_append_left _ hd)).mem_entities he
      have hReferenced : ∀ d ∈ stmt.referenced.toList, .decl d ∈ j.entities := fun d hd =>
        (Asks.mention hs (List.mem_append_right _ hd)).mem_entities he
      have hAgenda : j.agenda (.stmt s) = stmt.children.map (.visit <| .stmt ·) ++
          (stmt.decls.map (.visit <| .decl ·) ++ (stmt.referenced.toList.map (.visit <| .decl ·) ++
            [.mark (.claim (.stmt s))])) := by
        simp [agenda, hs]
      simp only [stmtNode, Checked.stmt_eq hs, lift_bind]
      refine follows_once_claiming he (by simp [claimsItself, hs]) (fun _ _ _ => rfl)
        (hAgenda ▸ (Follows.mapM_visit fun c hc => ih ((Asks.child hs hc).mem_entities he)).bind
          ((Follows.mapM_visit fun d hd => declNode_follows hj (hDecl d hd)).bind
            ((Follows.mapM_visit fun d hd => declNode_follows hj (hReferenced d hd)).bind
              ((follows_claim (by simp [claimsItself, hs]) hRange hOwner).map _)))) ?_
      simp [nodeOf, hs]

theorem blockNode_follows {f : DeclId} {g : FlowGraph} (hg : j.blocks f = g.blocks) {i : Nat}
    (he : .block f i ∈ j.entities) :
    j.Follows tops drafts depth (j.blockNode g f depth i) [.visit (.block f i)] (j.idOf (.block f i)) := by
  induction depth generalizing i drafts with
  | zero => exact .zero
  | succ depth ih =>
      have hIndex := (block_mem_known.mp (hj.known_of_mem_entities he)).2
      have hb : j.block? f i = some (j.blocks f)[i] := List.getElem?_eq_getElem hIndex
      generalize (j.blocks f)[i] = b at hb
      have hAccess : (Fault.block f i).unless g.blocks[i]? = .ok b := by
        rw [← hg, ← block?, hb]
        rfl
      have hAgenda : j.agenda (.block f i) =
          b.statements.map (.visit <| .stmt ·) ++ b.targets.map (.visit <| .block f ·) := by
        simp [agenda, hb]
      simp only [blockNode, hAccess, lift_bind]
      have hStmt : ∀ s ∈ b.statements, .stmt s ∈ j.entities := fun s hs =>
        (Asks.blockStmt hb hs).mem_entities he
      have hTarget : ∀ t ∈ b.targets, .block f t ∈ j.entities := fun t ht =>
        (Asks.blockTarget hb ht).mem_entities he
      refine follows_once he rfl (fun _ _ _ => rfl)
        (hAgenda ▸ (Follows.mapM_visit fun s hs => stmtNode_follows hj (hStmt s hs)).bind
          ((Follows.mapM_visit fun t ht => ih (hTarget t ht)).map _)) ?_
      intro h _ _ _
      simp [nodeOf, hb]

theorem flowNodes_follows {d : DeclId} (hd : d.index < j.unit.decls.size)
    (hMet : ∀ i < (j.blocks d).length, .block d i ∈ j.entities) :
    j.Follows tops drafts depth (j.flowNodes depth d) (j.flowAgenda d)
      ((List.range (j.blocks d).length).map (j.idOf <| .block d ·)) := by
  obtain ⟨decl, hDecl⟩ := SourceUnit.exists_decl hd
  unfold flowNodes flowAgenda
  split
  · next hWanted =>
      cases hf : j.flow d with
      | ok g =>
          have hg : j.blocks d = g.blocks := by simp [blocks, hWanted, hf]
          rw [hg] at hMet ⊢
          exact .mapM_visit fun i hi => blockNode_follows hj hg (hMet i (List.mem_range.mp hi))
      | error e =>
          have hNone : j.blocks d = [] := by simp [blocks, hWanted, hf]
          simp only [Checked.decl_eq hDecl, lift_bind, hNone]
          exact (follows_report hDecl e).bind (.pure [])
  · next hWanted =>
      have hNone : j.blocks d = [] := by simp [blocks, hWanted]
      rw [hNone]
      exact .pure []

end Bodies

end UnitGraph.Job
