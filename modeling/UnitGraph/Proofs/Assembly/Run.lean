import Mathlib.Algebra.Order.BigOperators.Group.List
import Mathlib.Algebra.Order.Ring.Nat
import UnitGraph.Proofs.Assembly.Visits
import UnitGraph.Proofs.Extraction.Blocks

/-!
# The assembled graph

Main statement: on a unit in range, the assembly of a graph ends without a fault as soon as its depth exceeds
the number of nodes, it yields the code graph, and that has no more nodes than the unit accounts for.
-/
namespace UnitGraph.Job

open Traversal Assembling

variable {j : Job} {tops : List NodeId} {depth : Nat} {h : History} {a : Assembly}

/-- What a defined function does before it is entered itself. -/
def functionFront (j : Job) (site : Nat) (d : DeclId) (params : List DeclId) (body : StmtId) :
    List (Item Entity Mark) :=
  params.flatMap (fun p => [.visit (.decl p), .mark (.claim (.decl p))]) ++
    ([.visit (.stmt body)] ++ ([.mark (.claim (.function site d))] ++ j.flowAgenda d))

theorem functionAgenda_eq (site : Nat) (d : DeclId) (params : List DeclId) (body : StmtId) :
    j.functionAgenda site d params body =
      j.functionFront site d params body ++ [.visit (.function site d)] := by
  simp [functionAgenda, functionFront]

theorem requested_functionFront (site : Nat) (d : DeclId) (params : List DeclId) (body : StmtId) :
    requested (j.functionFront site d params body) =
      params.map .decl ++ ([.stmt body] ++ (List.range (j.blocks d).length).map (.block d ·)) := by
  have h := j.requested_functionAgenda site d params body
  rw [functionAgenda_eq, requested_append] at h
  exact List.append_cancel_right (h.trans (by simp))

/-- A defined function is not entered before its turn. -/
theorem function_not_mem_front {site : Nat} {d : DeclId} {params : List DeclId} {body : StmtId}
    (hVisits : j.Visits site d params body) (hs : .function site d ∉ entered h) :
    .function site d ∉ entered (j.after h (j.functionFront site d params body)) := by
  intro hm
  have hPool : ∀ b ∈ requested (j.functionFront site d params body), b ∈ j.pool := by
    intro b hb
    rw [requested_functionFront] at hb
    refine requested_program_pool b (mem_requested_program_iff.mpr ⟨site, d, hVisits.1, ?_⟩)
    rw [siteAgenda_of_definition hVisits.2, functionAgenda_eq, requested_append, requested_functionFront]
    exact List.mem_append_left _ hb
  refine (function_of_mem_entered_after hPool hm).elim hs fun h => ?_
  simp [requested_functionFront] at h

theorem nodeOf_function {site : Nat} {d : DeclId} {decl : Decl} {params : List DeclId} {body : StmtId}
    (hDecl : j.unit.decl? d = some decl) (hDef : decl.definition? = some (params, body))
    (tokens : List Token) : j.nodeOf j.idOf tokens (.function site d) = .function
      { name := decl.name.text, type := (decl.type.map j.unit.spellingOf).getD "", tokens := tokens,
        args := params.map (j.idOf <| .decl ·), entry := j.idOf (.stmt body),
        blocks := (List.range (j.blocks d).length).map (j.idOf <| .block d ·) } := by
  simp [nodeOf, hDecl, hDef]

/-- A function that has claimed is entered with its node complete. -/
theorem Tracks.enter_function {site : Nat} {d : DeclId} (ht : j.Tracks tops [] h a)
    (hr : j.Reached (h ++ [.entered (.function site d)])) (hm : .claim (.function site d) ∈ marks h) :
    j.Tracks tops [] (h ++ [.entered (.function site d)])
      { a with
        arena := a.arena.push
          (j.nodeOf j.idOf (holdings j.outcomes (.function site d)) (.function site d))
        functions := a.functions ++ [⟨a.arena.size⟩] } := by
  have hTokens := held_of_claimed (j.count_claim_function site d) hr (by simpa using hm)
  rw [← hTokens]
  refine Tracks.close (ht.enter hr rfl ?_ ?_ rfl)
  · intro e he
    exact (if_neg fun hEq => by cases hEq; cases he).symm
  · rw [ht.idOf_new hr]
    rfl

/-- The records of the top level after one more. -/
def enlist (tops : List NodeId) (id : NodeId) : List NodeId := if id ∈ tops then tops else tops ++ [id]

/-- The records of the top level after one more declaration. -/
def enlistTop (j : Job) (tops : List NodeId) (d : DeclId) : List NodeId :=
  match j.unit.declKind? d with
  | some (.record ..) =>
      if j.options.visitRecords then enlist tops (j.idOf (.record (j.unit.recordDefinition d))) else tops
  | _ => tops

section TopLevel

variable (hj : j.InRange)
include hj

/-- A defined function that has not been entered yet. -/
theorem visitFunction_run {site : Nat} {d : DeclId} {params : List DeclId} {body : StmtId}
    (hVisits : j.Visits site d params body) (ht : j.Tracks tops [] h a)
    (hr : j.Reached (j.after h (j.functionAgenda site d params body)))
    (hDepth : j.entities.length < depth) (hs : .function site d ∉ entered h) :
    ∃ a', j.visitFunction depth d a = .ok ((), a') ∧
      j.Tracks tops [] (j.after h (j.functionAgenda site d params body)) a' := by
  obtain ⟨decl, hDecl, hDef⟩ := Option.bind_eq_some_iff.mp hVisits.2
  have hIndex : d.index < j.unit.decls.size := hj.unit.topLevel d (List.mem_of_getElem? hVisits.1)
  obtain ⟨hRange, hOwner⟩ := (Entity.Role.function site).range_label hDecl
  have hType := Checked.declaredSpelling_eq (t := decl.type) (u := j.unit)
    fun t ht => hj.unit.declTypes decl (SourceUnit.mem_decls_of_decl? hDecl) t (by simp [ht])
  have hOnce := j.count_claim_function site d
  have hNew := function_not_mem_front hVisits hs
  have hFunction := (Starts.function hVisits).mem_entities
  have hLast : j.after (j.after h (j.functionFront site d params body)) [.visit (.function site d)] =
      j.after h (j.functionFront site d params body) ++ [.entered (.function site d)] := by
    rw [after_visit (mem_pool_of_mem_entities hFunction) hNew]
    exact after_nil ..
  rw [functionAgenda_eq, after_append, hLast] at hr ⊢
  have hFront := hr.earlier (List.prefix_append ..)
  simp only [functionFront, after_append, after_mark] at hr hFront hNew ⊢
  have hClaimed := hFront.before
  have hBody := hClaimed.earlier (List.prefix_append ..)
  -- the parameters, the body, what is left of the tokens, the blocks
  obtain ⟨a₁, hRun₁, ht₁⟩ := Follows.mapM
    (fun p hp => paramNode_follows hj (Starts.param hVisits hp).mem_entities)
    h a ht hBody.before (Nat.lt_add_right _ hDepth)
  obtain ⟨a₂, hRun₂, ht₂⟩ := stmtNode_follows hj (Starts.body hVisits).mem_entities _ a₁ ht₁ hBody
    (Nat.lt_add_right _ hDepth)
  have hRun₃ : claim decl.range .exclusive decl.name.text a₂ = _ :=
    claim_run (e := .function site d) rfl hOwner _ _
  rw [grant_eq_holdings ht₂ hRange hOnce hClaimed] at hRun₃
  have hNotYet : .function site d ∉ entered (j.after _ [.visit (.stmt body)]) := fun he =>
    hNew (mem_entered_mono ((List.prefix_append ..).trans (j.prefix_after _ _)) he)
  have ht₃ := ht₂.mark (m := .claim (.function site d)) hRange
    (fun e hEq he => by cases hEq; exact (hNotYet he).elim) (fun d hEq => by cases hEq)
  obtain ⟨a₄, hRun₄, ht₄⟩ := flowNodes_follows hj hIndex
    (fun i hi => (Starts.block hVisits hi).mem_entities) _ _ ht₃ hFront (Nat.lt_add_right _ hDepth)
  -- the function itself
  refine ⟨_, ?_, ht₄.enter_function hr (by simp [marks_after])⟩
  rw [visitFunction, Checked.decl_eq hDecl, lift_bind, hDef, nodeOf_function hDecl hDef]
  simp only [bind_run hRun₁, bind_run hRun₂, bind_run hRun₃, bind_run hRun₄, hType, lift_bind]
  rfl

theorem visitRecord_run {d : DeclId} (hd : d.index < j.unit.decls.size)
    (he : .record (j.unit.recordDefinition d) ∈ j.entities) (ht : j.Tracks tops [] h a)
    (hr : j.Reached (j.after h [.visit (.record (j.unit.recordDefinition d))]))
    (hDepth : j.entities.length < depth) :
    ∃ a', j.visitRecord depth d a = .ok ((), a') ∧
      j.Tracks (enlist tops (j.idOf (.record (j.unit.recordDefinition d)))) []
        (j.after h [.visit (.record (j.unit.recordDefinition d))]) a' := by
  obtain ⟨a', hRun, ht'⟩ := recordNode_follows hj he h a ht hr (Nat.lt_add_right _ hDepth)
  refine ⟨{ a' with records := enlist a'.records (j.idOf (.record (j.unit.recordDefinition d))) }, ?_, ?_⟩
  · rw [visitRecord, Checked.recordDefinition_eq hd, lift_bind, bind_run hRun]
    rfl
  · exact { ht' with records := by rw [← ht'.records] }

theorem visitTopLevel_run {site : Nat} {d : DeclId} (hSite : j.unit.topLevel[site]? = some d)
    (ht : j.Tracks tops [] h a) (hr : j.Reached (j.after h (j.siteAgenda site d)))
    (hDepth : j.entities.length < depth) (hs : .function site d ∉ entered h) :
    ∃ a', j.visitTopLevel depth d a = .ok ((), a') ∧
      j.Tracks (j.enlistTop tops d) [] (j.after h (j.siteAgenda site d)) a' := by
  have hTop := List.mem_of_getElem? hSite
  have hIndex := hj.unit.topLevel d hTop
  obtain ⟨decl, hDecl⟩ := SourceUnit.exists_decl hIndex
  have hKind : j.unit.declKind? d = some decl.kind := by simp [SourceUnit.declKind?, hDecl]
  have hDefinition : j.unit.definition? d = decl.definition? := by simp [SourceUnit.definition?, hDecl]
  rw [visitTopLevel, Checked.decl_eq hDecl, lift_bind, enlistTop, hKind]
  cases hk : decl.kind with
  | function params body =>
      cases hDef : decl.definition? with
      | some definition =>
          have hVisits : j.Visits site d definition.1 definition.2 := ⟨hSite, hDefinition.trans hDef⟩
          rw [siteAgenda_of_definition hVisits.2] at hr ⊢
          exact visitFunction_run hj hVisits ht hr hDepth hs
      | none =>
          have hSkip : j.unit.Skipped d :=
            ⟨⟨params, body, hKind.trans (congrArg some hk)⟩, hDefinition.trans hDef⟩
          rw [siteAgenda_of_skipped hSkip] at hr ⊢
          have hVisit : j.visitFunction depth d = discard (claim decl.range .exclusive decl.name.text) := by
            rw [visitFunction, Checked.decl_eq hDecl, lift_bind, hDef]
          simp only [hVisit]
          have hFollows : j.Follows tops [] depth _ _ () := follows_skip hDecl
          exact hFollows h a ht hr (Nat.lt_add_right _ hDepth)
  | record tag fields definition =>
      have hRecord : j.unit.IsRecord d := ⟨tag, fields, definition, hKind.trans (congrArg some hk)⟩
      rw [siteAgenda_of_record hRecord] at hr ⊢
      cases hv : j.options.visitRecords with
      | true =>
          rw [hv] at hr
          exact visitRecord_run hj hIndex (Starts.record hTop hRecord hv).mem_entities ht hr hDepth
      | false => exact ⟨a, rfl, by simpa using ht⟩
  | _ =>
      have hNone : j.siteAgenda site d = [] := by simp [siteAgenda, hDecl, hk]
      rw [hNone]
      exact ⟨a, rfl, by simpa using ht⟩

/-- The declarations of the top level from some position on. -/
theorem topLevel_run {ds : List DeclId} {first : Nat}
    (hSites : ∀ x ∈ ds.zipIdx first, j.unit.topLevel[x.2]? = some x.1) (ht : j.Tracks tops [] h a)
    (hr : j.Reached (j.after h ((ds.zipIdx first).flatMap fun (d, site) => j.siteAgenda site d)))
    (hDepth : j.entities.length < depth) (hs : ∀ site d, .function site d ∈ entered h → site < first) :
    ∃ a', ds.forM (j.visitTopLevel depth) a = .ok ((), a') ∧
      j.Tracks (ds.foldl j.enlistTop tops) []
        (j.after h ((ds.zipIdx first).flatMap fun (d, site) => j.siteAgenda site d)) a' := by
  induction ds generalizing tops first h a with
  | nil => exact ⟨a, rfl, by simpa using ht⟩
  | cons d ds ih =>
      rw [List.zipIdx_cons, List.flatMap_cons, after_append] at hr ⊢
      rw [List.zipIdx_cons] at hSites
      have hSite := hSites _ List.mem_cons_self
      obtain ⟨a₁, hRun₁, ht₁⟩ := visitTopLevel_run hj hSite ht hr.before hDepth
        fun he => Nat.lt_irrefl _ (hs _ _ he)
      have hNext : ∀ site d', .function site d' ∈ entered (j.after h (j.siteAgenda first d)) →
          site < first + 1 := by
        intro site d' hm
        have hPool : ∀ b ∈ requested (j.siteAgenda first d), b ∈ j.pool := fun b hb =>
          requested_program_pool b (mem_requested_program_iff.mpr ⟨first, d, hSite, hb⟩)
        rcases function_of_mem_entered_after hPool hm with hBefore | hNow
        · exact Nat.lt_succ_of_lt (hs site d' hBefore)
        · have hNow := List.mem_filter.mpr ⟨hNow, (rfl : isFunction (.function site d') = true)⟩
          rw [filter_requested_siteAgenda, Option.mem_toList, Option.map_eq_some_iff] at hNow
          obtain ⟨_, _, hEq⟩ := hNow
          cases hEq
          exact Nat.lt_succ_self _
      obtain ⟨a₂, hRun₂, ht₂⟩ := ih (fun x hx => hSites x (List.mem_cons_of_mem _ hx)) ht₁ hr hNext
      refine ⟨a₂, ?_, ht₂⟩
      exact (bind_run hRun₁).trans hRun₂

end TopLevel

section Records

theorem foldl_enlist (ids : List NodeId) : ids.foldl enlist [] = ids.eraseDups := by
  induction ids using List.reverseRecOn with
  | nil => rfl
  | append_singleton ids id ih =>
      rw [List.foldl_append, List.foldl_cons, List.foldl_nil, ih, List.eraseDups_append, enlist]
      by_cases hm : id ∈ ids <;> simp [List.removeAll, hm, List.eraseDups_cons]

/-- The records enlisted on the way are the records of the graph. -/
theorem foldl_enlistTop (j : Job) :
    j.unit.topLevel.foldl j.enlistTop [] = j.topRecords.map (j.idOf <| .record ·) := by
  have hInj : ∀ d ∈ j.topRecords, ∀ d' ∈ j.topRecords,
      j.idOf (.record d) = j.idOf (.record d') → d = d' := by
    intro d hd d' hd' hEq
    exact Entity.record.inj (idOf_inj (record_mem_entities_of_topRecords hd)
      (record_mem_entities_of_topRecords hd') hEq)
  unfold topRecords at hInj ⊢
  split
  · next hv =>
      simp only [hv, if_true, List.mem_eraseDups] at hInj
      rw [← eraseDups_map hInj, ← foldl_enlist, List.foldl_map, List.foldl_filterMap]
      congr 1
      funext tops d
      rw [enlistTop, hv]
      cases j.unit.declKind? d with
      | none => rfl
      | some kind => cases kind <;> rfl
  · next hv =>
      have hSame : ∀ tops d, j.enlistTop tops d = tops := by
        intro tops d
        unfold enlistTop
        split
        · exact if_neg hv
        · rfl
      induction j.unit.topLevel with
      | nil => rfl
      | cons d ds ih => rw [List.foldl_cons, hSame, ih]

end Records

/-- What tracks all events is the code graph. -/
theorem Tracks.eq_codeGraph (ht : j.Tracks (j.topRecords.map (j.idOf <| .record ·)) [] j.events a) :
    (⟨a.arena, a.functions, a.records, a.diagnostics⟩ : CodeGraph) = j.codeGraph := by
  have hArena : a.arena = j.codeGraph.arena := by
    refine Arena.ext_get? fun id => ?_
    rw [arena_get?]
    cases he : j.entities[id.index]? with
    | none =>
        have hLength := List.getElem?_eq_none_iff.mp he
        exact Array.getElem?_eq_none_iff.mpr (Nat.le_trans (Nat.le_of_eq ht.size) hLength)
    | some e =>
        have hId : j.idOf e = id := Reached.idOf_of_getElem? (List.prefix_refl _) he
        rw [← hId]
        exact ht.node e (List.mem_of_getElem? he) (by simp)
  rw [hArena, ht.functions, ht.records, ht.diagnostics, ← entities, ← functions_codeGraph]
  rfl

/-- A depth beyond the number of nodes is enough: there is no fault, and the graph is the code graph. -/
theorem InRange.assemble_eq (hj : j.InRange) (hDepth : j.codeGraph.arena.size < depth) :
    j.assemble depth = .ok j.codeGraph := by
  rw [size_arena] at hDepth
  obtain ⟨a, hRun, ht⟩ := topLevel_run hj (fun x hx => List.mem_zipIdx_iff_getElem?.mp hx) j.tracks_nil
    (List.prefix_refl j.events) hDepth (fun _ _ he => by cases he)
  rw [foldl_enlistTop] at ht
  rw [assemble, StateT.run, hRun]
  exact congrArg Except.ok ht.eq_codeGraph

section Size

/-- How many blocks the flow graph of a function has, as the frontend builds it. -/
def flowSize (j : Job) (d : DeclId) : Nat :=
  match j.frontend.flowGraph j.unit d with
  | .ok g => g.blocks.length
  | .error _ => 0

/-- The functions that are visited, each once. -/
def visited (j : Job) : List DeclId := (j.topFunctions.map (·.2)).eraseDups

theorem length_blocks_le (j : Job) (d : DeclId) : (j.blocks d).length ≤ j.flowSize d := by
  unfold blocks flow flowSize
  split
  · cases j.frontend.flowGraph j.unit d with
    | error e => exact Nat.zero_le _
    | ok g =>
        simp only [Except.bind, FlowGraph.checked]
        cases g.firstDangling? <;> simp
  · exact Nat.zero_le _

theorem Visits.mem_visited {site : Nat} {d : DeclId} {params : List DeclId} {body : StmtId}
    (hVisits : j.Visits site d params body) : d ∈ j.visited :=
  List.mem_eraseDups.mpr (List.mem_map.mpr ⟨(site, d), mem_topFunctions_iff.mpr ⟨_, _, hVisits⟩, rfl⟩)

/-- Only a function that is visited has blocks among the entities. -/
theorem visited_of_block {f : DeclId} {i : Nat} (he : .block f i ∈ j.entities) : f ∈ j.visited := by
  obtain ⟨⟨_, _, _, hVisits⟩, -⟩ := visits_of_block he
  exact hVisits.mem_visited

/-- What can be entered on a unit in range: the statements, four roles of each declaration, a function for
each position of the top level, and the blocks of the functions visited. -/
def budget (j : Job) : List Entity :=
  (List.range j.unit.stmts.size).map (.stmt ⟨·⟩) ++
    (List.range j.unit.decls.size).flatMap
      (fun i => [.decl ⟨i⟩, .record ⟨i⟩, .enum ⟨i⟩, .typedef ⟨i⟩]) ++
    j.unit.topLevel.zipIdx.map (fun (d, site) => .function site d) ++
    j.visited.flatMap fun d => (List.range (j.blocks d).length).map (.block d ·)

theorem InRange.mem_budget (hj : j.InRange) {e : Entity} (he : e ∈ j.entities) : e ∈ j.budget := by
  have hKnown := hj.known_of_mem_entities he
  cases e with
  | block f i =>
      have hf := visited_of_block he
      have hi := (block_mem_known.mp hKnown).2
      simp [budget, hf, hi]
  | _ => simpa [budget, known] using hKnown

theorem length_budget_le (j : Job) : j.budget.length ≤
    j.unit.stmts.size + 4 * j.unit.decls.size + j.unit.topLevel.length + (j.visited.map j.flowSize).sum := by
  have hBlocks : (j.visited.map fun d => (j.blocks d).length).sum ≤ (j.visited.map j.flowSize).sum :=
    List.sum_le_sum fun d _ => j.length_blocks_le d
  simp [budget, List.length_flatMap]
  omega

end Size

/-- On a unit in range: from some depth on the assembly faults nowhere and yields the code graph, whose nodes
are no more than the statements, four for each declaration, the positions of the top level and the blocks of
the functions visited. -/
theorem assemble_total (j : Job) (h : j.InRange) :
    (∀ depth, j.codeGraph.arena.size < depth → j.assemble depth = .ok j.codeGraph) ∧
    j.codeGraph.arena.size ≤ j.unit.stmts.size + 4 * j.unit.decls.size + j.unit.topLevel.length +
      (j.visited.map j.flowSize).sum := by
  constructor
  · intro depth hDepth
    exact h.assemble_eq hDepth
  · have hLength : j.entities.length ≤ j.budget.length :=
      (j.entities_nodup.subperm fun _ => h.mem_budget).length_le
    rw [size_arena]
    exact Nat.le_trans hLength j.length_budget_le

theorem assemble_total_cell : (cellJob true).InRange ∧ (cellJob true).codeGraph.arena.size = 7 ∧
    (cellJob true).assemble 8 = .ok (cellJob true).codeGraph ∧
    (cellJob true).codeGraph.arena.size ≤ 3 + 4 * 5 + 3 + 1 := by
  have hSize : (cellJob true).codeGraph.arena.size = 7 := by decide +kernel
  obtain ⟨hRun, hBound⟩ := assemble_total (cellJob true) (cellJob_inRange true)
  exact ⟨cellJob_inRange true, hSize, hRun 8 (by rw [hSize]; decide), hBound⟩

/-- An identity outside the tables is a fault, and so is a depth that does not suffice. -/
example : ({ cellJob true with unit := { cellUnit with topLevel := [⟨9⟩] } } : Job).assemble 8 =
      .error (.decl ⟨9⟩) ∧
    (cellJob true).assemble 2 = .error .depth := by decide +kernel

end UnitGraph.Job
