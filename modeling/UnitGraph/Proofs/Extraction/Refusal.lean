import UnitGraph.Proofs.Extraction.Diagnostics
import UnitGraph.Proofs.Extraction.Flow
import UnitGraph.Proofs.Extraction.Renaming

/-!
# A flow graph with a dangling edge

A flow graph is looked through before any of its blocks is visited. Main statement: an edge that leaves the graph,
wherever it is, makes the extraction what it is if no graph of the function can be built, apart from the warning at
each place where the function stands; that warning names the first such edge.
-/
namespace UnitGraph

open Traversal

/-- The first edge that leaves a flow graph, in the order of the blocks and of their edges. -/
structure FlowGraph.FirstDangling (g : FlowGraph) (b : FlowBlock) (t : Nat) : Prop where
  leaves : g.blocks.length ≤ t
  block : ∃ before after, g.blocks = before ++ b :: after ∧
    ∀ b' ∈ before, ∀ t' ∈ b'.targets, t' < g.blocks.length
  edge : ∃ before after, b.targets = before ++ t :: after ∧ ∀ t' ∈ before, t' < g.blocks.length

theorem FlowGraph.firstDangling?_eq_some {g : FlowGraph} {e : FlowError} (h : g.firstDangling? = some e) :
    ∃ b t, e = .dangling b.label t g.blocks.length ∧ g.FirstDangling b t := by
  obtain ⟨before, b, after, hBlocks, hb, hBefore⟩ := List.findSome?_eq_some_iff.mp h
  obtain ⟨t, ht, rfl⟩ := Option.map_eq_some_iff.mp hb
  obtain ⟨hLeaves, earlier, later, hTargets, hEarlier⟩ := List.find?_eq_some_iff_append.mp ht
  refine ⟨b, t, rfl, by simpa using hLeaves, ⟨before, after, hBlocks, ?_⟩, earlier, later, hTargets, ?_⟩
  · intro b' hb' t' ht'
    have hNone := List.find?_eq_none.mp (Option.map_eq_none_iff.mp (hBefore b' hb')) t' ht'
    simpa using hNone
  · intro t' ht'
    simpa using hEarlier t' ht'

/-- The warning about a dangling edge in full. -/
theorem FlowError.message_dangling (name : String) (r : SourceRange) (block target count : Nat) :
    ((FlowError.dangling block target count).diagnostic name r).message =
      s!"{name}: malformed control-flow graph: block {block} has successor {target} of {count}" := by
  have hPrefix : ": malformed control-flow graph: block " = ": " ++ "malformed control-flow graph: block " := by
    simp only [String.reduceAppend]
  have hMessage : ((FlowError.dangling block target count).diagnostic name r).message =
      name ++ ": " ++ ("malformed control-flow graph: block " ++ toString block ++ " has successor " ++
        toString target ++ " of " ++ toString count) := rfl
  have hText : s!"{name}: malformed control-flow graph: block {block} has successor {target} of {count}" =
      name ++ ": malformed control-flow graph: block " ++ toString block ++ " has successor " ++
        toString target ++ " of " ++ toString count := rfl
  rw [hMessage, hText, hPrefix]
  simp only [String.append_assoc]

/-- Two code graphs are the same apart from one diagnostic, which stands in a number of places. -/
structure CodeGraph.SameBut (w w' : Diagnostic) (places : Nat) (g g' : CodeGraph) : Prop where
  arena : g'.arena = g.arena
  functions : g'.functions = g.functions
  records : g'.records = g.records
  diagnostics : ∃ others : List (List Diagnostic), others.length = places + 1 ∧
    g.diagnostics = [w].intercalate others ∧ g'.diagnostics = [w'].intercalate others

/-- Two ways of reporting the elements of a list that differ at one element only. -/
theorem exists_intercalate {α β : Type} [DecidableEq α] {f f' : α → Option β} {a : α} {b b' : β}
    (hb : f a = some b) (hb' : f' a = some b') {l : List α} (h : ∀ x ∈ l, x ≠ a → f' x = f x) :
    ∃ others : List (List β), others.length = l.count a + 1 ∧ l.filterMap f = [b].intercalate others ∧
      l.filterMap f' = [b'].intercalate others := by
  induction l with
  | nil => exact ⟨[[]], rfl, rfl, rfl⟩
  | cons x l ih =>
      obtain ⟨others, hLength, hList, hList'⟩ := ih fun y hy => h y (List.mem_cons_of_mem x hy)
      -- an element that both report alike belongs to the first of the other parts
      obtain ⟨first, rest, rfl⟩ := List.exists_cons_of_length_eq_add_one hLength
      by_cases hx : x = a
      · subst hx
        refine ⟨[] :: first :: rest, ?_, ?_, ?_⟩
        · rw [List.count_cons_self, List.length_cons, hLength]
        · rw [List.filterMap_cons_some hb, hList]
          rfl
        · rw [List.filterMap_cons_some hb', hList']
          rfl
      · have hFirst : ∀ y : β, [y].intercalate (((f x).toList ++ first) :: rest) =
            (f x).toList ++ [y].intercalate (first :: rest) := by
          intro y
          cases rest <;> simp
        refine ⟨((f x).toList ++ first) :: rest, ?_, ?_, ?_⟩
        · rw [List.count_cons_of_ne hx]
          exact hLength
        · rw [hFirst, ← hList]
          cases hfx : f x <;> simp [hfx]
        · rw [hFirst, ← hList']
          have hSame := h x List.mem_cons_self hx
          cases hfx : f x <;> simp [hSame, hfx]

/-- The mark if the flow graph of one function is missing for another reason. -/
def Mark.retell (d : DeclId) (e : FlowError) : Mark → Mark
  | .noFlow d' error => .noFlow d' (if d' = d then e else error)
  | .claim x => .claim x
  | .skip d' => .skip d'

/-- Why a flow graph is missing is of no account for tokens. -/
theorem SourceUnit.settle_retell (u : SourceUnit) (d : DeclId) (e : FlowError) (l : Ledger) (ms : List Mark)
    (x : Entity) :
    holdings (u.settle l (ms.map (Mark.retell d e))) x = holdings (u.settle l ms) x ∧
      u.settledLedger l (ms.map (Mark.retell d e)) = u.settledLedger l ms := by
  induction ms generalizing l with
  | nil => exact ⟨rfl, rfl⟩
  | cons m ms ih =>
      rw [List.map_cons, settle, settle, settledLedger, settledLedger]
      have hRange : u.rangeOf (m.retell d e) = u.rangeOf m := by cases m <;> rfl
      rw [hRange]
      cases u.rangeOf m with
      | none => exact ih l
      | some r =>
          cases m with
          | noFlow d' error => exact ih l
          | claim y => exact ⟨congrArg (_ ++ ·) (ih _).1, (ih _).2⟩
          | skip d' => exact ⟨congrArg (_ ++ ·) (ih _).1, (ih _).2⟩

namespace Job

/-- The job whose frontend gives this answer about the flow graph of one function. -/
def answering (j : Job) (d : DeclId) (answer : Except FlowError FlowGraph) : Job :=
  { j with frontend := { j.frontend with
      flowGraph := fun u d' => if d' = d then answer else j.frontend.flowGraph u d' } }

variable {j : Job} {d : DeclId} {error e : FlowError}

/-- What an agenda item is if the flow graph of one function is missing for another reason. -/
def retellItem (d : DeclId) (e : FlowError) : Item Entity Mark → Item Entity Mark := Item.map id (Mark.retell d e)

theorem map_retellItem {items : List (Item Entity Mark)} (h : ∀ m ∈ itemMarks items, m.retell d e = m) :
    items.map (retellItem d e) = items := by
  induction items with
  | nil => rfl
  | cons i items ih =>
      cases i with
      | visit x =>
          rw [List.map_cons, ih h]
          rfl
      | mark m =>
          rw [List.map_cons, ih fun m' hm' => h m' (List.mem_cons_of_mem m hm')]
          exact congrArg (· :: items) (congrArg Item.mark (h m List.mem_cons_self))

@[simp] theorem unit_answering (j : Job) (d : DeclId) (answer : Except FlowError FlowGraph) :
    (j.answering d answer).unit = j.unit := rfl

@[simp] theorem options_answering (j : Job) (d : DeclId) (answer : Except FlowError FlowGraph) :
    (j.answering d answer).options = j.options := rfl

theorem flow_answering (d' : DeclId) :
    (j.answering d (.error e)).flow d' = if d' = d then .error e else j.flow d' := by
  rw [flow, answering]
  by_cases hd : d' = d
  · simp only [hd, if_pos]
    rfl
  · simp only [if_neg hd]
    rfl

section Refused
variable (e : FlowError) (hFlow : j.flow d = .error error)
include hFlow

theorem blocks_answering (d' : DeclId) : (j.answering d (.error e)).blocks d' = j.blocks d' := by
  rw [blocks, blocks, flow_answering]
  by_cases hd : d' = d
  · rw [if_pos hd, hd, hFlow]
    rfl
  · rw [if_neg hd]
    rfl

theorem agenda_answering (x : Entity) : (j.answering d (.error e)).agenda x = j.agenda x := by
  cases x with
  | block f i =>
      have hBlock : (j.answering d (.error e)).block? f i = j.block? f i := by
        rw [block?, block?, blocks_answering e hFlow]
      rw [agenda, agenda, hBlock]
  | _ => rfl

theorem flowAgenda_answering (d' : DeclId) :
    (j.answering d (.error e)).flowAgenda d' = (j.flowAgenda d').map (retellItem d e) := by
  rw [flowAgenda, flowAgenda, flow_answering]
  by_cases hWanted : j.options.flowBlocks
  · rw [options_answering, if_pos hWanted, if_pos hWanted]
    by_cases hd : d' = d
    · simp [hd, hFlow, retellItem, Item.map, Mark.retell]
    · rw [if_neg hd]
      cases j.flow d' with
      | ok g => simp [retellItem, Item.map, Function.comp_def]
      | error error' => simp [retellItem, Item.map, Mark.retell, hd]
  · rw [options_answering, if_neg hWanted, if_neg hWanted]
    rfl

theorem functionAgenda_answering (site : Nat) (d' : DeclId) (params : List DeclId) (body : StmtId) :
    (j.answering d (.error e)).functionAgenda site d' params body =
      (j.functionAgenda site d' params body).map (retellItem d e) := by
  have hBody : (bodyAgenda site d' params body).map (retellItem d e) = bodyAgenda site d' params body := by
    simp only [bodyAgenda, List.map_append, List.map_flatMap]
    rfl
  rw [functionAgenda_split, functionAgenda_split, flowAgenda_answering e hFlow, List.map_append, List.map_append,
    hBody]
  rfl

theorem siteAgenda_answering (site : Nat) (d' : DeclId) :
    (j.answering d (.error e)).siteAgenda site d' = (j.siteAgenda site d').map (retellItem d e) :=
  siteAgenda_map rfl rfl (functionAgenda_answering e hFlow site d') rfl fun _ => rfl

theorem program_answering : (j.answering d (.error e)).program = j.program.map (retellItem d e) := by
  rw [program, program, List.map_flatMap]
  exact List.flatMap_congr fun x _ => siteAgenda_answering e hFlow x.2 x.1

theorem events_answering :
    (j.answering d (.error e)).events = j.events.map (Event.map id (Mark.retell d e)) := by
  have hRenames : Traversal.Renames (· ∈ j.pool) id (Mark.retell d e) j.agenda
      (j.answering d (.error e)).agenda := by
    refine ⟨j.closed_pool, fun _ _ _ _ => id, fun x _ => ?_⟩
    rw [id, agenda_answering e hFlow]
    refine (map_retellItem fun m hm => ?_).symm
    rw [itemMarks_agenda] at hm
    split at hm
    · cases List.mem_singleton.mp hm
      rfl
    · cases hm
  have hProgram := program_answering e hFlow
  rw [events, Traversal.traverse, hProgram]
  refine hRenames.run_map j.closed_pool (closed_pool _) requested_program_pool (fun x hx => ?_)
    requested_program_pool (by simp)
  refine requested_program_pool _ ?_
  rw [hProgram, retellItem, requested_map, List.map_id]
  exact hx

theorem entities_answering : (j.answering d (.error e)).entities = j.entities := by
  rw [entities, events_answering e hFlow, entered_map, List.map_id]
  rfl

theorem marks_answering :
    marks (j.answering d (.error e)).events = (marks j.events).map (Mark.retell d e) := by
  rw [events_answering e hFlow, marks_map]

theorem renames_answering : Job.Renames id j (j.answering d (.error e)) where
  injective := Function.injective_id
  entities := by rw [List.map_id, entities_answering e hFlow]
  nodes := by
    intro x _ ids ids' tokens hIds
    obtain rfl : ids' = ids := funext hIds
    cases x with
    | block f i => simp only [id, nodeOf, block?, blocks_answering e hFlow]
    | function site f => simp only [id, nodeOf, unit_answering, blocks_answering e hFlow]
    | _ => rfl
  functions := rfl
  records := rfl

theorem holdings_answering (x : Entity) :
    holdings (j.answering d (.error e)).outcomes x = holdings j.outcomes x := by
  rw [outcomes, marks_answering e hFlow]
  exact (j.unit.settle_retell d e _ _ x).1

end Refused

/-- Only a function itself tells that it has no flow graph. -/
theorem owner_of_noFlow {site : Nat} {d' : DeclId} (h : .noFlow d error ∈ itemMarks (j.siteAgenda site d')) :
    d' = d := by
  obtain ⟨params, body, -, hs⟩ | ⟨-, hs⟩ | ⟨-, hs⟩ | ⟨-, -, -, hs⟩ := j.siteAgenda_cases site d' <;>
    rw [hs] at h
  · simp only [itemMarks_functionAgenda, List.mem_append, List.mem_map, List.mem_singleton, reduceCtorEq,
      and_false, exists_false, false_or, or_false] at h
    obtain ⟨-, error', -, hEq⟩ := mem_itemMarks_flowAgenda.mp h
    cases hEq
    rfl
  · cases List.mem_singleton.mp h
  · split at h <;> cases h
  · cases h

section Warned
variable {f : Decl} (hWanted : j.options.flowBlocks = true) (hFlow : j.flow d = .error error)
  (hDef : (j.unit.definition? d).isSome) (hf : j.unit.decl? d = some f)
include hFlow

theorem eq_of_noFlow_mem_marks {error' : FlowError} (h : .noFlow d error' ∈ marks j.events) : error' = error := by
  rcases List.mem_append.mp (j.marks_events_perm.mem_iff.mp h) with hProgram | hOwn
  · cases mem_itemMarks_program.mp hProgram with
    | noFlow _ _ he => exact Except.error.inj (he.symm.trans hFlow)
  · obtain ⟨x, -, hx⟩ := List.mem_map.mp hOwn
    cases hx

include hWanted hDef

/-- A function without a flow graph leaves one mark about that wherever it stands. -/
theorem count_noFlow : (marks j.events).count (.noFlow d error) = j.unit.topLevel.count d := by
  have hOwn : ((j.entities.filter j.claimsItself).map Mark.claim).count (.noFlow d error) = 0 := by
    simp [List.count_eq_zero]
  have hSite : ∀ site d', (itemMarks (j.siteAgenda site d')).count (.noFlow d error) = [d'].count d := by
    intro site d'
    by_cases hd : d' = d
    · obtain ⟨⟨params, body⟩, hDef⟩ := Option.isSome_iff_exists.mp hDef
      have hMarks : itemMarks (j.flowAgenda d) = [.noFlow d error] := by simp [flowAgenda, hWanted, hFlow]
      rw [hd, siteAgenda_of_definition hDef, itemMarks_functionAgenda, hMarks]
      simp [List.count_eq_zero]
    · rw [List.count_singleton, if_neg (by simpa using hd), List.count_eq_zero]
      exact fun hMem => hd (owner_of_noFlow hMem)
  have hPlaces : j.unit.topLevel = j.unit.topLevel.zipIdx.flatMap fun x => [x.1] := by
    rw [← List.map_eq_flatMap, List.zipIdx_map_fst]
  rw [j.marks_events_perm.count_eq, List.count_append, hOwn, Nat.add_zero, program, itemMarks_flatMap,
    List.count_flatMap]
  conv => rhs; rw [hPlaces, List.count_flatMap]
  simp only [Function.comp_def, hSite]

include hf

theorem sameBut_answering : CodeGraph.SameBut (error.diagnostic f.name.text f.range)
    (e.diagnostic f.name.text f.range) (j.unit.topLevel.count d) j.codeGraph
    (j.answering d (.error e)).codeGraph := by
  have hRenames := renames_answering e hFlow
  refine ⟨hRenames.arena_eq (holdings_answering e hFlow), hRenames.functions_codeGraph,
    hRenames.records_codeGraph, ?_⟩
  have hReport : ∀ error, j.unit.report? (.noFlow d error) = some (error.diagnostic f.name.text f.range) := by
    intro error
    simp [SourceUnit.report?, SourceUnit.flowFault?, SourceUnit.nameOf, hf]
  rw [diagnostics_eq_filterMap, diagnostics_eq_filterMap, marks_answering e hFlow, List.filterMap_map,
    ← count_noFlow hWanted hFlow hDef]
  -- every mark about the function gives the same reason, so its marks are the copies of one
  refine exists_intercalate (hReport error) ?_ fun m hm hne => ?_
  · rw [Function.comp_apply, Mark.retell, if_pos rfl]
    exact hReport e
  · cases m with
    | claim x => rfl
    | skip d' => rfl
    | noFlow d' error' =>
        have hd : d' ≠ d := by
          rintro rfl
          exact hne (congrArg _ (eq_of_noFlow_mem_marks hFlow hm))
        rw [Function.comp_apply, Mark.retell, if_neg hd]
        rfl

end Warned

/-- A flow graph from which an edge leaves is refused. -/
theorem flow_of_dangling {g : FlowGraph} (hAnswer : j.frontend.flowGraph j.unit d = .ok g)
    (hLeaves : ∃ b ∈ g.blocks, ∃ t ∈ b.targets, g.blocks.length ≤ t) :
    ∃ b t, j.flow d = .error (.dangling b.label t g.blocks.length) ∧ g.FirstDangling b t := by
  have hSome : g.firstDangling? ≠ none := by
    rw [Ne, FlowGraph.firstDangling?_eq_none_iff]
    rintro hClosed
    obtain ⟨b, hb, t, ht, hle⟩ := hLeaves
    exact absurd (hClosed b hb t ht) (Nat.not_lt.mpr hle)
  obtain ⟨error, hError⟩ := Option.ne_none_iff_exists'.mp hSome
  obtain ⟨b, t, rfl, hFirst⟩ := FlowGraph.firstDangling?_eq_some hError
  refine ⟨b, t, ?_, hFirst⟩
  simp [flow, hAnswer, Except.bind, FlowGraph.checked, hError]

/-- On every unit, for every frontend and whatever it might answer instead. -/
theorem dangling_flow_refused (j : Job) {site : Nat} {d : DeclId} {params : List DeclId} {body : StmtId} {f : Decl}
    {g : FlowGraph} (hWanted : j.options.flowBlocks = true) (hVisits : j.Visits site d params body)
    (hf : j.unit.decl? d = some f) (hAnswer : j.frontend.flowGraph j.unit d = .ok g)
    (hLeaves : ∃ b ∈ g.blocks, ∃ t ∈ b.targets, g.blocks.length ≤ t) (e : FlowError) :
    (∃ b t w, g.FirstDangling b t ∧ w.code.text = "W0102" ∧ w.severity = .warning ∧
      w.range = some f.range ∧
      w.message =
        s!"{f.name.text}: malformed control-flow graph: block {b.label} has successor {t} of {g.blocks.length}" ∧
      CodeGraph.SameBut w (e.diagnostic f.name.text f.range) (j.unit.topLevel.count d) j.codeGraph
        (j.answering d (.error e)).codeGraph) ∧
    (j.answering d (.error e)).registry = j.registry ∧
    j.unit.settledLedger j.unit.ledger (marks (j.answering d (.error e)).events) =
      j.unit.settledLedger j.unit.ledger (marks j.events) ∧
    (∀ i, j.registry.get? (.block d i) = none) ∧
    ∀ site, j.unit.topLevel[site]? = some d → ∃ n,
      j.codeGraph.arena.function? (j.idOf (.function site d)) = some n ∧
      n.args = params.map (j.idOf <| .decl ·) ∧ n.entry = j.idOf (.stmt body) ∧ n.blocks = [] := by
  obtain ⟨b, t, hFlow, hFirst⟩ := flow_of_dangling hAnswer hLeaves
  have hNone : j.blocks d = [] := by simp [blocks, hFlow]
  have hDef : (j.unit.definition? d).isSome := by rw [hVisits.2]; rfl
  have hSame := sameBut_answering (e := e) hWanted hFlow hDef hf
  refine ⟨⟨b, t, _, hFirst, rfl, rfl, rfl, FlowError.message_dangling .., hSame⟩, ?_, ?_, ?_, ?_⟩
  · rw [registry, registry, entities_answering e hFlow]
  · rw [marks_answering e hFlow]
    exact (j.unit.settle_retell d e _ _ (.block d 0)).2
  · intro i
    refine Option.eq_none_iff_forall_ne_some.mpr fun id hId => ?_
    have hLt := (visits_of_block (mem_entities_of_registry hId)).2
    rw [hNone] at hLt
    exact Nat.not_lt_zero i hLt
  · intro site' hSite
    obtain ⟨n, hn, hArgs, hEntry, hBlocks⟩ := function_node (j := j) ⟨hSite, hVisits.2⟩
    refine ⟨n, by rw [Arena.function?, hn]; rfl, hArgs, hEntry, ?_⟩
    rw [hBlocks, hNone]
    rfl

/-- The second block, to which no edge leads, has two edges that leave the graph. -/
def strayFlow : FlowGraph :=
  ⟨[⟨2, [⟨2⟩], some ⟨1⟩, [none]⟩, ⟨7, [⟨1⟩], none, [some 0, some 18446744073709551615, some 5]⟩]⟩

def strayJob : Job where
  unit := cellUnit
  frontend := { parse := fun _ => .ok cellUnit, flowGraph := fun _ _ => .ok strayFlow }
  options := { flowBlocks := true }

theorem dangling_flow_refused_stray : (∃ b ∈ strayFlow.blocks, ∃ t ∈ b.targets, strayFlow.blocks.length ≤ t) ∧
    ∃ w, w.code.text = "W0102" ∧ w.range = some ⟨10, 22⟩ ∧
      CodeGraph.SameBut w (FlowError.diagnostic "f" ⟨10, 22⟩ (.unsupported "no flow graphs")) 1 strayJob.codeGraph
        (strayJob.answering ⟨2⟩ (.error (.unsupported "no flow graphs"))).codeGraph := by
  have hLeaves : ∃ b ∈ strayFlow.blocks, ∃ t ∈ b.targets, strayFlow.blocks.length ≤ t := by decide
  have hVisits : strayJob.Visits 1 ⟨2⟩ [⟨3⟩] ⟨0⟩ := ⟨rfl, rfl⟩
  obtain ⟨⟨_, _, w, -, hText, -, hRange, -, hSame⟩, -⟩ :=
    dangling_flow_refused strayJob rfl hVisits rfl rfl hLeaves (.unsupported "no flow graphs")
  exact ⟨hLeaves, w, hText, hRange, hSame⟩

end Job

end UnitGraph
