import UnitGraph.Proofs.Extraction.InRange
import UnitGraph.Proofs.Extraction.Nodes

/-!
# Canonical nodes

Main statement: on a unit in range, nodes and source entities determine one another, and a node carries the
name, class or label of its entity. The functions of the graph are the function nodes, in order of creation
and of the top level; its records are the definitions of the records at top level, each where it comes first.
-/
namespace UnitGraph

section Dedup
variable {α β : Type} [BEq α] [LawfulBEq α] [BEq β] [LawfulBEq β]

omit [LawfulBEq α] in
/-- Induction along the removal of duplicates: the head stays, and its copies leave the tail. -/
theorem eraseDups_induction {motive : List α → Prop} (nil : motive [])
    (cons : ∀ a as, motive (as.filter fun b => !b == a) → motive (a :: as)) (l : List α) : motive l := by
  induction hn : l.length using Nat.strongRecOn generalizing l with
  | ind n ih =>
      cases l with
      | nil => exact nil
      | cons a as =>
          refine cons a as (ih _ ?_ _ rfl)
          rw [← hn, List.length_cons]
          exact Nat.lt_succ_of_le (List.length_filter_le _ _)

theorem nodup_eraseDups (l : List α) : l.eraseDups.Nodup := by
  induction l using eraseDups_induction with
  | nil => exact List.nodup_nil
  | cons a as ih =>
      rw [List.eraseDups_cons]
      exact List.nodup_cons.mpr ⟨by simp, ih⟩

theorem eraseDups_map {f : α → β} {l : List α} (hf : ∀ a ∈ l, ∀ b ∈ l, f a = f b → a = b) :
    (l.map f).eraseDups = l.eraseDups.map f := by
  induction l using eraseDups_induction with
  | nil => rfl
  | cons a as ih =>
      have hCopies : as.filter ((fun b => !b == f a) ∘ f) = as.filter fun b => !b == a := by
        apply List.filter_congr
        intro b hb
        have hEq : f b = f a ↔ b = a :=
          ⟨hf b (List.mem_cons_of_mem a hb) a List.mem_cons_self, fun h => h ▸ rfl⟩
        simp only [Function.comp_apply]
        rw [Bool.eq_iff_iff]
        simpa using not_congr hEq
      have hTail : ∀ b ∈ as.filter fun b => !b == a, b ∈ a :: as := by
        intro b hb
        exact List.mem_cons_of_mem a (List.mem_filter.mp hb).1
      rw [List.map_cons, List.eraseDups_cons, List.filter_map, hCopies,
        ih fun b hb c hc => hf b (hTail b hb) c (hTail c hc), List.eraseDups_cons, List.map_cons]

end Dedup

namespace Job

open Traversal

/-- The node is of the entity's kind and carries its name, class or label. -/
inductive Shows (j : Job) : Entity → Node → Prop
  | stmt {s : StmtId} {stmt : Stmt} {n : StmtNode} : j.unit.stmt? s = some stmt →
      n.name = stmt.className → Shows j (.stmt s) (.stmt n)
  | decl {d : DeclId} {decl : Decl} {n : DeclNode} : j.unit.decl? d = some decl →
      n.name = decl.name.text → Shows j (.decl d) (.decl n)
  | record {d : DeclId} {decl : Decl} {n : RecordNode} : j.unit.decl? d = some decl →
      n.name = decl.name.text → Shows j (.record d) (.record n)
  | enum {d : DeclId} {decl : Decl} {n : EnumNode} : j.unit.decl? d = some decl →
      n.name = decl.name.text → Shows j (.enum d) (.enum n)
  | typedef {d : DeclId} {decl : Decl} {n : TypedefNode} : j.unit.decl? d = some decl →
      n.name = decl.name.text → Shows j (.typedef d) (.typedef n)
  | block {f : DeclId} {i : Nat} {b : FlowBlock} {n : BlockNode} : f ∈ j.unit.topLevel →
      j.block? f i = some b → n.name = s!"cfg_{b.label}" → Shows j (.block f i) (.block n)
  | function {site : Nat} {d : DeclId} {decl : Decl} {n : FunctionNode} :
      j.unit.topLevel[site]? = some d → j.unit.decl? d = some decl → decl.definition?.isSome →
      n.name = decl.name.text → Shows j (.function site d) (.function n)

/-- The node and the entity belong to one another and to nothing else. -/
structure Canonical (j : Job) (id : NodeId) (e : Entity) : Prop where
  registered : j.registry.get? e = some id
  entity_unique : ∀ e', j.registry.get? e' = some id → e' = e
  node_unique : ∀ id', j.entities[id'.index]? = some e → id' = id

variable {j : Job}

theorem canonical_of_registry {e : Entity} {id : NodeId} (h : j.registry.get? e = some id) :
    j.Canonical id e where
  registered := h
  entity_unique _ h' := registry_inj h' h
  node_unique id' h' := by
    have h' := registry_get?_iff.mpr h'
    exact Option.some.inj (h'.symm.trans h)

/-- A function is entered where it stands at top level, and nowhere else. -/
theorem visits_of_mem_entities {site : Nat} {d : DeclId} (h : .function site d ∈ j.entities) :
    ∃ params body, j.Visits site d params body := by
  have hAll : ∀ e ∈ j.entities, e = .function site d → j.Starts e := by
    refine forall_entities (fun e he _ => he) ?_
    intro e e' _ hAsks hEq
    subst hEq
    cases hAsks
  cases hAll _ h rfl with
  | function hVisits => exact ⟨_, _, hVisits⟩

theorem InRange.shows (h : j.InRange) {e : Entity} (he : e ∈ j.entities) (tokens : List Token) :
    j.Shows e (j.nodeOf j.idOf tokens e) := by
  have hKnown := h.known_of_mem_entities he
  cases e with
  | stmt s =>
      obtain ⟨stmt, hStmt⟩ := SourceUnit.exists_stmt (stmt_mem_known.mp hKnown)
      exact .stmt hStmt (by simp [hStmt])
  | decl d =>
      obtain ⟨decl, hDecl⟩ := SourceUnit.exists_decl (decl_mem_known.mp hKnown)
      exact .decl hDecl (by simp [SourceUnit.nameOf, hDecl])
  | record d =>
      obtain ⟨decl, hDecl⟩ := SourceUnit.exists_decl (record_mem_known.mp hKnown)
      exact .record hDecl (by simp [SourceUnit.nameOf, hDecl])
  | enum d =>
      obtain ⟨decl, hDecl⟩ := SourceUnit.exists_decl (enum_mem_known.mp hKnown)
      exact .enum hDecl (by simp [SourceUnit.nameOf, hDecl])
  | typedef d =>
      obtain ⟨decl, hDecl⟩ := SourceUnit.exists_decl (typedef_mem_known.mp hKnown)
      exact .typedef hDecl (by simp [SourceUnit.nameOf, hDecl])
  | block f i =>
      obtain ⟨hf, hi⟩ := block_mem_known.mp hKnown
      have hb : j.block? f i = some (j.blocks f)[i] := List.getElem?_eq_getElem hi
      exact .block hf hb (by simp [hb])
  | function site d =>
      obtain ⟨params, body, hVisits⟩ := visits_of_mem_entities he
      obtain ⟨decl, hDecl, hDef⟩ := Option.bind_eq_some_iff.mp hVisits.2
      exact .function hVisits.1 hDecl (by simp [hDef]) (by simp [hDecl])

section Functions

/-- Functions are the entities that only the top level asks for. -/
def isFunction : Entity → Bool
  | .function .. => true
  | _ => false

theorem filter_requested_functionAgenda (site : Nat) (d : DeclId) (params : List DeclId) (body : StmtId) :
    (requested (j.functionAgenda site d params body)).filter isFunction = [.function site d] := by
  simp [requested_functionAgenda, isFunction, List.filter_map, Function.comp_def]

theorem filter_requested_siteAgenda (j : Job) (site : Nat) (d : DeclId) :
    (requested (j.siteAgenda site d)).filter isFunction =
      ((j.unit.definition? d).map fun _ => Entity.function site d).toList := by
  obtain ⟨params, body, hDef, hs⟩ | ⟨hSkip, hs⟩ | ⟨hRecord, hs⟩ | ⟨hDef, _, _, hs⟩ :=
    j.siteAgenda_cases site d
  · rw [hs, filter_requested_functionAgenda, hDef]
    rfl
  · rw [hs, hSkip.2]
    rfl
  · rw [hs, definition?_of_isRecord hRecord]
    split <;> rfl
  · rw [hs, hDef]
    rfl

theorem filter_requested_program (j : Job) : (requested j.program).filter isFunction =
    j.topFunctions.map fun (site, d) => .function site d := by
  rw [program, requested_flatMap, List.filter_flatMap, topFunctions, List.map_filterMap,
    List.filterMap_eq_flatMap_toList]
  congr 1
  funext x
  rw [filter_requested_siteAgenda]
  simp [SourceUnit.definition?, Option.map_map, Function.comp_def]

theorem topFunctions_pairwise (j : Job) : j.topFunctions.Pairwise fun f g => f.1 < g.1 := by
  refine (pairwise_zipIdx j.unit.topLevel).filterMap _ ?_
  intro x y hxy f hf g hg
  obtain ⟨_, _, rfl⟩ := Option.map_eq_some_iff.mp hf
  obtain ⟨_, _, rfl⟩ := Option.map_eq_some_iff.mp hg
  exact hxy

theorem filter_entities (j : Job) : j.entities.filter isFunction =
    j.topFunctions.map fun (site, d) => .function site d := by
  rw [← filter_requested_program]
  refine filter_entered_run j.closed_pool ?_ requested_program_pool ?_ (by simp)
  · intro e e' he'
    cases mem_requested_agenda.mp he' <;> rfl
  · rw [filter_requested_program]
    refine List.pairwise_map.mpr (j.topFunctions_pairwise.imp ?_)
    intro f g hfg hEq
    exact absurd (Entity.function.inj hEq).1 (Nat.ne_of_lt hfg)

theorem entities_pairwise (j : Job) :
    j.entities.Pairwise fun e e' => (j.idOf e).index < (j.idOf e').index := by
  have hAt : ∀ i (hi : i < j.entities.length), j.idOf j.entities[i] = ⟨i⟩ := fun i hi =>
    idOf_of_registry (registry_get?_iff.mpr (List.getElem?_eq_getElem hi))
  refine List.pairwise_iff_getElem.mpr fun i k hi hk hik => ?_
  rw [hAt, hAt]
  exact hik

theorem functions_codeGraph (j : Job) :
    j.codeGraph.functions = (j.entities.filter isFunction).map j.idOf := by
  rw [filter_entities, List.map_map]
  rfl

theorem functions_pairwise (j : Job) : j.codeGraph.functions.Pairwise (·.index < ·.index) := by
  rw [functions_codeGraph]
  exact List.pairwise_map.mpr (j.entities_pairwise.filter isFunction)

theorem functions_registered (j : Job) : j.codeGraph.functions.map some =
    j.topFunctions.map fun (site, d) => j.registry.get? (.function site d) := by
  rw [functions_codeGraph, List.map_map]
  calc (j.entities.filter isFunction).map (some ∘ j.idOf)
      = (j.entities.filter isFunction).map j.registry.get? :=
        List.map_congr_left fun e he => (registry_idOf (List.mem_filter.mp he).1).symm
    _ = j.topFunctions.map fun (site, d) => j.registry.get? (.function site d) := by
        rw [filter_entities, List.map_map]
        rfl

theorem mem_functions_iff {id : NodeId} :
    id ∈ j.codeGraph.functions ↔ ∃ n, j.codeGraph.arena.get? id = some (.function n) := by
  rw [functions_codeGraph, List.mem_map]
  constructor
  · intro h
    obtain ⟨e, he, rfl⟩ := h
    obtain ⟨he, hFunction⟩ := List.mem_filter.mp he
    rw [arena_get?_of_registry (registry_idOf he)]
    cases e with
    | function site d => exact ⟨_, rfl⟩
    | _ => cases hFunction
  · intro h
    obtain ⟨n, hn⟩ := h
    obtain ⟨e, he, hNode⟩ := exists_entity hn
    refine ⟨e, List.mem_filter.mpr ⟨mem_entities_of_registry he, ?_⟩, idOf_of_registry he⟩
    cases e with
    | function site d => rfl
    | _ => cases hNode

end Functions

section Records

theorem record_mem_entities_of_topRecords {d : DeclId} (h : d ∈ j.topRecords) : .record d ∈ j.entities := by
  unfold topRecords at h
  split at h
  · next hv =>
      obtain ⟨d', hd', hd⟩ := List.mem_filterMap.mp (List.mem_eraseDups.mp h)
      split at hd
      · next tag fields definition hk =>
          cases hd
          exact (Starts.record hd' ⟨tag, fields, definition, hk⟩ hv).mem_entities
      · cases hd
  · cases h

theorem records_nodup (j : Job) : j.codeGraph.records.Nodup := by
  have hTop : j.topRecords.Nodup := by
    unfold topRecords
    split
    · exact nodup_eraseDups _
    · exact List.nodup_nil
  refine List.Nodup.map_on ?_ hTop
  intro d hd d' hd' hEq
  have hNode := registry_idOf (record_mem_entities_of_topRecords hd)
  have hNode' := registry_idOf (record_mem_entities_of_topRecords hd')
  have hEq : j.idOf (.record d) = j.idOf (.record d') := hEq
  rw [hEq] at hNode
  cases registry_inj hNode hNode'
  rfl

/-- The nodes that the records of the top level have in the end, as often as they are declared. -/
def recordSites (j : Job) : List (Option NodeId) :=
  if j.options.visitRecords then
    j.unit.topLevel.filterMap fun d =>
      match j.unit.declKind? d with
      | some (.record ..) => some (j.registry.get? (.record (j.unit.recordDefinition d)))
      | _ => none
  else []

theorem records_registered (j : Job) : j.codeGraph.records.map some = j.recordSites.eraseDups := by
  have hInj : ∀ d ∈ j.topRecords, ∀ d' ∈ j.topRecords,
      j.registry.get? (.record d) = j.registry.get? (.record d') → d = d' := by
    intro d hd d' hd' hEq
    have hNode := registry_idOf (record_mem_entities_of_topRecords hd)
    cases registry_inj hNode (hEq ▸ hNode)
    rfl
  have hRecords : j.codeGraph.records.map some =
      j.topRecords.map fun d => j.registry.get? (.record d) := by
    change (j.topRecords.map fun d => j.idOf (.record d)).map some = _
    rw [List.map_map]
    exact List.map_congr_left fun d hd => (registry_idOf (record_mem_entities_of_topRecords hd)).symm
  rw [hRecords]
  unfold topRecords recordSites at *
  split
  · next hv =>
      simp only [hv, if_true, List.mem_eraseDups] at hInj
      rw [← eraseDups_map hInj, List.map_filterMap]
      congr 2
      funext d
      cases j.unit.declKind? d with
      | none => rfl
      | some kind => cases kind <;> rfl
  · rfl

/-- Every record that is met is the definition of some declaration of the unit. -/
theorem exists_definition_of_record (h : j.InRange) {d : DeclId} (hd : .record d ∈ j.entities) :
    ∃ d', d'.index < j.unit.decls.size ∧ d = j.unit.recordDefinition d' := by
  have hReferenced : ∀ {t r}, j.unit.referencedRecord t = some r →
      ∃ d', d'.index < j.unit.decls.size ∧ r = j.unit.recordDefinition d' := by
    intro t r hr
    obtain ⟨d', hd', rfl⟩ := Option.map_eq_some_iff.mp hr
    exact ⟨d', h.unit.recordDecl?_lt hd', rfl⟩
  have hAll : ∀ e ∈ j.entities, ∀ r, e = .record r →
      ∃ d', d'.index < j.unit.decls.size ∧ r = j.unit.recordDefinition d' := by
    refine forall_entities ?_ ?_
    · intro e he r hEq
      cases he with
      | record hd _ _ =>
          cases hEq
          exact ⟨_, h.unit.topLevel _ hd, rfl⟩
      | _ => cases hEq
    · intro e e' _ hAsks r hEq
      cases hAsks with
      | valueRecord hr =>
          cases hEq
          obtain ⟨t, _, hr⟩ := Option.bind_eq_some_iff.mp hr
          exact hReferenced hr
      | fieldRecord _ hr =>
          cases hEq
          exact hReferenced hr
      | fieldSignature _ hr =>
          cases hEq
          obtain ⟨_, hr⟩ := SourceUnit.exists_of_mem_signatureRecords hr
          exact hReferenced hr
      | _ => cases hEq
  exact hAll _ hd d rfl

end Records

theorem nodes_canonical (j : Job) (h : j.InRange) :
    (∀ id n, j.codeGraph.arena.get? id = some n → ∃ e, j.Canonical id e ∧ j.Shows e n) ∧
    (j.codeGraph.functions.map some =
        j.topFunctions.map fun (site, d) => j.registry.get? (.function site d)) ∧
    j.codeGraph.functions.Pairwise (·.index < ·.index) ∧
    (∀ id, id ∈ j.codeGraph.functions ↔ ∃ n, j.codeGraph.arena.get? id = some (.function n)) ∧
    j.codeGraph.records.Nodup ∧
    j.codeGraph.records.map some = j.recordSites.eraseDups ∧
    ((∀ d : DeclId, d.index < j.unit.decls.size →
        j.unit.recordDefinition (j.unit.recordDefinition d) = j.unit.recordDefinition d) →
      ∀ id d, j.Canonical id (.record d) → j.unit.recordDefinition d = d ∧
        ∀ id' d', j.Canonical id' (.record d') →
          j.unit.recordDefinition d' = j.unit.recordDefinition d → id' = id) := by
  refine ⟨?_, j.functions_registered, j.functions_pairwise, fun _ => mem_functions_iff, j.records_nodup,
    j.records_registered, ?_⟩
  · intro id n hn
    obtain ⟨e, he, rfl⟩ := exists_entity hn
    exact ⟨e, canonical_of_registry he, h.shows (mem_entities_of_registry he) _⟩
  · intro hIdem
    have hSelf : ∀ id d, j.Canonical id (.record d) → j.unit.recordDefinition d = d := by
      intro id d hd
      obtain ⟨d', hd', rfl⟩ := exists_definition_of_record h (mem_entities_of_registry hd.registered)
      exact hIdem d' hd'
    intro id d hd
    refine ⟨hSelf id d hd, ?_⟩
    intro id' d' hd' hEq
    rw [hSelf id d hd, hSelf id' d' hd'] at hEq
    subst hEq
    exact Option.some.inj (hd'.registered.symm.trans hd.registered)

theorem nodes_canonical_cell : (cellJob true).InRange ∧
    (∀ id n, (cellJob true).codeGraph.arena.get? id = some n →
      ∃ e, (cellJob true).Canonical id e ∧ (cellJob true).Shows e n) ∧
    ∀ id d, (cellJob true).Canonical id (.record d) → cellUnit.recordDefinition d = d := by
  obtain ⟨hNodes, _, _, _, _, _, hRecords⟩ := nodes_canonical (cellJob true) (cellJob_inRange true)
  refine ⟨cellJob_inRange true, hNodes, ?_⟩
  intro id d hd
  refine (hRecords ?_ id d hd).1
  intro d hd
  match d, hd with
  | ⟨0⟩, _ | ⟨1⟩, _ | ⟨2⟩, _ | ⟨3⟩, _ | ⟨4⟩, _ => rfl

end Job

end UnitGraph
