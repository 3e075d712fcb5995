import UnitGraph.Proofs.Extraction.Blocks
import UnitGraph.Proofs.Graph.Walk

/-!
# Extracted graphs are well-formed

A node links to the nodes of whatever its entity asks for, a function to those of its parameters, its body
and its blocks. So links are typed, and whatever an extraction meets can be reached from the functions and
records of the top level, on every unit.
-/
namespace UnitGraph.Job

variable {j : Job} {e e' : Entity} {x : NodeId}

/-- A function node stands for a function that is visited, with its parameters, its body and its blocks. -/
theorem visits_of_function_node {n : FunctionNode} (hn : j.codeGraph.arena.get? x = some (.function n)) :
    ∃ site d params body, j.registry.get? (.function site d) = some x ∧ j.Visits site d params body ∧
      n.args = params.map (j.idOf <| .decl ·) ∧ n.entry = j.idOf (.stmt body) ∧
      n.blocks = (List.range (j.blocks d).length).map (j.idOf <| .block d ·) := by
  obtain ⟨e, he, hEq⟩ := exists_entity hn
  cases e with
  | function site d =>
      obtain ⟨params, body, hVisits⟩ := visits_of_mem_entities (mem_entities_of_registry he)
      obtain ⟨n', hn', hLinks⟩ := function_node hVisits
      rw [idOf_of_registry he] at hn'
      cases hn.symm.trans hn'
      exact ⟨site, d, params, body, he, hVisits, hLinks⟩
  | _ => cases hEq

/-- A statement node stands for a statement that is met, with its children, declarations and readings. -/
theorem stmt_of_stmt_node {n : StmtNode} (hn : j.codeGraph.arena.get? x = some (.stmt n)) :
    ∃ s, .stmt s ∈ j.entities ∧ ∀ y, (y ∈ n.children → ∃ e, j.Asks (.stmt s) e ∧ y = j.idOf e) ∧
      (y ∈ n.references → ∃ d, j.Asks (.stmt s) (.decl d) ∧ y = j.idOf (.decl d)) := by
  obtain ⟨e, he, hEq⟩ := exists_entity hn
  cases e with
  | stmt s =>
      cases hEq
      refine ⟨s, mem_entities_of_registry he, ?_⟩
      cases hs : j.unit.stmt? s with
      | none => exact fun y => ⟨nofun, nofun⟩
      | some stmt =>
          intro y
          constructor
          · intro hy
            rcases List.mem_append.mp hy with hy | hy
            · obtain ⟨c, hc, rfl⟩ := List.mem_map.mp hy
              exact ⟨_, .child hs hc, rfl⟩
            · obtain ⟨d, hd, rfl⟩ := List.mem_map.mp hy
              exact ⟨_, .mention hs (List.mem_append_left _ hd), rfl⟩
          · intro hy
            obtain ⟨d, hd, rfl⟩ := List.mem_map.mp hy
            exact ⟨_, .mention hs (List.mem_append_right _ hd), rfl⟩
  | _ => cases hEq

/-- A block node stands for a block that is met, with its statements and its targets. -/
theorem block_of_block_node {n : BlockNode} (hn : j.codeGraph.arena.get? x = some (.block n)) :
    ∃ f i, .block f i ∈ j.entities ∧ ∀ y,
      (y ∈ n.statements → ∃ s, j.Asks (.block f i) (.stmt s) ∧ y = j.idOf (.stmt s)) ∧
      (y ∈ n.successors → ∃ t, j.Asks (.block f i) (.block f t) ∧ y = j.idOf (.block f t)) := by
  obtain ⟨e, he, hEq⟩ := exists_entity hn
  cases e with
  | block f i =>
      cases hEq
      refine ⟨f, i, mem_entities_of_registry he, ?_⟩
      cases hb : j.block? f i with
      | none => exact fun y => ⟨nofun, nofun⟩
      | some b =>
          intro y
          constructor
          · intro hy
            obtain ⟨s, hs, rfl⟩ := List.mem_map.mp hy
            exact ⟨s, .blockStmt hb hs, rfl⟩
          · intro hy
            obtain ⟨t, ht, rfl⟩ := List.mem_map.mp hy
            exact ⟨t, .blockTarget hb ht, rfl⟩
  | _ => cases hEq

theorem mem_links_record {tokens : List Token} {d : DeclId} :
    x ∈ (j.nodeOf j.idOf tokens (.record d)).links ↔ ∃ e', j.Asks (.record d) e' ∧ j.idOf e' = x := by
  simp only [nodeOf, Node.links, List.mem_append, List.mem_flatMap, List.mem_map, List.mem_filterMap,
    Option.mem_toList]
  constructor
  · rintro ((⟨t, ht, r, hr | hr, hx⟩ | ⟨c, ⟨t, ht, hc⟩, hx⟩) | ⟨a, ⟨t, ht, ha⟩, hx⟩)
    · exact ⟨_, .fieldRecord ht hr, hx⟩
    · exact ⟨_, .fieldSignature ht hr, hx⟩
    · exact ⟨_, .fieldEnum ht hc, hx⟩
    · exact ⟨_, .fieldAlias ht ha, hx⟩
  · intro h
    obtain ⟨e', hAsks, hx⟩ := h
    cases hAsks with
    | fieldRecord ht hr => exact Or.inl (Or.inl ⟨_, ht, _, Or.inl hr, hx⟩)
    | fieldSignature ht hr => exact Or.inl (Or.inl ⟨_, ht, _, Or.inr hr, hx⟩)
    | fieldEnum ht hc => exact Or.inl (Or.inr ⟨_, ⟨_, ht, hc⟩, hx⟩)
    | fieldAlias ht ha => exact Or.inr ⟨_, ⟨_, ht, ha⟩, hx⟩

/-- A node links to the nodes of what its entity asks for; a function leaves that to the top level. -/
theorem mem_links_nodeOf {tokens : List Token} (he : isFunction e = false) :
    x ∈ (j.nodeOf j.idOf tokens e).links ↔ ∃ e', j.Asks e e' ∧ j.idOf e' = x := by
  have hAsked : (∃ e', j.Asks e e' ∧ j.idOf e' = x) ↔ x ∈ (Traversal.requested (j.agenda e)).map j.idOf := by
    simp only [List.mem_map, mem_requested_agenda]
  rw [hAsked]
  cases e with
  | stmt s =>
      cases hs : j.unit.stmt? s with
      | none =>
          have hDefault : (default : Stmt).children = [] ∧ (default : Stmt).decls = [] ∧
              (default : Stmt).referenced = none := ⟨rfl, rfl, rfl⟩
          simp [nodeOf, Node.links, agenda, hs, hDefault]
      | some stmt => simp [nodeOf, Node.links, agenda, hs, Function.comp_def]
  | decl d => simp [nodeOf, Node.links, agenda]
  | record d => rw [mem_links_record, hAsked]
  | enum d => rfl
  | typedef d => rfl
  | block f i =>
      cases hb : j.block? f i with
      | none =>
          have hDefault : (default : FlowBlock).statements = [] ∧ (default : FlowBlock).targets = [] :=
            ⟨rfl, rfl⟩
          simp [nodeOf, Node.links, agenda, hb, hDefault]
      | some b => simp [nodeOf, Node.links, agenda, hb]
  | function site d => cases he

theorem typed_codeGraph (j : Job) : j.codeGraph.arena.Typed where
  args := by
    intro x n hn y hy
    obtain ⟨site, d, params, body, -, hVisits, hArgs, -, -⟩ := visits_of_function_node hn
    rw [hArgs] at hy
    obtain ⟨p, hp, rfl⟩ := List.mem_map.mp hy
    exact ⟨_, arena_get?_idOf (Starts.param hVisits hp).mem_entities⟩
  entry := by
    intro x n hn
    obtain ⟨site, d, params, body, -, hVisits, -, hEntry, -⟩ := visits_of_function_node hn
    rw [hEntry]
    exact ⟨_, arena_get?_idOf (Starts.body hVisits).mem_entities⟩
  blocks := by
    intro x n hn y hy
    obtain ⟨site, d, params, body, -, hVisits, -, -, hBlocks⟩ := visits_of_function_node hn
    rw [hBlocks] at hy
    obtain ⟨i, hi, rfl⟩ := List.mem_map.mp hy
    exact ⟨_, arena_get?_idOf (Starts.block hVisits (List.mem_range.mp hi)).mem_entities⟩
  children := by
    intro x n hn y hy
    obtain ⟨s, hs, hLinks⟩ := stmt_of_stmt_node hn
    obtain ⟨e, hAsks, rfl⟩ := (hLinks y).1 hy
    have hNode := arena_get?_idOf (hAsks.mem_entities hs)
    cases hAsks with
    | child => exact Or.inl ⟨_, hNode⟩
    | mention => exact Or.inr ⟨_, hNode⟩
  references := by
    intro x n hn y hy
    obtain ⟨s, hs, hLinks⟩ := stmt_of_stmt_node hn
    obtain ⟨d, hAsks, rfl⟩ := (hLinks y).2 hy
    exact ⟨_, arena_get?_idOf (hAsks.mem_entities hs)⟩
  statements := by
    intro x n hn y hy
    obtain ⟨f, i, hBlock, hLinks⟩ := block_of_block_node hn
    obtain ⟨s, hAsks, rfl⟩ := (hLinks y).1 hy
    exact ⟨_, arena_get?_idOf (hAsks.mem_entities hBlock)⟩
  successors := by
    intro x n hn y hy
    obtain ⟨f, i, hBlock, hLinks⟩ := block_of_block_node hn
    obtain ⟨t, hAsks, rfl⟩ := (hLinks y).2 hy
    exact ⟨_, arena_get?_idOf (hAsks.mem_entities hBlock)⟩
  types := by
    intro x n hn y hy
    obtain ⟨e, he, hEq⟩ := exists_entity hn
    cases e with
    | decl d =>
        rw [hEq] at hy
        obtain ⟨e', hAsks, rfl⟩ := (mem_links_nodeOf rfl).mp hy
        refine ⟨_, arena_get?_idOf (hAsks.mem_entities (mem_entities_of_registry he)), ?_⟩
        cases hAsks <;> rfl
    | _ => cases hEq
  fields := by
    intro x n hn y hy
    obtain ⟨e, he, hEq⟩ := exists_entity hn
    cases e with
    | record d =>
        rw [hEq] at hy
        obtain ⟨e', hAsks, rfl⟩ := (mem_links_nodeOf rfl).mp hy
        refine ⟨_, arena_get?_idOf (hAsks.mem_entities (mem_entities_of_registry he)), ?_⟩
        cases hAsks <;> rfl
    | _ => cases hEq

/-- Whatever an entity asks for, its node links to. -/
theorem links_of_asks (he : e ∈ j.entities) (h : j.Asks e e') :
    j.codeGraph.arena.Links (j.idOf e) (j.idOf e') := by
  refine ⟨_, arena_get?_idOf he, (mem_links_nodeOf ?_).mpr ⟨e', h, rfl⟩⟩
  cases h <;> rfl

theorem mem_topRecords {d : DeclId} (hd : d ∈ j.unit.topLevel) (hRecord : j.unit.IsRecord d)
    (hWanted : j.options.visitRecords = true) : j.unit.recordDefinition d ∈ j.topRecords := by
  obtain ⟨tag, fields, definition, hk⟩ := hRecord
  rw [topRecords, if_pos hWanted, List.mem_eraseDups, List.mem_filterMap]
  exact ⟨d, hd, by rw [hk]⟩

/-- What the top level asks for starts a walk or is linked by a function that does. -/
theorem Starts.reached (h : j.Starts e) :
    ∃ root ∈ j.codeGraph.roots, Relation.ReflTransGen j.codeGraph.arena.Links root (j.idOf e) := by
  have hFunction : ∀ {site d params body}, j.Visits site d params body →
      ∀ y, y ∈ params.map (j.idOf <| .decl ·) ++ [j.idOf (.stmt body)] ++
        (List.range (j.blocks d).length).map (j.idOf <| .block d ·) →
      ∃ root ∈ j.codeGraph.roots, Relation.ReflTransGen j.codeGraph.arena.Links root y := by
    intro site d params body hVisits y hy
    obtain ⟨n, hn, hArgs, hEntry, hBlocks⟩ := function_node hVisits
    refine ⟨_, List.mem_append_left _ (mem_functions_iff.mpr ⟨n, hn⟩), .single ⟨_, hn, ?_⟩⟩
    rwa [Node.links, hArgs, hEntry, hBlocks]
  cases h with
  | param hVisits hp =>
      have hArg := List.mem_map_of_mem (f := (j.idOf <| .decl ·)) hp
      exact hFunction hVisits _ (List.mem_append_left _ (List.mem_append_left _ hArg))
  | body hVisits =>
      exact hFunction hVisits _ (List.mem_append_left _ (List.mem_append_right _ List.mem_cons_self))
  | @block site i d params body hVisits hi =>
      have hBlock := List.mem_map_of_mem (f := (j.idOf <| .block d ·)) (List.mem_range.mpr hi)
      exact hFunction hVisits _ (List.mem_append_right _ hBlock)
  | function hVisits =>
      obtain ⟨n, hn, -⟩ := function_node hVisits
      exact ⟨_, List.mem_append_left _ (mem_functions_iff.mpr ⟨n, hn⟩), .refl⟩
  | record hd hRecord hWanted =>
      have hTop := List.mem_map_of_mem (f := (j.idOf <| .record ·)) (mem_topRecords hd hRecord hWanted)
      exact ⟨_, List.mem_append_right _ hTop, .refl⟩

theorem reached_of_mem_entities (he : e ∈ j.entities) :
    ∃ root ∈ j.codeGraph.roots, Relation.ReflTransGen j.codeGraph.arena.Links root (j.idOf e) := by
  have hAll : ∀ e ∈ j.entities, e ∈ j.entities ∧ ∃ root ∈ j.codeGraph.roots,
      Relation.ReflTransGen j.codeGraph.arena.Links root (j.idOf e) := by
    refine forall_entities (fun e hStarts => ⟨hStarts.mem_entities, hStarts.reached⟩) ?_
    intro e e' ih hAsks
    obtain ⟨he, root, hRoot, hReach⟩ := ih
    exact ⟨hAsks.mem_entities he, root, hRoot, hReach.tail (links_of_asks he hAsks)⟩
  exact (hAll e he).2

theorem wellFormed_codeGraph (j : Job) : j.codeGraph.WellFormed where
  typed := j.typed_codeGraph
  functions _ hx := mem_functions_iff.mp hx
  records := by
    intro x hx
    obtain ⟨d, hd, rfl⟩ := List.mem_map.mp hx
    exact ⟨_, arena_get?_idOf (record_mem_entities_of_topRecords hd)⟩
  reached := by
    intro x n hn
    obtain ⟨e, he, -⟩ := exists_entity hn
    rw [← idOf_of_registry he]
    exact reached_of_mem_entities (mem_entities_of_registry he)
  owned := by
    intro x b hb
    obtain ⟨e, he, hEq⟩ := exists_entity hb
    cases e with
    | block f i =>
        obtain ⟨⟨site, params, body, hVisits⟩, hi⟩ := visits_of_block (mem_entities_of_registry he)
        obtain ⟨id, n, hNode, hn⟩ := exists_function hVisits
        exact ⟨id, n, hn, (mem_blocks_iff hNode hn).mpr ⟨i, hi, he⟩⟩
    | _ => cases hEq

end UnitGraph.Job
