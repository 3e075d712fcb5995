import UnitGraph.Proofs.Extraction.Canonical

/-!
# The blocks of functions

Main statement: with flow blocks wanted, a function whose flow graph is closed has one block node for each
block of the graph, in order, each an image of its block. Blocks belong to functions, those of different
functions are apart, and no edge leaves the blocks of a function.
-/
namespace UnitGraph.Job

/-- What a block node shows: the label of its block, the nodes of the statements and of the terminator, and
for every edge that was not pruned the block at that position among those given. -/
structure BlockImage (j : Job) (blocks : List NodeId) (b : FlowBlock) (n : BlockNode) : Prop where
  name : n.name = s!"cfg_{b.label}"
  statements : n.statements.map some =
    (b.elements ++ b.terminator.toList).map fun s => j.registry.get? (.stmt s)
  successors : n.successors.map some = (b.successors.filterMap id).map fun t => blocks[t]?

variable {j : Job} {site : Nat} {d f : DeclId} {i : Nat} {id : NodeId} {n : FunctionNode}

/-- A block that is entered is one of a visited function. -/
theorem visits_of_block (he : .block f i ∈ j.entities) :
    (∃ site params body, j.Visits site f params body) ∧ i < (j.blocks f).length := by
  have hAll : ∀ e ∈ j.entities, ∀ f i, e = .block f i →
      (∃ site params body, j.Visits site f params body) ∧ i < (j.blocks f).length := by
    refine forall_entities ?_ ?_
    · intro e he f i hEq
      cases he with
      | block hVisits hi =>
          cases hEq
          exact ⟨⟨_, _, _, hVisits⟩, hi⟩
      | _ => cases hEq
    · intro e e' ih hAsks f i hEq
      cases hAsks with
      | blockTarget hb ht =>
          cases hEq
          exact ⟨(ih _ _ rfl).1, target_lt_blocks (List.mem_of_getElem? hb) ht⟩
      | _ => cases hEq
  exact hAll _ he f i rfl

theorem exists_function {params : List DeclId} {body : StmtId} (hVisits : j.Visits site d params body) :
    ∃ id n, j.registry.get? (.function site d) = some id ∧ j.codeGraph.arena.get? id = some (.function n) := by
  obtain ⟨n, hn, -⟩ := function_node hVisits
  exact ⟨_, n, registry_idOf (Starts.function hVisits).mem_entities, hn⟩

/-- The blocks of a function's node are the nodes of its blocks, in order. -/
theorem blocks_of_function (hNode : j.registry.get? (.function site d) = some id)
    (hn : j.codeGraph.arena.get? id = some (.function n)) :
    n.blocks = (List.range (j.blocks d).length).map (j.idOf <| .block d ·) := by
  cases hn.symm.trans (arena_get?_of_registry hNode)
  rfl

theorem block_mem_entities (hNode : j.registry.get? (.function site d) = some id)
    (hi : i < (j.blocks d).length) : .block d i ∈ j.entities := by
  obtain ⟨params, body, hVisits⟩ := visits_of_mem_entities (mem_entities_of_registry hNode)
  exact (Starts.block hVisits hi).mem_entities

theorem mem_blocks_iff (hNode : j.registry.get? (.function site d) = some id)
    (hn : j.codeGraph.arena.get? id = some (.function n)) {b : NodeId} :
    b ∈ n.blocks ↔ ∃ i, i < (j.blocks d).length ∧ j.registry.get? (.block d i) = some b := by
  rw [blocks_of_function hNode hn, List.mem_map]
  constructor
  · intro h
    obtain ⟨i, hi, rfl⟩ := h
    have hi := List.mem_range.mp hi
    exact ⟨i, hi, registry_idOf (block_mem_entities hNode hi)⟩
  · intro h
    obtain ⟨i, hi, hb⟩ := h
    exact ⟨i, List.mem_range.mpr hi, idOf_of_registry hb⟩

theorem blocks_nodup (hNode : j.registry.get? (.function site d) = some id)
    (hn : j.codeGraph.arena.get? id = some (.function n)) : n.blocks.Nodup := by
  rw [blocks_of_function hNode hn]
  refine List.Nodup.map_on ?_ List.nodup_range
  intro i hi i' hi' hEq
  have hNode₁ := registry_idOf (block_mem_entities hNode (List.mem_range.mp hi))
  have hNode₂ := registry_idOf (block_mem_entities hNode (List.mem_range.mp hi'))
  rw [hEq] at hNode₁
  exact (Entity.block.inj (registry_inj hNode₁ hNode₂)).2

/-- A block node is the image of its block. -/
theorem block_image (hNode : j.registry.get? (.function site d) = some id)
    (hn : j.codeGraph.arena.get? id = some (.function n)) {b : FlowBlock} (hb : j.block? d i = some b) :
    ∃ id' n', n.blocks[i]? = some id' ∧ j.codeGraph.arena.get? id' = some (.block n') ∧
      j.BlockImage n.blocks b n' := by
  have hi : i < (j.blocks d).length := (List.getElem?_eq_some_iff.mp hb).1
  have he := block_mem_entities hNode hi
  have hAt : ∀ t, t < (j.blocks d).length → n.blocks[t]? = some (j.idOf (.block d t)) := by
    intro t ht
    rw [blocks_of_function hNode hn, List.getElem?_map, List.getElem?_range ht]
    rfl
  refine ⟨_, _, hAt i hi, arena_get?_of_registry (registry_idOf he), ?_, ?_, ?_⟩
  · rw [hb]
    rfl
  · rw [hb, List.map_map]
    exact List.map_congr_left fun s hs => (registry_idOf ((Asks.blockStmt hb hs).mem_entities he)).symm
  · rw [hb, List.map_map]
    exact List.map_congr_left fun t ht => (hAt t (target_lt_blocks (List.mem_of_getElem? hb) ht)).symm

theorem blocks_of_flow {g : FlowGraph} (hWanted : j.options.flowBlocks = true)
    (hFlow : j.frontend.flowGraph j.unit d = .ok g) (hClosed : g.Closed) : j.blocks d = g.blocks := by
  have hNone := FlowGraph.firstDangling?_eq_none_iff.mpr hClosed
  simp [blocks, flow, hWanted, hFlow, Except.bind, FlowGraph.checked, hNone]

/-- The successors of a function's block are blocks of that function. -/
theorem successors_subset (hNode : j.registry.get? (.function site d) = some id)
    (hn : j.codeGraph.arena.get? id = some (.function n)) {b : NodeId} (hb : b ∈ n.blocks) {nb : BlockNode}
    (hBlock : j.codeGraph.arena.get? b = some (.block nb)) : ∀ s ∈ nb.successors, s ∈ n.blocks := by
  obtain ⟨i, hi, hRegistered⟩ := (mem_blocks_iff hNode hn).mp hb
  obtain ⟨id', n', hAt, hGet, hImage⟩ := block_image hNode hn (List.getElem?_eq_getElem hi)
  rw [blocks_of_function hNode hn, List.getElem?_map, List.getElem?_range hi, Option.map_some,
    idOf_of_registry hRegistered] at hAt
  cases hAt
  cases hGet.symm.trans hBlock
  intro s hs
  have hSome : some s ∈ nb.successors.map some := List.mem_map_of_mem hs
  rw [hImage.successors, List.mem_map] at hSome
  obtain ⟨t, _, ht⟩ := hSome
  exact List.mem_of_getElem? ht

/-- On every unit, for every frontend. -/
theorem blocks_faithful (j : Job) (hWanted : j.options.flowBlocks = true) :
    (∀ site d params body (g : FlowGraph), j.Visits site d params body →
      j.frontend.flowGraph j.unit d = .ok g → g.Closed →
      ∃ id n, j.registry.get? (.function site d) = some id ∧
        j.codeGraph.arena.get? id = some (.function n) ∧ n.blocks.length = g.blocks.length ∧
        n.blocks.Nodup ∧ ∀ (i : Nat) b, g.blocks[i]? = some b → ∃ id' n', n.blocks[i]? = some id' ∧
          j.codeGraph.arena.get? id' = some (.block n') ∧ j.BlockImage n.blocks b n') ∧
    (∀ site site' d d' id id' n n', j.registry.get? (.function site d) = some id →
      j.registry.get? (.function site' d') = some id' → j.codeGraph.arena.get? id = some (.function n) →
      j.codeGraph.arena.get? id' = some (.function n') → d ≠ d' → ∀ b ∈ n.blocks, b ∉ n'.blocks) ∧
    (∀ b nb, j.codeGraph.arena.get? b = some (.block nb) → ∃ site d params body id n,
      j.Visits site d params body ∧ j.registry.get? (.function site d) = some id ∧
        j.codeGraph.arena.get? id = some (.function n) ∧ b ∈ n.blocks) ∧
    ∀ id n b nb, j.codeGraph.arena.get? id = some (.function n) → b ∈ n.blocks →
      j.codeGraph.arena.get? b = some (.block nb) → ∀ s ∈ nb.successors, s ∈ n.blocks := by
  refine ⟨?_, ?_, ?_, ?_⟩
  · intro site d params body g hVisits hFlow hClosed
    obtain ⟨id, n, hNode, hn⟩ := exists_function hVisits
    have hBlocks := blocks_of_flow hWanted hFlow hClosed
    refine ⟨id, n, hNode, hn, ?_, blocks_nodup hNode hn, ?_⟩
    · rw [blocks_of_function hNode hn, List.length_map, List.length_range, hBlocks]
    · intro i b hb
      rw [← hBlocks] at hb
      exact block_image hNode hn hb
  · intro site site' d d' id id' n n' hNode hNode' hn hn' hNe b hb hb'
    obtain ⟨i, _, hRegistered⟩ := (mem_blocks_iff hNode hn).mp hb
    obtain ⟨i', _, hRegistered'⟩ := (mem_blocks_iff hNode' hn').mp hb'
    cases registry_inj hRegistered hRegistered'
    exact hNe rfl
  · intro b nb hBlock
    obtain ⟨e, he, hShown⟩ := exists_entity hBlock
    cases e with
    | block f i =>
        obtain ⟨⟨site, params, body, hVisits⟩, hi⟩ := visits_of_block (mem_entities_of_registry he)
        obtain ⟨id, n, hNode, hn⟩ := exists_function hVisits
        exact ⟨site, f, params, body, id, n, hVisits, hNode, hn, (mem_blocks_iff hNode hn).mpr ⟨i, hi, he⟩⟩
    | _ => cases hShown
  · intro id n b nb hn hb hBlock
    obtain ⟨e, he, hShown⟩ := exists_entity hn
    cases e with
    | function site d => exact successors_subset he hn hb hBlock
    | _ => cases hShown

/-- Two blocks of one label, with a loop and with edges that are repeated or pruned. -/
def forkFlow : FlowGraph :=
  ⟨[⟨4, [⟨2⟩], some ⟨1⟩, [some 1, none, some 0]⟩, ⟨4, [⟨1⟩], none, [some 0, some 0]⟩]⟩

def forkJob : Job where
  unit := cellUnit
  frontend := { parse := fun _ => .ok cellUnit, flowGraph := fun _ _ => .ok forkFlow }
  options := { flowBlocks := true }

theorem blocks_faithful_fork : forkJob.options.flowBlocks = true ∧
    ∃ n, forkJob.codeGraph.arena.get? ⟨7⟩ = some (.function n) ∧ n.blocks.length = 2 ∧ n.blocks.Nodup ∧
      ∃ id b, n.blocks[1]? = some id ∧ forkJob.codeGraph.arena.get? id = some (.block b) ∧
        b.successors.map some = [n.blocks[0]?, n.blocks[0]?] := by
  obtain ⟨hFunctions, -⟩ := blocks_faithful forkJob rfl
  obtain ⟨id, n, hNode, hn, hLength, hNodup, hImage⟩ :=
    hFunctions 1 ⟨2⟩ [⟨3⟩] ⟨0⟩ forkFlow ⟨rfl, rfl⟩ rfl (by decide)
  have hSeven : forkJob.registry.get? (.function 1 ⟨2⟩) = some ⟨7⟩ := by decide
  cases hSeven.symm.trans hNode
  obtain ⟨id, b, hAt, hb, hBlock⟩ := hImage 1 _ rfl
  exact ⟨rfl, n, hn, hLength, hNodup, id, b, hAt, hb, hBlock.successors⟩

end UnitGraph.Job
