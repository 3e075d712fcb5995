import UnitGraph.Proofs.Extraction.Links

/-!
# Walks of extracted graphs

Main statement: a walk of an extracted graph presents all its nodes, each once and by the method of its kind,
and the tokens of a node right behind the node, in the order in which the node lists them. Nothing that an
extraction creates is left unlinked: every node can be reached from the functions and the records.
-/
namespace UnitGraph

/-- What a visitor receives: a node, by the method of the node's kind, or a token together with its owner. -/
inductive Visit where
  | node (id : NodeId) (n : Node)
  | token (owner : NodeId) (t : Token)
  deriving DecidableEq, Repr

namespace Arena

/-- What a visitor of the arena receives at an event of a walk. -/
def visit? (a : Arena) : WalkEvent → Option Visit
  | .node x => (a.get? x).map (.node x)
  | .token t => some (.token t.owner t.token)

/-- The nodes with their identities, in order of creation. -/
def entries (a : Arena) : List (NodeId × Node) := a.nodes.toList.mapIdx fun i n => (⟨i⟩, n)

variable {a : Arena}

theorem get?_of_mem_entries {x : NodeId} {n : Node} (h : (x, n) ∈ a.entries) : a.get? x = some n := by
  obtain ⟨i, hi, hEq⟩ := List.mem_mapIdx.mp h
  cases hEq
  simp [get?]

theorem map_fst_entries (a : Arena) : a.entries.map (·.1) = a.ids := by
  refine List.ext_getElem? fun i => ?_
  simp only [entries, ids, size, List.getElem?_map, List.getElem?_mapIdx]
  by_cases hi : i < a.nodes.size
  · rw [List.getElem?_eq_getElem (by simpa using hi), List.getElem?_range hi]
    rfl
  · rw [List.getElem?_eq_none (by simpa using hi), List.getElem?_eq_none (by simpa using hi)]
    rfl

/-- Looking up all identities lists the nodes. -/
theorem filterMap_ids (a : Arena) : (a.ids.filterMap fun x => (a.get? x).map (x, ·)) = a.entries := by
  rw [← map_fst_entries, List.filterMap_map]
  refine (List.filterMap_congr fun e he => ?_).trans (List.filterMap_some ..)
  simp [get?_of_mem_entries he]

/-- What a node and its tokens are to a visitor. -/
theorem map_visit?_node {x : NodeId} {n : Node} (hn : a.get? x = some n) :
    (WalkEvent.node x :: (a.tokensOf x).map fun t => .token ⟨x, t⟩).map a.visit? =
      (Visit.node x n :: n.tokens.map (.token x)).map some := by
  simp [visit?, tokensOf, hn]

end Arena

/-- A walk of a well-formed graph presents its nodes in some order, each with its tokens. -/
theorem CodeGraph.WellFormed.map_visit?_walk {g : CodeGraph} (h : g.WellFormed) :
    ∃ order : List (NodeId × Node), order.Perm g.arena.entries ∧ g.walk.map g.arena.visit? =
      (order.flatMap fun (x, n) => Visit.node x n :: n.tokens.map (.token x)).map some := by
  refine ⟨(g.arena.order g.roots).filterMap fun x => (g.arena.get? x).map (x, ·), ?_, ?_⟩
  · rw [← Arena.filterMap_ids]
    exact h.entered_perm.filterMap _
  · have hWalk : g.walk = _ := g.arena.walk_eq_flatMap h.typed.closed h.roots_mem_ids
    rw [hWalk, List.map_flatMap, List.map_flatMap, List.filterMap_eq_flatMap_toList, List.flatMap_assoc]
    -- whatever is entered is the identity of a node
    refine List.flatMap_congr fun x hx => ?_
    obtain ⟨n, hn⟩ := Arena.mem_ids_iff.mp (h.entered_perm.mem_iff.mp hx)
    rw [Arena.map_visit?_node hn, hn]
    simp

/-- On every unit, for every frontend and all options. -/
theorem Job.walk_presents_nodes (j : Job) :
    (∃ order : List (NodeId × Node), order.Perm j.codeGraph.arena.entries ∧
      j.codeGraph.walk.map j.codeGraph.arena.visit? =
        (order.flatMap fun (x, n) => Visit.node x n :: n.tokens.map (.token x)).map some) ∧
    ∀ x n, j.codeGraph.arena.get? x = some n → ∃ root ∈ j.codeGraph.functions ++ j.codeGraph.records,
      Relation.ReflTransGen j.codeGraph.arena.Links root x := by
  constructor
  · exact j.wellFormed_codeGraph.map_visit?_walk
  · exact j.wellFormed_codeGraph.reached

end UnitGraph
