import UnitGraph.Proofs.Extraction.Nesting
import UnitGraph.Proofs.Graph.Subtree

/-!
# What lies below the node of a statement

Below a statement's node lie the nodes of its children and of the declarations that it makes, and below a declaration
lies nothing. So the nodes of statements that can be reached from one are those of the statements below it.
-/
namespace UnitGraph.Job

variable {j : Job} {s t c : StmtId} {p : DeclId} {stmt : Stmt} {x y : NodeId}

theorem isSome_stmt?_iff : (j.codeGraph.arena.stmt? x).isSome ↔ ∃ s, j.registry.get? (.stmt s) = some x := by
  constructor
  · intro h
    obtain ⟨n, hn⟩ := Option.isSome_iff_exists.mp h
    obtain ⟨m, hm, hEq⟩ := Option.bind_eq_some_iff.mp hn
    obtain ⟨e, he, rfl⟩ := exists_entity hm
    cases e with
    | stmt s => exact ⟨s, he⟩
    | _ => cases hEq
  · intro h
    obtain ⟨s, hs⟩ := h
    rw [Arena.stmt?, arena_get?_of_registry hs]
    rfl

/-- Below a statement's node lie the nodes of its children and of the declarations that it makes. -/
theorem below_idOf (hs : .stmt s ∈ j.entities) (hStmt : j.unit.stmt? s = some stmt) :
    j.codeGraph.arena.below (j.idOf (.stmt s)) =
      stmt.children.map (j.idOf <| .stmt ·) ++ stmt.decls.map (j.idOf <| .decl ·) := by
  simp [Arena.below, Arena.stmt?, arena_get?_idOf hs, nodeOf, Node.asStmt?, hStmt]

theorem mem_below_iff (hs : j.registry.get? (.stmt s) = some x) :
    y ∈ j.codeGraph.arena.below x ↔ ∃ stmt, j.unit.stmt? s = some stmt ∧
      ((∃ c ∈ stmt.children, y = j.idOf (.stmt c)) ∨ ∃ p ∈ stmt.decls, y = j.idOf (.decl p)) := by
  cases hStmt : j.unit.stmt? s with
  | none =>
      have hDefault : (default : Stmt).children = [] ∧ (default : Stmt).decls = [] := ⟨rfl, rfl⟩
      simp [Arena.below, Arena.stmt?, arena_get?_of_registry hs, nodeOf, Node.asStmt?, hStmt, hDefault]
  | some stmt =>
      rw [← idOf_of_registry hs, below_idOf (mem_entities_of_registry hs) hStmt]
      simp [eq_comm]

theorem stmt?_idOf_decl (hp : .decl p ∈ j.entities) : j.codeGraph.arena.stmt? (j.idOf (.decl p)) = none := by
  rw [Arena.stmt?, arena_get?_idOf hp]
  rfl

/-- Below a declaration there is nothing. -/
theorem eq_of_reached_decl (hp : .decl p ∈ j.entities)
    (h : Relation.ReflTransGen j.codeGraph.arena.Below (j.idOf (.decl p)) x) : x = j.idOf (.decl p) := by
  rcases Relation.ReflTransGen.cases_head h with hEq | ⟨y, hy, -⟩
  · exact hEq.symm
  · obtain ⟨n, hNode, -⟩ := Arena.below_iff.mp hy
    cases (stmt?_idOf_decl hp).symm.trans hNode

/-- A node has something below it only if it is that of a statement in the tables. -/
theorem exists_stmt_of_below (h : j.codeGraph.arena.Below x y) :
    ∃ s stmt, .stmt s ∈ j.entities ∧ j.unit.stmt? s = some stmt ∧ x = j.idOf (.stmt s) := by
  obtain ⟨n, hNode, -⟩ := Arena.below_iff.mp h
  obtain ⟨s, hs⟩ := isSome_stmt?_iff.mp (Option.isSome_of_eq_some hNode)
  obtain ⟨stmt, hStmt, -⟩ := (mem_below_iff hs).mp h
  exact ⟨s, stmt, mem_entities_of_registry hs, hStmt, (idOf_of_registry hs).symm⟩

/-- A node belongs to a statement: it is the statement's own or that of a declaration that the statement makes. -/
def Belongs (j : Job) (s : StmtId) (x : NodeId) : Prop :=
  x = j.idOf (.stmt s) ∨ ∃ stmt p, j.unit.stmt? s = some stmt ∧ p ∈ stmt.decls ∧ x = j.idOf (.decl p)

theorem decl_mem_entities (hs : .stmt s ∈ j.entities) (hStmt : j.unit.stmt? s = some stmt) (hp : p ∈ stmt.decls) :
    .decl p ∈ j.entities :=
  (Asks.mention hStmt (List.mem_append_left _ hp)).mem_entities hs

/-- Whatever lies below a statement's node belongs to a statement below it. -/
theorem exists_belongs (hs : .stmt s ∈ j.entities)
    (h : Relation.ReflTransGen j.codeGraph.arena.Below (j.idOf (.stmt s)) x) :
    ∃ t, Relation.ReflTransGen j.unit.Child s t ∧ j.Belongs t x := by
  induction h with
  | refl => exact ⟨s, .refl, Or.inl rfl⟩
  | tail _ hStep ih =>
      obtain ⟨t, hReach, rfl | ⟨stmt, p, hStmt, hp, rfl⟩⟩ := ih
      · have ht := stmt_mem_entities_of_child hs hReach
        obtain ⟨stmt, hStmt, ⟨c, hc, rfl⟩ | ⟨p, hp, rfl⟩⟩ := (mem_below_iff (registry_idOf ht)).mp hStep
        · exact ⟨c, hReach.tail ⟨stmt, hStmt, hc⟩, Or.inl rfl⟩
        · exact ⟨t, hReach, Or.inr ⟨stmt, p, hStmt, hp, rfl⟩⟩
      · have hp := decl_mem_entities (stmt_mem_entities_of_child hs hReach) hStmt hp
        obtain ⟨n, hNode, -⟩ := Arena.below_iff.mp hStep
        cases (stmt?_idOf_decl hp).symm.trans hNode

/-- A statement's node that belongs to a statement is that statement's own. -/
theorem Belongs.eq_of_isSome (hs : .stmt s ∈ j.entities) (h : j.Belongs s x)
    (hNode : (j.codeGraph.arena.stmt? x).isSome) : x = j.idOf (.stmt s) := by
  rcases h with rfl | ⟨stmt, p, hStmt, hp, rfl⟩
  · rfl
  · rw [stmt?_idOf_decl (decl_mem_entities hs hStmt hp)] at hNode
    cases hNode

theorem Belongs.not_isDefinition (hs : .stmt s ∈ j.entities) (h : j.Belongs s x) :
    ∃ m, j.codeGraph.arena.get? x = some m ∧ m.isDefinition = false := by
  rcases h with rfl | ⟨stmt, p, hStmt, hp, rfl⟩
  · exact ⟨_, arena_get?_idOf hs, rfl⟩
  · exact ⟨_, arena_get?_idOf (decl_mem_entities hs hStmt hp), rfl⟩

/-- The statements' nodes that are reached from a statement's node are those of the statements below it. -/
theorem reached_stmt_iff (hs : .stmt s ∈ j.entities) :
    Relation.ReflTransGen j.codeGraph.arena.Below (j.idOf (.stmt s)) x ∧ (j.codeGraph.arena.stmt? x).isSome ↔
      ∃ t, Relation.ReflTransGen j.unit.Child s t ∧ j.registry.get? (.stmt t) = some x := by
  constructor
  · intro h
    obtain ⟨t, ht, hBelongs⟩ := exists_belongs hs h.1
    have hMem := stmt_mem_entities_of_child hs ht
    exact ⟨t, ht, hBelongs.eq_of_isSome hMem h.2 ▸ registry_idOf hMem⟩
  · intro h
    obtain ⟨t, ht, hx⟩ := h
    refine ⟨?_, isSome_stmt?_iff.mpr ⟨t, hx⟩⟩
    rw [← idOf_of_registry hx]
    clear hx
    induction ht with
    | refl => exact .refl
    | tail hReach hChild ih =>
        obtain ⟨stmt, hStmt, hc⟩ := hChild
        have hNode := registry_idOf (stmt_mem_entities_of_child hs hReach)
        exact ih.tail ((mem_below_iff hNode).mpr ⟨stmt, hStmt, Or.inl ⟨_, hc, rfl⟩⟩)

end UnitGraph.Job
