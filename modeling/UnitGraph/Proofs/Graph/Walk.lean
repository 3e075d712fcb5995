import Mathlib.Data.List.Perm.Basic
import UnitGraph.Graph.Walk
import UnitGraph.Proofs.Extraction.Exclusivity
import UnitGraph.Proofs.Traversal.Marks
import UnitGraph.Proofs.Traversal.Order
import UnitGraph.Proofs.Traversal.Reach

/-!
# Walks of well-formed graphs

In a well-formed graph every link leads to a node of the kind that its place asks for, and every node can be
reached from the functions and records of the top level. A walk then presents each node once, with its own
tokens, and presents a node only after one that links to it, unless it starts there.
-/
namespace UnitGraph

open Traversal

namespace Arena

/-- One node links to another. -/
def Links (a : Arena) (x y : NodeId) : Prop := ∃ n, a.get? x = some n ∧ y ∈ n.links

/-- Every link leads to a node of the kind that its place asks for. -/
structure Typed (a : Arena) : Prop where
  args {x : NodeId} {n : FunctionNode} : a.get? x = some (.function n) →
    ∀ y ∈ n.args, ∃ d, a.get? y = some (.decl d)
  entry {x : NodeId} {n : FunctionNode} : a.get? x = some (.function n) →
    ∃ s, a.get? n.entry = some (.stmt s)
  blocks {x : NodeId} {n : FunctionNode} : a.get? x = some (.function n) →
    ∀ y ∈ n.blocks, ∃ b, a.get? y = some (.block b)
  children {x : NodeId} {n : StmtNode} : a.get? x = some (.stmt n) →
    ∀ y ∈ n.children, (∃ s, a.get? y = some (.stmt s)) ∨ ∃ d, a.get? y = some (.decl d)
  references {x : NodeId} {n : StmtNode} : a.get? x = some (.stmt n) →
    ∀ y ∈ n.references, ∃ d, a.get? y = some (.decl d)
  statements {x : NodeId} {n : BlockNode} : a.get? x = some (.block n) →
    ∀ y ∈ n.statements, ∃ s, a.get? y = some (.stmt s)
  successors {x : NodeId} {n : BlockNode} : a.get? x = some (.block n) →
    ∀ y ∈ n.successors, ∃ b, a.get? y = some (.block b)
  types {x : NodeId} {n : DeclNode} : a.get? x = some (.decl n) →
    ∀ y ∈ (Node.decl n).links, ∃ m, a.get? y = some m ∧ m.isDefinition = true
  fields {x : NodeId} {n : RecordNode} : a.get? x = some (.record n) →
    ∀ y ∈ (Node.record n).links, ∃ m, a.get? y = some m ∧ m.isDefinition = true

/-- A function mentions its arguments, a statement the declarations below it and those that it reads. -/
inductive Mentions (a : Arena) : NodeId → NodeId → Prop
  | arg {x y : NodeId} {n : FunctionNode} : a.get? x = some (.function n) → y ∈ n.args → Mentions a x y
  | child {x y : NodeId} {n : StmtNode} : a.get? x = some (.stmt n) → y ∈ n.children → Mentions a x y
  | reference {x y : NodeId} {n : StmtNode} : a.get? x = some (.stmt n) → y ∈ n.references → Mentions a x y

variable {a : Arena} {x y : NodeId}

theorem mem_ids_iff : x ∈ a.ids ↔ ∃ n, a.get? x = some n := by
  obtain ⟨i⟩ := x
  simp [ids, size, get?, Array.getElem?_eq_some_iff]

theorem mem_tokensOf_iff {t : Token} : t ∈ a.tokensOf x ↔ ∃ n, a.get? x = some n ∧ t ∈ n.tokens := by
  unfold tokensOf
  cases a.get? x <;> simp

theorem ids_nodup (a : Arena) : a.ids.Nodup :=
  List.Nodup.map (fun _ _ => NodeId.mk.inj) List.nodup_range

theorem requested_walkAgenda : y ∈ requested (a.walkAgenda x) ↔ a.Links x y := by
  unfold walkAgenda Links
  cases a.get? x with
  | none => simp
  | some n => simp

theorem itemMarks_walkAgenda (a : Arena) (x : NodeId) :
    itemMarks (a.walkAgenda x) = (a.tokensOf x).map (⟨x, ·⟩) := by
  unfold walkAgenda tokensOf
  cases a.get? x with
  | none => rfl
  | some n => simp [itemMarks, List.filterMap_map]

theorem marksFirst_walkAgenda (a : Arena) (x : NodeId) : MarksFirst (a.walkAgenda x) := by
  unfold MarksFirst walkAgenda
  cases a.get? x with
  | none => rfl
  | some n => simp [itemMarks, requested, List.filterMap_map, Function.comp_def]

/-- The nodes that a walk presents, in order. -/
def order (a : Arena) (roots : List NodeId) : List NodeId :=
  entered (Traversal.traverse a.walkAgenda a.ids (roots.map .visit))

/-- A walk presents what can be reached from its roots. -/
theorem mem_order_iff (hc : Closed a.walkAgenda a.ids) {roots : List NodeId} (hr : ∀ x ∈ roots, x ∈ a.ids) :
    x ∈ a.order roots ↔ ∃ root ∈ roots, Relation.ReflTransGen a.Links root x := by
  rw [order, Traversal.traverse, mem_entered_iff_reaches hc (by simpa using hr), requested_visits]
  simp [ReachesOutside, requested_walkAgenda]

/-- A walk presents one node after another, each with its own tokens right behind it. -/
theorem walk_eq_flatMap (hc : Closed a.walkAgenda a.ids) {roots : List NodeId} (hr : ∀ x ∈ roots, x ∈ a.ids) :
    a.walk roots = (a.order roots).flatMap fun x =>
      .node x :: (a.tokensOf x).map fun t => .token ⟨x, t⟩ := by
  have hRun : Traversal.traverse a.walkAgenda a.ids (roots.map .visit) = _ :=
    run_eq_flatMap_entered hc a.marksFirst_walkAgenda (marksFirst_visits roots) (by simpa using hr)
  rw [itemMarks_visits, List.map_nil, List.nil_append] at hRun
  rw [walk, hRun, List.map_flatMap, order, Traversal.traverse]
  refine List.flatMap_congr fun x _ => ?_
  rw [itemMarks_walkAgenda, List.map_cons, List.map_map, List.map_map]
  rfl

/-- Links lead to nodes, to declarations only where these are mentioned, and to functions nowhere. -/
theorem Typed.target (h : a.Typed) (hLink : a.Links x y) :
    ∃ m, a.get? y = some m ∧ (∀ d, m = .decl d → a.Mentions x y) ∧ ∀ f, m ≠ .function f := by
  obtain ⟨n, hn, hy⟩ := hLink
  cases n with
  | decl n =>
      obtain ⟨m, hm, hDefinition⟩ := h.types hn y hy
      exact ⟨m, hm, fun d hd => by simp [hd, Node.isDefinition] at hDefinition,
        fun f hf => by simp [hf, Node.isDefinition] at hDefinition⟩
  | record n =>
      obtain ⟨m, hm, hDefinition⟩ := h.fields hn y hy
      exact ⟨m, hm, fun d hd => by simp [hd, Node.isDefinition] at hDefinition,
        fun f hf => by simp [hf, Node.isDefinition] at hDefinition⟩
  | enum n => cases hy
  | typedef n => cases hy
  | stmt n =>
      rcases List.mem_append.mp hy with hChild | hReference
      · rcases h.children hn y hChild with ⟨s, hs⟩ | ⟨d, hd⟩
        · exact ⟨_, hs, nofun, nofun⟩
        · exact ⟨_, hd, fun _ _ => .child hn hChild, nofun⟩
      · obtain ⟨d, hd⟩ := h.references hn y hReference
        exact ⟨_, hd, fun _ _ => .reference hn hReference, nofun⟩
  | block n =>
      rcases List.mem_append.mp hy with hStatement | hSuccessor
      · obtain ⟨s, hs⟩ := h.statements hn y hStatement
        exact ⟨_, hs, nofun, nofun⟩
      · obtain ⟨b, hb⟩ := h.successors hn y hSuccessor
        exact ⟨_, hb, nofun, nofun⟩
  | function n =>
      simp only [Node.links, List.mem_append, List.mem_singleton] at hy
      rcases hy with (hArg | rfl) | hBlock
      · obtain ⟨d, hd⟩ := h.args hn y hArg
        exact ⟨_, hd, fun _ _ => .arg hn hArg, nofun⟩
      · obtain ⟨s, hs⟩ := h.entry hn
        exact ⟨_, hs, nofun, nofun⟩
      · obtain ⟨b, hb⟩ := h.blocks hn y hBlock
        exact ⟨_, hb, nofun, nofun⟩

theorem Typed.closed (h : a.Typed) : Closed a.walkAgenda a.ids := by
  intro x _ y hy
  obtain ⟨m, hm, -⟩ := h.target (requested_walkAgenda.mp hy)
  exact mem_ids_iff.mpr ⟨m, hm⟩

end Arena

namespace CodeGraph

/-- What a walk presents at an event. -/
def present : Event NodeId OwnedToken → WalkEvent
  | .entered x => .node x
  | .marked t => .token t

theorem present_inj {v w : Event NodeId OwnedToken} (h : present v = present w) : v = w := by
  cases v <;> cases w <;> cases h <;> rfl

end CodeGraph

/-- What a walk presents stands among the roots or on the agenda of a node presented before. -/
theorem Arena.asked_before {a : Arena} (hc : Closed a.walkAgenda a.ids) {roots : List NodeId}
    (hr : ∀ x ∈ roots, x ∈ a.ids) {before after : List WalkEvent} {v : Event NodeId OwnedToken}
    (hWalk : a.walk roots = before ++ CodeGraph.present v :: after) :
    v.line ∈ roots.map Item.visit ∨ ∃ y, .node y ∈ before ∧ v.line ∈ a.walkAgenda y := by
  have hRequested : ∀ x ∈ requested (roots.map (Item.visit (β := OwnedToken))), x ∈ a.ids := by simpa using hr
  obtain ⟨earlier, later, hSplit, rfl, hLater⟩ := List.map_eq_append_iff.mp hWalk
  obtain ⟨w, rest, rfl, hw, -⟩ := List.map_eq_cons_iff.mp hLater
  cases CodeGraph.present_inj (w := v) hw
  refine (Traversal.asked_before hc hRequested hSplit).imp id fun hAsked => ?_
  obtain ⟨y, hy, hLine⟩ := hAsked
  exact ⟨y, List.mem_map_of_mem (f := CodeGraph.present) (mem_entered_iff.mp hy), hLine⟩

namespace CodeGraph

/-- The nodes at which a walk starts. -/
def roots (g : CodeGraph) : List NodeId := g.functions ++ g.records

/-- Links are typed, the functions and the records of the top level are nodes of these kinds, every node can
be reached from them, and every block belongs to a function. -/
structure WellFormed (g : CodeGraph) : Prop where
  typed : g.arena.Typed
  functions : ∀ x ∈ g.functions, ∃ n, g.arena.get? x = some (.function n)
  records : ∀ x ∈ g.records, ∃ n, g.arena.get? x = some (.record n)
  reached : ∀ x n, g.arena.get? x = some n →
    ∃ root ∈ g.roots, Relation.ReflTransGen g.arena.Links root x
  owned : ∀ x b, g.arena.get? x = some (.block b) → ∃ f n, g.arena.get? f = some (.function n) ∧ x ∈ n.blocks

variable {g : CodeGraph} {x : NodeId}

def events (g : CodeGraph) : List (Event NodeId OwnedToken) :=
  Traversal.traverse g.arena.walkAgenda g.arena.ids (g.roots.map .visit)

theorem walk_eq (g : CodeGraph) : g.walk = g.events.map present := rfl

theorem WellFormed.requested_pool (h : g.WellFormed) :
    ∀ x ∈ requested (g.roots.map (Item.visit (β := OwnedToken))), x ∈ g.arena.ids := by
  intro x hx
  rw [requested_visits] at hx
  rcases List.mem_append.mp hx with hx | hx
  · obtain ⟨n, hn⟩ := h.functions x hx
    exact Arena.mem_ids_iff.mpr ⟨_, hn⟩
  · obtain ⟨n, hn⟩ := h.records x hx
    exact Arena.mem_ids_iff.mpr ⟨_, hn⟩

theorem WellFormed.roots_mem_ids (h : g.WellFormed) : ∀ x ∈ g.roots, x ∈ g.arena.ids := by
  intro x hx
  apply h.requested_pool
  rwa [requested_visits]

/-- Every node is entered once. -/
theorem WellFormed.entered_perm (h : g.WellFormed) : (entered g.events).Perm g.arena.ids := by
  have hPool := h.requested_pool
  refine (List.perm_ext_iff_of_nodup (entered_run_nodup h.typed.closed hPool).1 g.arena.ids_nodup).mpr ?_
  intro x
  constructor
  · exact forall_entered_run h.typed.closed (P := (· ∈ g.arena.ids)) h.typed.closed hPool hPool x
  · intro hx
    obtain ⟨n, hn⟩ := Arena.mem_ids_iff.mp hx
    exact (Arena.mem_order_iff h.typed.closed h.roots_mem_ids).mpr (h.reached x n hn)

theorem WellFormed.marks_perm (h : g.WellFormed) : (marks g.events).Perm
    (g.arena.ids.flatMap fun x => (g.arena.tokensOf x).map (⟨x, ·⟩)) := by
  have hMarks : (marks g.events).Perm _ := marks_run_perm h.typed.closed h.requested_pool
  simp only [itemMarks_visits, List.nil_append, Arena.itemMarks_walkAgenda] at hMarks
  exact hMarks.trans (h.entered_perm.flatMap_right _)

/-- A walk presents every node and every token of a node once. -/
theorem WellFormed.flatMap_walk_perm {γ : Type} (h : g.WellFormed) (f : WalkEvent → List γ) :
    (g.walk.flatMap f).Perm (g.arena.ids.flatMap fun x =>
      f (.node x) ++ (g.arena.tokensOf x).flatMap fun t => f (.token ⟨x, t⟩)) := by
  have hNodes := h.entered_perm.flatMap_right fun x => f (.node x)
  have hTokens := h.marks_perm.flatMap_right fun t => f (.token t)
  simp only [List.flatMap_assoc, List.flatMap_map] at hTokens
  rw [walk_eq, List.flatMap_map]
  refine (flatMap_events_perm g.events _).trans ?_
  exact (hNodes.append hTokens).trans (List.flatMap_append_perm ..)

theorem WellFormed.asked_before (h : g.WellFormed) {before : List WalkEvent} {v : Event NodeId OwnedToken}
    (hp : before ++ [present v] <+: g.walk) :
    v.line ∈ g.roots.map Item.visit ∨ ∃ y, .node y ∈ before ∧ v.line ∈ g.arena.walkAgenda y := by
  obtain ⟨after, hAfter⟩ := hp
  rw [List.append_assoc] at hAfter
  exact Arena.asked_before h.typed.closed h.roots_mem_ids hAfter.symm

/-- A node is presented at the beginning or after a node that links to it. -/
theorem WellFormed.linked_before (h : g.WellFormed) {before : List WalkEvent}
    (hp : before ++ [.node x] <+: g.walk) : x ∈ g.roots ∨ ∃ y, .node y ∈ before ∧ g.arena.Links y x := by
  rcases h.asked_before (v := .entered x) hp with hRoot | ⟨y, hy, hLine⟩
  · left
    rw [← requested_visits (β := OwnedToken) g.roots]
    exact mem_requested_iff.mpr hRoot
  · exact Or.inr ⟨y, hy, Arena.requested_walkAgenda.mp (mem_requested_iff.mpr hLine)⟩

/-- A token is presented after the node that it belongs to. -/
theorem WellFormed.owner_before (h : g.WellFormed) {before : List WalkEvent} {t : OwnedToken}
    (hp : before ++ [.token t] <+: g.walk) :
    .node t.owner ∈ before ∧ t.token ∈ g.arena.tokensOf t.owner := by
  rcases h.asked_before (v := .marked t) hp with hRoot | ⟨y, hy, hLine⟩
  · have hMark := mem_itemMarks_iff.mpr hRoot
    rw [itemMarks_visits] at hMark
    cases hMark
  · have hMark := mem_itemMarks_iff.mpr hLine
    rw [Arena.itemMarks_walkAgenda] at hMark
    obtain ⟨token, hToken, rfl⟩ := List.mem_map.mp hMark
    exact ⟨hy, hToken⟩

end CodeGraph

end UnitGraph
