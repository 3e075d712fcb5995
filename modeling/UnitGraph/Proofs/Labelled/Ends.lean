import UnitGraph.Proofs.Labelled.Graph

/-!
# The ends of edges

Every contribution that connects two nodes comes after both have been mentioned by the same event. Main
statement: the edges of the labelled graph of any code graph join nodes of the graph, so the list of edges by
the positions of their ends leaves none out.
-/
namespace UnitGraph

namespace Contribution

/-- Nodes are connected only if they are known or mentioned before. -/
def Grounded : List GraphKey → List Contribution → Prop
  | _, [] => True
  | known, .mention n :: cs => Grounded (n.key :: known) cs
  | known, .connect e :: cs => e.source ∈ known ∧ e.target ∈ known ∧ Grounded known cs
  | known, .own _ _ :: cs => Grounded known cs

variable {known known' : List GraphKey} {cs cs' : List Contribution}

theorem Grounded.mono (h : Grounded known cs) (hKnown : known ⊆ known') : Grounded known' cs := by
  induction cs generalizing known known' with
  | nil => trivial
  | cons c cs ih =>
      cases c with
      | mention n => exact ih h (List.cons_subset_cons _ hKnown)
      | connect e => exact ⟨hKnown h.1, hKnown h.2.1, ih h.2.2 hKnown⟩
      | own owner token => exact ih h hKnown

theorem Grounded.append (h : Grounded known cs) (h' : Grounded known cs') : Grounded known (cs ++ cs') := by
  induction cs generalizing known with
  | nil => exact h'
  | cons c cs ih =>
      cases c with
      | mention n => exact ih h (h'.mono (List.subset_cons_self _ _))
      | connect e => exact ⟨h.1, h.2.1, ih h.2.2 h'⟩
      | own owner token => exact ih h h'

theorem grounded_flatMap {α : Type} {f : α → List Contribution} {xs : List α}
    (h : ∀ x ∈ xs, Grounded known (f x)) : Grounded known (xs.flatMap f) := by
  induction xs with
  | nil => trivial
  | cons x xs ih =>
      obtain ⟨hx, hxs⟩ := List.forall_mem_cons.mp h
      exact hx.append (ih hxs)

end Contribution

open Contribution

namespace LabelledGraph

variable {g : LabelledGraph}

/-- Every edge joins nodes of the graph. -/
def Closed (g : LabelledGraph) : Prop :=
  ∀ e ∈ g.edges, (g.node? e.source).isSome = true ∧ (g.node? e.target).isSome = true

theorem isSome_node?_mention {k : GraphKey} (h : (g.node? k).isSome = true) (n : LabelledNode) :
    ((g.mention n).node? k).isSome = true := by
  simp [node?_mention, h]

theorem isSome_node?_self (g : LabelledGraph) (n : LabelledNode) :
    ((g.mention n).node? n.key).isSome = true := by
  simp [node?_mention]

theorem isSome_node?_add {k : GraphKey} (h : (g.node? k).isSome = true) (c : Contribution) :
    ((g.add c).node? k).isSome = true := by
  cases c with
  | mention n => exact isSome_node?_mention h n
  | connect e => exact h
  | own owner token =>
      rw [add]
      split
      · exact isSome_node?_mention h token
      · exact h

theorem Closed.mention (h : g.Closed) (n : LabelledNode) : (g.mention n).Closed := by
  intro e he
  rw [edges_mention] at he
  exact ⟨isSome_node?_mention (h e he).1 n, isSome_node?_mention (h e he).2 n⟩

theorem Closed.connect (h : g.Closed) {e : LabelledEdge} (hSource : (g.node? e.source).isSome = true)
    (hTarget : (g.node? e.target).isSome = true) : (g.connect e).Closed := by
  intro e' he'
  obtain hOld | hNew := List.mem_append.mp he'
  · exact h e' hOld
  · cases List.mem_singleton.mp hNew
    exact ⟨hSource, hTarget⟩

/-- What known nodes and contributions make of a graph whose edges join its nodes. -/
theorem Closed.foldl_add {known : List GraphKey} {cs : List Contribution} (h : g.Closed)
    (hKnown : ∀ k ∈ known, (g.node? k).isSome = true) (hcs : Grounded known cs) : (cs.foldl add g).Closed := by
  induction cs generalizing g known with
  | nil => exact h
  | cons c cs ih =>
      have hStill : ∀ k ∈ known, ((g.add c).node? k).isSome = true :=
        fun k hk => isSome_node?_add (hKnown k hk) c
      cases c with
      | mention n =>
          exact ih (h.mention n) (List.forall_mem_cons.mpr ⟨isSome_node?_self g n, hStill⟩) hcs
      | connect e => exact ih (h.connect (hKnown _ hcs.1) (hKnown _ hcs.2.1)) hStill hcs.2.2
      | own owner token =>
          refine ih ?_ hStill hcs
          rw [add]
          split
          · next hOwner =>
              exact (h.mention token).connect (isSome_node?_mention hOwner token) (isSome_node?_self g token)
          · exact h

theorem position?_lt {k : GraphKey} {i : Nat} (h : g.position? k = some i) : i < g.nodes.length :=
  (List.findIdx?_eq_some_iff_getElem.mp h).1

theorem exists_position? {k : GraphKey} (h : (g.node? k).isSome = true) : ∃ i, g.position? k = some i := by
  rw [← Option.isSome_iff_exists, position?, List.findIdx?_isSome]
  simpa [node?] using h

/-- The listed ends are positions of nodes. -/
theorem positionedEdges_lt {e : Nat × Nat × EdgeKind} (he : e ∈ g.positionedEdges) :
    e.1 < g.nodes.length ∧ e.2.1 < g.nodes.length := by
  obtain ⟨e', -, hEnds⟩ := List.mem_filterMap.mp he
  obtain ⟨source, hSource, hRest⟩ := Option.bind_eq_some_iff.mp hEnds
  obtain ⟨target, hTarget, hEdge⟩ := Option.bind_eq_some_iff.mp hRest
  cases hEdge
  exact ⟨position?_lt hSource, position?_lt hTarget⟩

/-- No edge is left out. -/
theorem Closed.positionedEdges_eq (h : g.Closed) :
    g.positionedEdges.map (fun e => (some e.1, some e.2.1, e.2.2)) =
      g.edges.map fun e => (g.position? e.source, g.position? e.target, e.kind) := by
  rw [positionedEdges, List.map_filterMap, ← List.filterMap_eq_map]
  refine List.filterMap_congr fun e he => ?_
  obtain ⟨source, hSource⟩ := exists_position? (h e he).1
  obtain ⟨target, hTarget⟩ := exists_position? (h e he).2
  simp [hSource, hTarget]

end LabelledGraph

namespace Arena

variable (a : Arena)

section Edges
variable (x : NodeId) (kind : EdgeKind) {n : NodeId → LabelledNode}

theorem grounded_edges_from (hn : ∀ y, (n y).key = .node y) (ys : List NodeId) :
    Grounded [.node x] (ys.flatMap fun y => [.mention (n y), edge x y kind]) :=
  grounded_flatMap fun y _ => by simp [Grounded, edge, hn]

theorem grounded_edges_to (hn : ∀ y, (n y).key = .node y) (ys : List NodeId) :
    Grounded [.node x] (ys.flatMap fun y => [.mention (n y), edge y x kind]) :=
  grounded_flatMap fun y _ => by simp [Grounded, edge, hn]

end Edges

theorem grounded_block (x : NodeId) : Grounded [] (a.blockContributions x) := by
  unfold blockContributions
  cases a.block? x with
  | none => trivial
  | some n =>
      change Grounded [.node x] (_ ++ _)
      exact (grounded_edges_from x .cfg (fun _ => rfl) _).append (grounded_edges_to x .within (fun _ => rfl) _)

theorem grounded_contributions (flavor : Flavor) (v : WalkEvent) : Grounded [] (a.contributions flavor v) := by
  cases v with
  | token t =>
      rw [contributions]
      split <;> trivial
  | node x =>
      rw [contributions]
      split
      · next n _ =>
          -- the function itself is known from its own mention on
          change Grounded [.node x] (_ ++ _ ++ _)
          have hEntry : Grounded [.node x] [a.mentionOf n.entry, edge x n.entry .ast] := by
            simp [Grounded, mentionOf, edge]
          refine ((grounded_edges_from x .ast (fun _ => rfl) _).append hEntry).append ?_
          split
          · exact (grounded_flatMap fun b _ => a.grounded_block b).mono (List.nil_subset _)
          · trivial
      · change Grounded [.node x] (_ ++ _)
        refine (grounded_edges_from x .ast (fun _ => rfl) _).append ?_
        split
        · exact grounded_edges_from x .data (fun _ => rfl) _
        · trivial
      · trivial

end Arena

theorem CodeGraph.labelled_closed (g : CodeGraph) (flavor : Flavor) : (g.labelled flavor).Closed :=
  LabelledGraph.Closed.foldl_add (by simp [LabelledGraph.Closed, LabelledGraph.empty]) (by simp)
    (grounded_flatMap fun v _ => g.arena.grounded_contributions flavor v)

end UnitGraph
