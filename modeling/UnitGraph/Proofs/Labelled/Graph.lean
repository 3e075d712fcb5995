import Mathlib.Data.List.Induction
import Mathlib.Data.List.Nodup
import UnitGraph.Labelled.Graph

/-!
# What contributions add up to

A labelled graph never has two nodes of one key. Contributions are added one after another, and whether a
token is added depends on what came before it. Once it is settled which owners are nodes when their tokens
come, the graph is read off the contributions: it has the nodes and the edges that they call for, and of
several nodes of one key the first.
-/
namespace UnitGraph

namespace Contribution

variable (owned : GraphKey → Bool)

/-- The node that a contribution calls for, given the owners whose tokens are wanted. -/
def wantedNode? : Contribution → Option LabelledNode
  | .mention n => some n
  | .connect _ => none
  | .own owner token => if owned owner then some token else none

/-- The edge that a contribution calls for, given the owners whose tokens are wanted. -/
def wantedEdge? : Contribution → Option LabelledEdge
  | .mention _ => none
  | .connect e => some e
  | .own owner token => if owned owner then some ⟨owner, token.key, .token⟩ else none

/-- Whenever a token comes, its owner has been called for exactly if its tokens are wanted. -/
def Settled (cs : List Contribution) : Prop :=
  ∀ before owner token, before ++ [.own owner token] <+: cs →
    (owned owner = true ↔ ∃ n ∈ before.filterMap (wantedNode? owned), n.key = owner)

variable {owned}

@[simp] theorem wantedNodes_mention (n : LabelledNode) (cs : List Contribution) :
    (.mention n :: cs).filterMap (wantedNode? owned) = n :: cs.filterMap (wantedNode? owned) := rfl
@[simp] theorem wantedNodes_connect (e : LabelledEdge) (cs : List Contribution) :
    (.connect e :: cs).filterMap (wantedNode? owned) = cs.filterMap (wantedNode? owned) := rfl
@[simp] theorem wantedEdges_mention (n : LabelledNode) (cs : List Contribution) :
    (.mention n :: cs).filterMap (wantedEdge? owned) = cs.filterMap (wantedEdge? owned) := rfl
@[simp] theorem wantedEdges_connect (e : LabelledEdge) (cs : List Contribution) :
    (.connect e :: cs).filterMap (wantedEdge? owned) = e :: cs.filterMap (wantedEdge? owned) := rfl

theorem Settled.init {cs : List Contribution} {c : Contribution} (h : Settled owned (cs ++ [c])) :
    Settled owned cs :=
  fun before owner token hp => h before owner token (hp.trans (List.prefix_append ..))

end Contribution

namespace LabelledGraph

open Contribution

variable {owned : GraphKey → Bool} {g : LabelledGraph} {flavor : Flavor}

theorem node?_mention (g : LabelledGraph) (n : LabelledNode) (k : GraphKey) :
    (g.mention n).node? k = (g.node? k).or ([n].find? (·.key = k)) := by
  unfold mention
  split
  · next hSome =>
      by_cases hk : n.key = k
      · subst hk
        obtain ⟨m, hm⟩ := Option.isSome_iff_exists.mp hSome
        rw [hm, Option.some_or]
      · simp [hk]
  · exact List.find?_append

@[simp] theorem edges_mention (g : LabelledGraph) (n : LabelledNode) : (g.mention n).edges = g.edges := by
  unfold mention
  split <;> rfl

@[simp] theorem node?_connect (g : LabelledGraph) (e : LabelledEdge) (k : GraphKey) :
    (g.connect e).node? k = g.node? k := rfl

@[simp] theorem edges_connect (g : LabelledGraph) (e : LabelledEdge) :
    (g.connect e).edges = g.edges ++ [e] := rfl

/-- A contribution adds the node and the edge that it calls for, if its owner is there just when wanted. -/
theorem add_eq {c : Contribution}
    (h : ∀ owner token, c = .own owner token → (owned owner = true ↔ (g.node? owner).isSome)) :
    (∀ k, (g.add c).node? k = (g.node? k).or (([c].filterMap (wantedNode? owned)).find? (·.key = k))) ∧
      (g.add c).edges = g.edges ++ [c].filterMap (wantedEdge? owned) := by
  cases c with
  | mention n => exact ⟨g.node?_mention n, by simp [add, wantedEdge?]⟩
  | connect e => exact ⟨fun k => by simp [add, wantedNode?], rfl⟩
  | own owner token =>
      have hOwner := h owner token rfl
      by_cases hOwned : owned owner = true
      · simp [add, wantedNode?, wantedEdge?, hOwned, hOwner.mp hOwned, node?_mention]
      · simp [add, wantedNode?, wantedEdge?, hOwned, mt hOwner.mpr hOwned]

/-- The graph is read off the contributions. -/
theorem foldl_add {cs : List Contribution} (h : Settled owned cs) :
    (∀ k, (cs.foldl add (empty flavor)).node? k = (cs.filterMap (wantedNode? owned)).find? (·.key = k)) ∧
      (cs.foldl add (empty flavor)).edges = cs.filterMap (wantedEdge? owned) := by
  induction cs using List.reverseRecOn with
  | nil => exact ⟨fun _ => rfl, rfl⟩
  | append_singleton cs c ih =>
      obtain ⟨hNodes, hEdges⟩ := ih h.init
      have hOwner : ∀ owner token, c = .own owner token →
          (owned owner = true ↔ ((cs.foldl add (empty flavor)).node? owner).isSome) := by
        intro owner token hc
        rw [hNodes, h cs owner token (hc ▸ List.prefix_rfl), List.find?_isSome]
        simp
      obtain ⟨hNode, hEdge⟩ := add_eq hOwner
      simp only [List.foldl_append, List.foldl_cons, List.foldl_nil, List.filterMap_append]
      constructor
      · intro k
        rw [hNode, hNodes, List.find?_append]
      · rw [hEdge, hEdges]

theorem keys_nodup_mention (h : (g.nodes.map (·.key)).Nodup) (n : LabelledNode) :
    ((g.mention n).nodes.map (·.key)).Nodup := by
  unfold mention
  split
  · exact h
  · next hNone =>
      have hNew : ∀ m ∈ g.nodes, m.key ≠ n.key := by
        simpa [node?] using hNone
      rw [List.map_append, List.map_singleton, List.nodup_append]
      refine ⟨h, List.nodup_singleton _, ?_⟩
      simpa using hNew

theorem keys_nodup_foldl (h : (g.nodes.map (·.key)).Nodup) (cs : List Contribution) :
    ((cs.foldl add g).nodes.map (·.key)).Nodup := by
  induction cs generalizing g with
  | nil => exact h
  | cons c cs ih =>
      refine ih ?_
      cases c with
      | mention n => exact keys_nodup_mention h n
      | connect e => exact h
      | own owner token =>
          rw [add]
          split
          · exact keys_nodup_mention h token
          · exact h

/-- If no two nodes have one key, every node is found. -/
theorem node?_key (h : (g.nodes.map (·.key)).Nodup) {n : LabelledNode} (hn : n ∈ g.nodes) :
    g.node? n.key = some n := by
  cases hFind : g.node? n.key with
  | none => simpa using List.find?_eq_none.mp hFind n hn
  | some m =>
      have hKey : m.key = n.key := by simpa using List.find?_some hFind
      rw [List.inj_on_of_nodup_map h (List.mem_of_find?_eq_some hFind) hn hKey]

/-- Every node of the graph was called for as it is. -/
theorem mem_of_foldl_add {cs : List Contribution} (h : Settled owned cs) {n : LabelledNode}
    (hn : n ∈ (cs.foldl add (empty flavor)).nodes) : n ∈ cs.filterMap (wantedNode? owned) := by
  have hFind := node?_key (keys_nodup_foldl (g := empty flavor) List.nodup_nil cs) hn
  rw [(foldl_add h).1] at hFind
  exact List.mem_of_find?_eq_some hFind

theorem exists_mem_iff {k : GraphKey} : (∃ n ∈ g.nodes, n.key = k) ↔ (g.node? k).isSome := by
  simp [node?]

end LabelledGraph

end UnitGraph
