import UnitGraph.Proofs.Graph.Embedding
import UnitGraph.Proofs.Labelled.Outline

/-!
# Labelled graphs of graphs that show up in others

A labelled graph under other identities has the same labels in the same order, and the same edges. Main statement:
in a flavor with no edges for control flow and none for tokens, blocks leave no trace.
-/
namespace UnitGraph

section Renaming
variable (ρ : NodeId → NodeId)

def GraphKey.mapIds : GraphKey → GraphKey
  | .node x => .node (ρ x)
  | .token i => .token i

def LabelledNode.mapIds (n : LabelledNode) : LabelledNode := { n with key := n.key.mapIds ρ }

def LabelledEdge.mapIds (e : LabelledEdge) : LabelledEdge :=
  { e with source := e.source.mapIds ρ, target := e.target.mapIds ρ }

def Contribution.mapIds : Contribution → Contribution
  | .mention n => .mention (n.mapIds ρ)
  | .connect e => .connect (e.mapIds ρ)
  | .own owner token => .own (owner.mapIds ρ) (token.mapIds ρ)

/-- The labelled graph of the same nodes under other identities. -/
def LabelledGraph.mapIds (g : LabelledGraph) : LabelledGraph :=
  { g with nodes := g.nodes.map (·.mapIds ρ), edges := g.edges.map (·.mapIds ρ) }

end Renaming

variable {ρ : NodeId → NodeId}

theorem GraphKey.mapIds_injective (hρ : Function.Injective ρ) : Function.Injective (GraphKey.mapIds ρ) := by
  intro k k' h
  cases k with
  | node x =>
      cases k' with
      | node y => exact congrArg GraphKey.node (hρ (GraphKey.node.inj h))
      | token i => cases h
  | token i =>
      cases k' with
      | node y => cases h
      | token j => exact h

namespace LabelledGraph

variable {g : LabelledGraph}

section Injective
variable (hρ : Function.Injective ρ)
include hρ

theorem key_mapIds_iff (n : LabelledNode) (k : GraphKey) : (n.mapIds ρ).key = k.mapIds ρ ↔ n.key = k :=
  (GraphKey.mapIds_injective hρ).eq_iff

theorem node?_mapIds (g : LabelledGraph) (k : GraphKey) :
    (g.mapIds ρ).node? (k.mapIds ρ) = (g.node? k).map (·.mapIds ρ) := by
  simp only [node?, mapIds, List.find?_map, Function.comp_def, key_mapIds_iff hρ]

theorem position?_mapIds (g : LabelledGraph) (k : GraphKey) :
    (g.mapIds ρ).position? (k.mapIds ρ) = g.position? k := by
  simp only [position?, mapIds, List.findIdx?_map, Function.comp_def, key_mapIds_iff hρ]

theorem mention_mapIds (g : LabelledGraph) (n : LabelledNode) :
    (g.mapIds ρ).mention (n.mapIds ρ) = (g.mention n).mapIds ρ := by
  have hNode := node?_mapIds hρ g n.key
  rw [mention, mention, LabelledNode.mapIds, hNode, Option.isSome_map]
  split
  · rfl
  · simp only [mapIds, List.map_append, List.map_singleton]
    rfl

omit hρ in
theorem connect_mapIds (g : LabelledGraph) (e : LabelledEdge) :
    (g.mapIds ρ).connect (e.mapIds ρ) = (g.connect e).mapIds ρ := by
  simp only [connect, mapIds, List.map_append, List.map_singleton]

theorem add_mapIds (g : LabelledGraph) (c : Contribution) : (g.mapIds ρ).add (c.mapIds ρ) = (g.add c).mapIds ρ := by
  cases c with
  | mention n => exact mention_mapIds hρ g n
  | connect e => exact connect_mapIds g e
  | own owner token =>
      simp only [Contribution.mapIds, add, node?_mapIds hρ, Option.isSome_map]
      split
      · rw [mention_mapIds hρ, ← connect_mapIds]
        rfl
      · rfl

/-- The same contributions under other identities build the same graph under other identities. -/
theorem foldl_add_mapIds (cs : List Contribution) (g : LabelledGraph) :
    (cs.map (·.mapIds ρ)).foldl add (g.mapIds ρ) = (cs.foldl add g).mapIds ρ := by
  induction cs generalizing g with
  | nil => rfl
  | cons c cs ih => rw [List.map_cons, List.foldl_cons, List.foldl_cons, add_mapIds hρ, ih]

theorem positionedEdges_mapIds (g : LabelledGraph) : (g.mapIds ρ).positionedEdges = g.positionedEdges := by
  have hEdges : (g.mapIds ρ).edges = g.edges.map (·.mapIds ρ) := rfl
  simp only [positionedEdges, hEdges, List.filterMap_map, Function.comp_def, LabelledEdge.mapIds,
    position?_mapIds hρ]

end Injective

theorem labels_mapIds (g : LabelledGraph) : (g.mapIds ρ).nodes.map (·.label) = g.nodes.map (·.label) := by
  simp only [mapIds, List.map_map]
  rfl

end LabelledGraph

theorem flatMap_filter {α β : Type} {p : α → Bool} {f : α → List β} (h : ∀ x, p x = false → f x = [])
    (xs : List α) : (xs.filter p).flatMap f = xs.flatMap f := by
  induction xs with
  | nil => rfl
  | cons x xs ih => cases hx : p x <;> simp [hx, ih, h x]

/-- The label of a node, whatever it links to. -/
def Node.label : Node → String
  | .stmt n => n.name
  | .decl n => (TypeClass.ofSpelling n.type).name
  | .block _ => "cfg"
  | n => n.kindName

namespace Arena

theorem labelOf_eq (a : Arena) (x : NodeId) : a.labelOf x = ((a.get? x).map Node.label).getD "" := by
  unfold labelOf
  cases a.get? x with
  | none => rfl
  | some n => cases n <;> rfl

end Arena

namespace CodeGraph.Embeds

variable {g g' : CodeGraph} {flavor : Flavor}

theorem labelOf (h : Embeds ρ g g') (x : NodeId) : g'.arena.labelOf (ρ x) = g.arena.labelOf x := by
  have hLabel : ∀ n : Node, n.withoutBlocks.label = n.label ∧ (n.mapIds ρ).label = n.label := by
    intro n
    cases n <;> exact ⟨rfl, rfl⟩
  have hx := congrArg (Option.map Node.label) (h.nodes x)
  simp only [Option.map_map, Function.comp_def, hLabel] at hx
  rw [Arena.labelOf_eq, Arena.labelOf_eq, hx]

theorem argumentLabel (h : Embeds ρ g g') (x : NodeId) :
    g'.arena.argumentLabel (ρ x) = g.arena.argumentLabel x := by
  have hType : ∀ n : Node, n.withoutBlocks.asDecl?.map (·.type) = n.asDecl?.map (·.type) ∧
      (n.mapIds ρ).asDecl?.map (·.type) = n.asDecl?.map (·.type) := by
    intro n
    cases n <;> exact ⟨rfl, rfl⟩
  have hx := congrArg (Option.bind · fun n => n.asDecl?.map (·.type)) (h.nodes x)
  simp only [Option.bind_map, Function.comp_def, hType] at hx
  simp only [Arena.argumentLabel, Arena.decl?, Option.map_bind, Function.comp_def, hx]

theorem mentionOf (h : Embeds ρ g g') (x : NodeId) :
    g'.arena.mentionOf (ρ x) = (g.arena.mentionOf x).mapIds ρ := by
  rw [Arena.mentionOf, Arena.mentionOf, h.labelOf]
  rfl

/-- Nodes that come with an edge each, from a node that corresponds. -/
theorem mentions (h : Embeds ρ g g') (x : NodeId) (kind : EdgeKind) (ys : List NodeId) :
    ((ys.map ρ).flatMap fun y => [g'.arena.mentionOf y, Arena.edge (ρ x) y kind]) =
      (ys.flatMap fun y => [g.arena.mentionOf y, Arena.edge x y kind]).map (·.mapIds ρ) := by
  simp only [List.flatMap_map, List.map_flatMap, h.mentionOf]
  rfl

theorem functionContributions (h : Embeds ρ g g') (hFlow : flavor.includes .cfg = false) (x : NodeId)
    {n n' : FunctionNode} (hArgs : n'.args = n.args.map ρ) (hEntry : n'.entry = ρ n.entry) :
    g'.arena.functionContributions flavor (ρ x) n' =
      (g.arena.functionContributions flavor x n).map (·.mapIds ρ) := by
  simp only [Arena.functionContributions, hFlow, hArgs, hEntry, h.mentionOf, List.flatMap_map, h.argumentLabel,
    List.map_cons, List.map_append, List.map_flatMap]
  rfl

theorem stmtContributions (h : Embeds ρ g g') (x : NodeId) {n n' : StmtNode}
    (hChildren : n'.children = n.children.map ρ) (hReferences : n'.references = n.references.map ρ) :
    g'.arena.stmtContributions flavor (ρ x) n' =
      (g.arena.stmtContributions flavor x n).map (·.mapIds ρ) := by
  rw [Arena.stmtContributions, Arena.stmtContributions, hChildren, hReferences, h.mentions, h.mentions, h.mentionOf,
    List.map_append, List.map_cons]
  cases flavor.includes .data <;> rfl

/-- Without edges for control flow, corresponding nodes contribute the same. -/
theorem contributions (h : Embeds ρ g g') (hFlow : flavor.includes .cfg = false) (x : NodeId) :
    g'.arena.contributions flavor (.node (ρ x)) =
      (g.arena.contributions flavor (.node x)).map (·.mapIds ρ) := by
  have hx := h.nodes x
  simp only [Arena.contributions]
  cases hn : g.arena.get? x with
  | none =>
      rw [hn, Option.map_none, Option.map_eq_none_iff] at hx
      rw [hx]
      rfl
  | some n =>
      rw [hn, Option.map_some, Option.map_eq_some_iff] at hx
      obtain ⟨n', hn', hEq⟩ := hx
      rw [hn']
      cases n with
      | function n =>
          cases n' with
          | function n' =>
              have hEq := Node.function.inj hEq
              exact h.functionContributions hFlow x (congrArg (·.args) hEq) (congrArg (·.entry) hEq)
          | _ => cases hEq
      | stmt n =>
          cases n' with
          | stmt n' =>
              have hEq := Node.stmt.inj hEq
              exact h.stmtContributions x (congrArg (·.children) hEq) (congrArg (·.references) hEq)
          | _ => cases hEq
      | _ => cases n' <;> first | rfl | cases hEq

/-- Blocks contribute nothing by themselves. -/
theorem contributions_of_block {a : Arena} {x : NodeId} (hx : (a.block? x).isNone = false) :
    a.contributions flavor (.node x) = [] := by
  simp only [Arena.contributions]
  cases hn : a.get? x with
  | none => rfl
  | some n => cases n <;> first | rfl | simp [Arena.block?, hn, Node.asBlock?] at hx

/-- In a flavor with no edges for control flow and none for tokens, blocks leave no trace. -/
theorem labelled (h : Embeds ρ g g') (hg : g.WellFormed) (hg' : g'.WellFormed) (hBelow : g'.arena.FlowBelow)
    (hFlow : flavor.includes .cfg = false) (hToken : flavor.includes .token = false) :
    g'.labelled flavor = (g.labelled flavor).mapIds ρ := by
  have hContributions : (g'.arena.order g'.roots).flatMap (fun x => g'.arena.contributions flavor (.node x)) =
      ((g.arena.order g.roots).flatMap fun x => g.arena.contributions flavor (.node x)).map (·.mapIds ρ) :=
    calc (g'.arena.order g'.roots).flatMap (fun x => g'.arena.contributions flavor (.node x))
        = ((g'.arena.order g'.roots).filter fun x => (g'.arena.block? x).isNone).flatMap
            fun x => g'.arena.contributions flavor (.node x) := by
          exact (flatMap_filter (fun _ => contributions_of_block) _).symm
      _ = (g.arena.order g.roots).flatMap fun x => g'.arena.contributions flavor (.node (ρ x)) := by
          rw [h.order hg hg' hBelow, List.flatMap_map]
      _ = ((g.arena.order g.roots).flatMap fun x => g.arena.contributions flavor (.node x)).map (·.mapIds ρ) := by
          rw [List.map_flatMap]
          exact List.flatMap_congr fun x _ => h.contributions hFlow x
  rw [labelled_eq hg'.typed.closed hg'.roots_mem_ids hToken, labelled_eq hg.typed.closed hg.roots_mem_ids hToken,
    hContributions]
  exact LabelledGraph.foldl_add_mapIds h.injective _ (.empty flavor)

end CodeGraph.Embeds

end UnitGraph
