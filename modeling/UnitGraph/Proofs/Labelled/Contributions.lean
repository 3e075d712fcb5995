import UnitGraph.Proofs.Graph.Walk
import UnitGraph.Proofs.Labelled.Graph

/-!
# What the events of a walk contribute

The event of a node calls for the node itself, for whatever it links to by edges of the flavor, and for
these edges; the event of a token calls for the token and for the edge from its owner, if tokens are wanted
of an owner of that kind.
-/
namespace UnitGraph

/-- Functions, statements and declarations: the nodes whose tokens a labelled graph shows. -/
def Node.isSyntax : Node → Bool
  | .function _ | .stmt _ | .decl _ => true
  | .record _ | .enum _ | .typedef _ | .block _ => false

namespace Flavor

theorem includes_ast (flavor : Flavor) : flavor.includes .ast = true := by
  cases flavor <;> rfl

theorem includes_within (flavor : Flavor) : flavor.includes .within = flavor.includes .cfg := by
  cases flavor <;> rfl

theorem includes_data_of_token {flavor : Flavor} (h : flavor.includes .token = true) :
    flavor.includes .data = true := by
  cases flavor <;> first | rfl | cases h

end Flavor

namespace Arena

variable (a : Arena)

/-- The edges of a block: to its successors, and from the statements that it contains. -/
def blockEdges (x : NodeId) : List LabelledEdge :=
  match a.block? x with
  | some n => n.successors.map (⟨.node x, .node ·, .cfg⟩) ++ n.statements.map (⟨.node ·, .node x, .within⟩)
  | none => []

/-- The edges between nodes: those of a function to its arguments and its body and those of its blocks,
those of a statement to what is below it and to what it reads. -/
def linkEdges (x : NodeId) : List LabelledEdge :=
  match a.get? x with
  | some (.function n) =>
      n.args.map (⟨.node x, .node ·, .ast⟩) ++ [⟨.node x, .node n.entry, .ast⟩] ++
        n.blocks.flatMap a.blockEdges
  | some (.stmt n) => n.children.map (⟨.node x, .node ·, .ast⟩) ++ n.references.map (⟨.node x, .node ·, .data⟩)
  | _ => []

/-- Whether the tokens of an owner are wanted. -/
def ownsTokens : GraphKey → Bool
  | .node x => (a.get? x).any Node.isSyntax
  | .token _ => false

/-- The edges from a function, a statement or a declaration to its tokens. -/
def tokenEdges (x : NodeId) : List LabelledEdge :=
  if a.ownsTokens (.node x) then (a.tokensOf x).map fun t => ⟨.node x, .token t.index, .token⟩ else []

/-- All edges that a node stands for. -/
def edgesOf (x : NodeId) : List LabelledEdge := a.linkEdges x ++ a.tokenEdges x

/-- The nodes that a block calls for. -/
def calledByBlock (x : NodeId) : List NodeId :=
  match a.block? x with
  | some n => x :: n.successors ++ n.statements
  | none => []

/-- The nodes that the event of a node calls for. -/
def called (flavor : Flavor) (x : NodeId) : List NodeId :=
  match a.get? x with
  | some (.function n) =>
      x :: n.args ++ [n.entry] ++ if flavor.includes .cfg then n.blocks.flatMap a.calledByBlock else []
  | some (.stmt n) => x :: n.children ++ if flavor.includes .data then n.references else []
  | _ => []

/-- The keys that an event calls for. -/
def keys (flavor : Flavor) : WalkEvent → List GraphKey
  | .node x => (a.called flavor x).map .node
  | .token t =>
      if flavor.includes .token && a.ownsTokens (.node t.owner) then [.token t.token.index] else []

variable {a} {flavor : Flavor} {x : NodeId}

theorem ownsTokens_iff : a.ownsTokens (.node x) = true ↔ ∃ n, a.get? x = some n ∧ n.isSyntax = true :=
  Option.any_eq_true ..

/-- Edges between nodes end at nodes. -/
theorem ends_of_linkEdges {e : LabelledEdge} (he : e ∈ a.linkEdges x) :
    ∃ y z, e.source = .node y ∧ e.target = .node z := by
  unfold linkEdges at he
  split at he
  · simp only [List.mem_append, List.mem_map, List.mem_flatMap, List.mem_singleton] at he
    rcases he with (⟨y, _, rfl⟩ | rfl) | ⟨b, _, he⟩
    · exact ⟨_, _, rfl, rfl⟩
    · exact ⟨_, _, rfl, rfl⟩
    · unfold blockEdges at he
      split at he
      · simp only [List.mem_append, List.mem_map] at he
        rcases he with ⟨y, _, rfl⟩ | ⟨y, _, rfl⟩ <;> exact ⟨_, _, rfl, rfl⟩
      · cases he
  · simp only [List.mem_append, List.mem_map] at he
    rcases he with ⟨y, _, rfl⟩ | ⟨y, _, rfl⟩ <;> exact ⟨_, _, rfl, rfl⟩
  · cases he

section Kinds

/-- Edges whose kinds are all of the flavor or all not are kept or dropped together. -/
theorem filter_kinds {es : List LabelledEdge} {b : Bool} (h : ∀ e ∈ es, flavor.includes e.kind = b) :
    (es.filter fun e => flavor.includes e.kind) = if b then es else [] := by
  cases b with
  | true => simpa using h
  | false => simpa using h

theorem filter_edges (k : EdgeKind) (ys : List NodeId) :
    ((ys.map fun y => (⟨.node x, .node y, k⟩ : LabelledEdge)).filter fun e => flavor.includes e.kind) =
      if flavor.includes k then ys.map fun y => ⟨.node x, .node y, k⟩ else [] := by
  refine filter_kinds fun e he => ?_
  obtain ⟨y, _, rfl⟩ := List.mem_map.mp he
  rfl

theorem filter_tokenEdges : ((a.tokenEdges x).filter fun e => flavor.includes e.kind) =
    if flavor.includes .token then a.tokenEdges x else [] := by
  refine filter_kinds fun e he => ?_
  unfold tokenEdges at he
  split at he
  · obtain ⟨t, _, rfl⟩ := List.mem_map.mp he
    rfl
  · cases he

theorem filter_blockEdges (bs : List NodeId) :
    ((bs.flatMap a.blockEdges).filter fun e => flavor.includes e.kind) =
      if flavor.includes .cfg then bs.flatMap a.blockEdges else [] := by
  refine filter_kinds fun e he => ?_
  obtain ⟨b, _, he⟩ := List.mem_flatMap.mp he
  unfold blockEdges at he
  split at he
  · rcases List.mem_append.mp he with he | he
    · obtain ⟨y, _, rfl⟩ := List.mem_map.mp he
      rfl
    · obtain ⟨y, _, rfl⟩ := List.mem_map.mp he
      exact flavor.includes_within
  · cases he

end Kinds

section Nodes

open Contribution

variable (owned : GraphKey → Bool)

/-- Of nodes that come with an edge each, the nodes. -/
theorem wantedNodes_pairs (f : NodeId → LabelledNode) (g : NodeId → LabelledEdge) (ys : List NodeId) :
    (ys.flatMap fun y => [.mention (f y), .connect (g y)]).filterMap (wantedNode? owned) = ys.map f := by
  induction ys with
  | nil => rfl
  | cons y ys ih => simpa using ih

/-- Of nodes that come with an edge each, the edges. -/
theorem wantedEdges_pairs (f : NodeId → LabelledNode) (g : NodeId → LabelledEdge) (ys : List NodeId) :
    (ys.flatMap fun y => [.mention (f y), .connect (g y)]).filterMap (wantedEdge? owned) = ys.map g := by
  induction ys with
  | nil => rfl
  | cons y ys ih => simpa using ih

theorem wantedNodes_block (x : NodeId) :
    ((a.blockContributions x).filterMap (wantedNode? owned)).map (·.key) = (a.calledByBlock x).map .node := by
  unfold blockContributions calledByBlock
  cases a.block? x with
  | none => rfl
  | some n => simp [mentionOf, edge, wantedNodes_pairs, Function.comp_def]

theorem wantedEdges_block (x : NodeId) :
    (a.blockContributions x).filterMap (wantedEdge? owned) = a.blockEdges x := by
  unfold blockContributions blockEdges
  cases a.block? x with
  | none => rfl
  | some n => simp [mentionOf, edge, wantedEdges_pairs]

theorem wantedNodes_node (x : NodeId) :
    ((a.contributions flavor (.node x)).filterMap (wantedNode? owned)).map (·.key) =
      (a.called flavor x).map .node := by
  simp only [contributions, called]
  cases a.get? x with
  | none => rfl
  | some n =>
      cases n with
      | function n =>
          have hBlocks : ((n.blocks.flatMap a.blockContributions).filterMap (wantedNode? owned)).map (·.key) =
              (n.blocks.flatMap a.calledByBlock).map .node := by
            rw [List.filterMap_flatMap, List.map_flatMap, List.map_flatMap]
            simp only [wantedNodes_block]
          cases hCfg : flavor.includes .cfg <;>
            simp [functionContributions, mentionOf, edge, wantedNodes_pairs, hCfg, hBlocks]
      | stmt n =>
          cases hData : flavor.includes .data <;>
            simp [stmtContributions, mentionOf, edge, wantedNodes_pairs, hData, Function.comp_def]
      | _ => rfl

/-- The event of a node calls for the edges between nodes that the flavor has. -/
theorem wantedEdges_node (x : NodeId) : (a.contributions flavor (.node x)).filterMap (wantedEdge? owned) =
    (a.linkEdges x).filter fun e => flavor.includes e.kind := by
  simp only [contributions, linkEdges]
  cases a.get? x with
  | none => rfl
  | some n =>
      cases n with
      | function n =>
          have hBlocks : (n.blocks.flatMap a.blockContributions).filterMap (wantedEdge? owned) =
              n.blocks.flatMap a.blockEdges := by
            rw [List.filterMap_flatMap]
            simp only [wantedEdges_block]
          simp only [List.filter_append, filter_edges, filter_blockEdges]
          cases hCfg : flavor.includes .cfg <;>
            simp [functionContributions, mentionOf, edge, wantedEdges_pairs, hCfg, hBlocks,
              flavor.includes_ast]
      | stmt n =>
          simp only [List.filter_append, filter_edges]
          cases hData : flavor.includes .data <;>
            simp [stmtContributions, mentionOf, edge, wantedEdges_pairs, hData, flavor.includes_ast]
      | _ => rfl

/-- The event of a node brings no tokens. -/
theorem own_not_mem (x : NodeId) (owner : GraphKey) (token : LabelledNode) :
    .own owner token ∉ a.contributions flavor (.node x) := by
  have hBlock : ∀ b, .own owner token ∉ a.blockContributions b := by
    intro b
    unfold blockContributions
    split <;> simp [mentionOf, edge]
  simp only [contributions]
  split
  · simp [functionContributions, mentionOf, edge, hBlock]
  · simp [stmtContributions, mentionOf, edge]
  · exact List.not_mem_nil

theorem wantedNodes_token (t : OwnedToken) :
    (a.contributions flavor (.token t)).filterMap (wantedNode? owned) =
      if flavor.includes .token && owned (.node t.owner) then
        [⟨.token t.token.index, t.token.name, some t.token.index⟩]
      else [] := by
  cases hToken : flavor.includes .token <;> cases hOwned : owned (.node t.owner) <;>
    simp [contributions, wantedNode?, hToken, hOwned]

theorem wantedKeys (v : WalkEvent) :
    ((a.contributions flavor v).filterMap (wantedNode? a.ownsTokens)).map (·.key) = a.keys flavor v := by
  cases v with
  | node x => exact wantedNodes_node a.ownsTokens x
  | token t =>
      rw [wantedNodes_token, keys]
      split <;> rfl

/-- The keys of the nodes that a list of events calls for. -/
theorem mem_wanted_iff {events : List WalkEvent} {k : GraphKey} :
    (∃ n ∈ (events.flatMap (a.contributions flavor)).filterMap (wantedNode? a.ownsTokens), n.key = k) ↔
      ∃ v ∈ events, k ∈ a.keys flavor v := by
  rw [← List.mem_flatMap, ← List.mem_map, List.filterMap_flatMap, List.map_flatMap]
  simp only [wantedKeys]

theorem wantedEdges_token (t : OwnedToken) :
    (a.contributions flavor (.token t)).filterMap (wantedEdge? owned) =
      if flavor.includes .token && owned (.node t.owner) then
        [⟨.node t.owner, .token t.token.index, .token⟩]
      else [] := by
  cases hToken : flavor.includes .token <;> cases hOwned : owned (.node t.owner) <;>
    simp [contributions, wantedEdge?, hToken, hOwned]

/-- The event of a node and those of its tokens call for the edges of the node that the flavor has. -/
theorem wantedEdges_eq (x : NodeId) :
    (a.contributions flavor (.node x)).filterMap (wantedEdge? a.ownsTokens) ++
        ((a.tokensOf x).flatMap fun t =>
          (a.contributions flavor (.token ⟨x, t⟩)).filterMap (wantedEdge? a.ownsTokens)) =
      (a.edgesOf x).filter fun e => flavor.includes e.kind := by
  rw [edgesOf, List.filter_append, wantedEdges_node, filter_tokenEdges, tokenEdges]
  simp only [wantedEdges_token]
  cases flavor.includes .token <;> cases a.ownsTokens (.node x) <;> simp [List.map_eq_flatMap]

end Nodes

end Arena

end UnitGraph
