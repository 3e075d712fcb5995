import UnitGraph.Proofs.Extraction.Identities
import UnitGraph.Proofs.Graph.Walk
import UnitGraph.Proofs.Traversal.Detours
import UnitGraph.Proofs.Traversal.Renaming

/-!
# Graphs that show up in others

A code graph shows up in another under new identities, if that one has the same nodes in the same order and blocks
besides. Main statements: if the blocks of a function lead to nothing but themselves and what is below its body,
then a walk presents the other nodes as if functions had no blocks; and a walk of a graph that shows up in another
without blocks is a walk of that one.
-/
namespace UnitGraph

open Traversal

namespace Node

def isBlock : Node → Bool
  | .block _ => true
  | .decl _ | .stmt _ | .record _ | .enum _ | .typedef _ | .function _ => false

/-- Neither a function nor a block. -/
def isPlain : Node → Bool
  | .function _ | .block _ => false
  | .decl _ | .stmt _ | .record _ | .enum _ | .typedef _ => true

/-- The node without the list of its blocks, if it is a function. -/
def withoutBlocks : Node → Node
  | .function n => .function { n with blocks := [] }
  | .decl n => .decl n
  | .stmt n => .stmt n
  | .record n => .record n
  | .enum n => .enum n
  | .typedef n => .typedef n
  | .block n => .block n

theorem withoutBlocks_of_isPlain {n : Node} (h : n.isPlain = true) : n.withoutBlocks = n := by
  cases n with
  | function n => cases h
  | _ => rfl

theorem isPlain_of_isDefinition {n : Node} (h : n.isDefinition = true) : n.isPlain = true := by
  cases n <;> first | rfl | cases h

@[simp] theorem tokens_mapIds (ρ : NodeId → NodeId) (n : Node) : (n.mapIds ρ).tokens = n.tokens := by
  cases n <;> rfl

@[simp] theorem links_mapIds (ρ : NodeId → NodeId) (n : Node) : (n.mapIds ρ).links = n.links.map ρ := by
  cases n with
  | decl n => cases hr : n.record <;> cases ht : n.typedef <;> simp [mapIds, links, hr, ht]
  | _ => simp [mapIds, links]

end Node

/-- The nodes of one code graph are those of another that are no blocks, in the same order: the map of identities
is strictly increasing, corresponding nodes are equal apart from the blocks of functions, and the functions and
records of the top level correspond. -/
structure CodeGraph.Embeds (ρ : NodeId → NodeId) (g g' : CodeGraph) : Prop where
  strictMono : ∀ x y, x.index < y.index → (ρ x).index < (ρ y).index
  nodes : ∀ x, (g'.arena.get? (ρ x)).map Node.withoutBlocks = (g.arena.get? x).map (Node.mapIds ρ)
  range : ∀ y, (∃ n, g'.arena.get? y = some n ∧ n.isBlock = false) ↔ ∃ x ∈ g.arena.ids, ρ x = y
  functions : g'.functions = g.functions.map ρ
  records : g'.records = g.records.map ρ

theorem CodeGraph.Embeds.injective {ρ : NodeId → NodeId} {g g' : CodeGraph} (h : Embeds ρ g g') :
    Function.Injective ρ := by
  intro x y hEq
  rcases Nat.lt_trichotomy x.index y.index with hlt | hIndex | hlt
  · exact absurd (congrArg NodeId.index hEq) (Nat.ne_of_lt (h.strictMono x y hlt))
  · cases x
    cases y
    exact congrArg NodeId.mk hIndex
  · exact absurd (congrArg NodeId.index hEq).symm (Nat.ne_of_lt (h.strictMono y x hlt))

namespace Arena

/-- The arena with no blocks listed by its functions. -/
def withoutBlocks (a : Arena) : Arena := ⟨a.nodes.map Node.withoutBlocks⟩

/-- The node is there, and it is neither a function nor a block. -/
def Plain (a : Arena) (x : NodeId) : Prop := ∃ n, a.get? x = some n ∧ n.isPlain = true

/-- The blocks of a function lead to one another and to statements below its body. -/
structure FlowBelow (a : Arena) : Prop where
  successors {x b : NodeId} {n : FunctionNode} {m : BlockNode} : a.get? x = some (.function n) → b ∈ n.blocks →
    a.get? b = some (.block m) → ∀ y ∈ m.successors, y ∈ n.blocks
  statements {x b : NodeId} {n : FunctionNode} {m : BlockNode} : a.get? x = some (.function n) → b ∈ n.blocks →
    a.get? b = some (.block m) → ∀ y ∈ m.statements, Relation.ReflTransGen a.Links n.entry y

variable {a : Arena} {x y : NodeId} {seen seen' : List NodeId}

@[simp] theorem get?_withoutBlocks (a : Arena) (x : NodeId) :
    a.withoutBlocks.get? x = (a.get? x).map Node.withoutBlocks := Array.getElem?_map

@[simp] theorem ids_withoutBlocks (a : Arena) : a.withoutBlocks.ids = a.ids := by
  simp [ids, size, withoutBlocks]

theorem block?_eq_none_iff : a.block? x = none ↔ ∀ n, a.get? x = some n → n.isBlock = false := by
  unfold block?
  cases a.get? x with
  | none => exact ⟨fun _ => nofun, fun _ => rfl⟩
  | some n => cases n <;> simp [Node.asBlock?, Node.isBlock]

theorem Plain.mem_ids (h : a.Plain x) : x ∈ a.ids := by
  obtain ⟨n, hn, -⟩ := h
  exact mem_ids_iff.mpr ⟨n, hn⟩

theorem Plain.block? (h : a.Plain x) : a.block? x = none := by
  obtain ⟨n, hn, hPlain⟩ := h
  refine block?_eq_none_iff.mpr fun m hm => ?_
  cases hn.symm.trans hm
  cases n <;> first | rfl | cases hPlain

theorem block?_of_function {n : FunctionNode} (hn : a.get? x = some (.function n)) : a.block? x = none := by
  rw [Arena.block?, hn]
  rfl

/-- Links from a plain node lead to plain nodes. -/
theorem Typed.plain (h : a.Typed) (hx : a.Plain x) (hLink : a.Links x y) : a.Plain y := by
  obtain ⟨n, hn, hPlain⟩ := hx
  obtain ⟨n', hn', hy⟩ := hLink
  cases hn.symm.trans hn'
  cases n with
  | decl n =>
      obtain ⟨m, hm, hDefinition⟩ := h.types hn y hy
      exact ⟨m, hm, Node.isPlain_of_isDefinition hDefinition⟩
  | record n =>
      obtain ⟨m, hm, hDefinition⟩ := h.fields hn y hy
      exact ⟨m, hm, Node.isPlain_of_isDefinition hDefinition⟩
  | stmt n =>
      rcases List.mem_append.mp hy with hy | hy
      · rcases h.children hn y hy with ⟨s, hs⟩ | ⟨d, hd⟩
        · exact ⟨_, hs, rfl⟩
        · exact ⟨_, hd, rfl⟩
      · obtain ⟨d, hd⟩ := h.references hn y hy
        exact ⟨_, hd, rfl⟩
  | enum n => cases hy
  | typedef n => cases hy
  | function n => cases hPlain
  | block n => cases hPlain

theorem Typed.plain_of_requested (h : a.Typed) (x : NodeId) (hx : a.Plain x) :
    ∀ y ∈ requested (a.walkAgenda x), a.Plain y :=
  fun _ hy => h.plain hx (requested_walkAgenda.mp hy)

theorem walkAgenda_withoutBlocks (hx : a.Plain x) : a.withoutBlocks.walkAgenda x = a.walkAgenda x := by
  obtain ⟨n, hn, hPlain⟩ := hx
  rw [walkAgenda, walkAgenda, get?_withoutBlocks, hn, Option.map_some, Node.withoutBlocks_of_isPlain hPlain]

theorem closed_withoutBlocks (h : a.Typed) : Closed a.withoutBlocks.walkAgenda a.withoutBlocks.ids := by
  intro x hx y hy
  rw [ids_withoutBlocks] at hx ⊢
  refine h.closed x hx y (requested_walkAgenda.mpr ?_)
  obtain ⟨n, hn, hy⟩ := requested_walkAgenda.mp hy
  rw [get?_withoutBlocks] at hn
  obtain ⟨m, hm, rfl⟩ := Option.map_eq_some_iff.mp hn
  refine ⟨m, hm, ?_⟩
  cases m with
  | function m =>
      rw [Node.withoutBlocks, Node.links, List.append_nil] at hy
      exact List.mem_append_left _ hy
  | _ => exact hy

/-- Whether an event presents a node that is no block. -/
def presentsNode (a : Arena) : Event NodeId OwnedToken → Bool
  | .entered x => (a.block? x).isNone
  | .marked _ => false

theorem presentsNode_entered (hx : a.block? x = none) : a.presentsNode (.entered x) = true := by
  rw [presentsNode, hx]
  rfl

section Function
variable {n : FunctionNode}

/-- What a walk does at a function before it comes to the blocks. -/
def bodyAgenda (x : NodeId) (n : FunctionNode) : List (Item NodeId OwnedToken) :=
  n.tokens.map (fun t => .mark ⟨x, t⟩) ++ (n.args ++ [n.entry]).map .visit

theorem walkAgenda_function (hn : a.get? x = some (.function n)) :
    a.walkAgenda x = bodyAgenda x n ++ n.blocks.map .visit := by
  rw [walkAgenda, hn, bodyAgenda, List.append_assoc, ← List.map_append]
  rfl

theorem walkAgenda_withoutBlocks_function (hn : a.get? x = some (.function n)) :
    a.withoutBlocks.walkAgenda x = bodyAgenda x n := by
  have hn' : a.withoutBlocks.get? x = some (.function { n with blocks := [] }) := by
    rw [get?_withoutBlocks, hn]
    rfl
  rw [walkAgenda_function hn', List.map_nil, List.append_nil]
  rfl

theorem requested_bodyAgenda (x : NodeId) (n : FunctionNode) :
    requested (bodyAgenda x n) = n.args ++ [n.entry] := by
  rw [bodyAgenda, requested_append, requested_visits, requested_map_mark, List.nil_append]

theorem Typed.plain_of_bodyAgenda (h : a.Typed) (hn : a.get? x = some (.function n)) :
    ∀ y ∈ requested (bodyAgenda x n), a.Plain y := by
  intro y hy
  rw [requested_bodyAgenda, List.mem_append] at hy
  rcases hy with hy | hy
  · obtain ⟨d, hd⟩ := h.args hn y hy
    exact ⟨_, hd, rfl⟩
  · cases List.mem_singleton.mp hy
    obtain ⟨s, hs⟩ := h.entry hn
    exact ⟨_, hs, rfl⟩

/-- Once what is below the body has been presented, the blocks of a function lead to themselves alone. -/
theorem FlowBelow.entered_blocks (hFlow : a.FlowBelow) (h : a.Typed) (hn : a.get? x = some (.function n))
    (hSat : Saturated a.walkAgenda a.Plain seen) (hEntry : n.entry ∈ seen) :
    ∀ y ∈ entered (run a.walkAgenda a.ids seen (n.blocks.map .visit)), y ∈ n.blocks := by
  have hPool : ∀ y ∈ requested (n.blocks.map (Item.visit (β := OwnedToken))), y ∈ a.ids := by
    intro y hy
    rw [requested_visits] at hy
    obtain ⟨b, hb⟩ := h.blocks hn y hy
    exact mem_ids_iff.mpr ⟨_, hb⟩
  refine hSat.forall_entered h.closed h.plain_of_requested (O := (· ∈ n.blocks)) ?_ hPool (by simp)
  intro b hb y hy
  obtain ⟨m, hm⟩ := h.blocks hn b hb
  obtain ⟨m', hm', hy⟩ := requested_walkAgenda.mp hy
  cases hm.symm.trans hm'
  rcases List.mem_append.mp hy with hy | hy
  · right
    have hLeads : Relation.ReflTransGen (fun x y => y ∈ requested (a.walkAgenda x)) n.entry y :=
      (hFlow.statements hn hb hm y hy).lift id fun _ _ => requested_walkAgenda.mpr
    obtain ⟨s, hs⟩ := h.entry hn
    exact hSat.mem_of_leads h.plain_of_requested hLeads hEntry ⟨_, hs, rfl⟩
  · exact .inl (hFlow.successors hn hb hm y hy)

/-- Apart from the blocks, they present nothing. -/
theorem FlowBelow.filter_run_blocks (hFlow : a.FlowBelow) (h : a.Typed) (hn : a.get? x = some (.function n))
    (hSat : Saturated a.walkAgenda a.Plain seen) (hEntry : n.entry ∈ seen) :
    (run a.walkAgenda a.ids seen (n.blocks.map .visit)).filter a.presentsNode = [] := by
  have hBlocks := hFlow.entered_blocks h hn hSat hEntry
  refine List.filter_eq_nil_iff.mpr fun v hv => ?_
  cases v with
  | entered y =>
      obtain ⟨b, hb⟩ := h.blocks hn y (hBlocks y (mem_entered_iff.mpr hv))
      simp [presentsNode, Arena.block?, hb, Node.asBlock?]
  | marked t => exact nofun

end Function

section Walk

/-- Plain nodes are presented alike, whether functions list their blocks or not. -/
theorem Typed.run_withoutBlocks (h : a.Typed) {items : List (Item NodeId OwnedToken)}
    (hItems : ∀ y ∈ requested items, a.Plain y) (hSeen : SameOn (a.block? · = none) seen seen') :
    run a.walkAgenda a.ids seen' items = run a.withoutBlocks.walkAgenda a.withoutBlocks.ids seen items := by
  refine run_congr (P := a.Plain) (a.closed_withoutBlocks h) h.closed ?_ ?_ ?_ ?_ hItems fun y hy => hSeen y hy.block?
  · intro y hy z hz
    rw [walkAgenda_withoutBlocks hy] at hz
    exact h.plain_of_requested y hy z hz
  · exact fun y hy => (walkAgenda_withoutBlocks hy).symm
  · intro y hy
    rw [ids_withoutBlocks]
    exact (hItems y hy).mem_ids
  · exact fun y hy => (hItems y hy).mem_ids

/-- Where a walk comes to a function, only the blocks make a difference. -/
theorem Typed.filter_run_function (h : a.Typed) (hFlow : a.FlowBelow) {n : FunctionNode}
    (hn : a.get? x = some (.function n)) (hSat : Saturated a.walkAgenda a.Plain seen')
    (hSeen : SameOn (a.block? · = none) seen seen') :
    (run a.walkAgenda a.ids seen' [.visit x]).filter a.presentsNode =
      (run a.withoutBlocks.walkAgenda a.withoutBlocks.ids seen [.visit x]).filter a.presentsNode := by
  have hBlock := block?_of_function hn
  by_cases hx : x ∈ seen
  · rw [run_visit_seen _ _ hx, run_visit_seen _ _ ((hSeen x hBlock).mpr hx)]
    rfl
  · have hx' : x ∉ seen' := mt (hSeen x hBlock).mp hx
    have hMem : x ∈ a.ids := mem_ids_iff.mpr ⟨_, hn⟩
    have hPlain := h.plain_of_bodyAgenda hn
    have hNotPlain : ¬ a.Plain x := by
      rintro ⟨m, hm, hPlain⟩
      cases hn.symm.trans hm
      cases hPlain
    have hBody := h.run_withoutBlocks hPlain (hSeen.cons x)
    have hPool : ∀ y ∈ requested (bodyAgenda x n), y ∈ a.ids := fun y hy => (hPlain y hy).mem_ids
    have hEntry : n.entry ∈ (entered (run a.walkAgenda a.ids (x :: seen') (bodyAgenda x n))).reverse ++
        x :: seen' := by
      rw [List.mem_append, List.mem_reverse]
      exact (mem_entered_of_requested h.closed hPool n.entry (by simp [requested_bodyAgenda])).symm
    have hBlocks := hFlow.filter_run_blocks h hn ((hSat.cons hNotPlain).run h.closed hPool) hEntry
    rw [run_visit h.closed hMem hx', run_visit (a.closed_withoutBlocks h) (by rwa [ids_withoutBlocks]) hx,
      walkAgenda_function hn, walkAgenda_withoutBlocks_function hn, run_append, run_nil, run_nil, List.append_nil,
      List.append_nil, List.filter_cons, List.filter_cons, List.filter_append, hBlocks, List.append_nil, hBody]

/-- Without lists of blocks, nothing but a block leads to blocks. -/
theorem Typed.block?_of_requested (h : a.Typed) (x : NodeId) (hx : a.block? x = none) :
    ∀ y ∈ requested (a.withoutBlocks.walkAgenda x), a.block? y = none := by
  intro y hy
  obtain ⟨n', hn', -⟩ := requested_walkAgenda.mp hy
  rw [get?_withoutBlocks] at hn'
  obtain ⟨n, hn, -⟩ := Option.map_eq_some_iff.mp hn'
  cases n with
  | function n =>
      rw [walkAgenda_withoutBlocks_function hn] at hy
      exact (h.plain_of_bodyAgenda hn y hy).block?
  | block n => cases block?_eq_none_iff.mp hx _ hn
  | _ =>
      have hPlain : a.Plain x := ⟨_, hn, rfl⟩
      rw [walkAgenda_withoutBlocks hPlain] at hy
      exact (h.plain_of_requested x hPlain y hy).block?

/-- A walk presents the nodes that are no blocks as if functions had none. -/
theorem order_withoutBlocks (h : a.Typed) (hFlow : a.FlowBelow) {roots : List NodeId}
    (hr : ∀ x ∈ roots, a.Plain x ∨ ∃ n, a.get? x = some (.function n)) :
    a.withoutBlocks.order roots = (a.order roots).filter fun x => (a.block? x).isNone := by
  have hRoot : ∀ x ∈ roots, x ∈ a.ids ∧ a.block? x = none := by
    intro x hx
    rcases hr x hx with hPlain | ⟨n, hn⟩
    · exact ⟨hPlain.mem_ids, hPlain.block?⟩
    · exact ⟨mem_ids_iff.mpr ⟨_, hn⟩, block?_of_function hn⟩
  have hStep : ∀ x ∈ roots, ∀ seen seen', Saturated a.walkAgenda a.Plain seen' →
      SameOn (a.block? · = none) seen seen' →
      (run a.walkAgenda a.ids seen' [.visit x]).filter a.presentsNode =
        (run a.withoutBlocks.walkAgenda a.withoutBlocks.ids seen [.visit x]).filter a.presentsNode := by
    intro x hx seen seen' hSat hSeen
    rcases hr x hx with hPlain | ⟨n, hn⟩
    · rw [h.run_withoutBlocks (by simpa using hPlain) hSeen]
    · exact h.filter_run_function hFlow hn hSat hSeen
  have hRun := filter_run_flatMap (fun _ => presentsNode_entered) h.closed hStep
    (fun x hx => by simpa using (hRoot x hx).1) saturated_nil (.refl [])
  rw [← List.map_eq_flatMap] at hRun
  have hEntered := congrArg entered hRun
  rw [entered_filter, entered_filter] at hEntered
  refine Eq.trans (List.filter_eq_self.mpr ?_).symm hEntered.symm
  intro x hx
  refine presentsNode_entered ?_
  refine forall_entered_run (a.closed_withoutBlocks h) h.block?_of_requested ?_ ?_ x hx
  · intro y hy
    rw [requested_visits] at hy
    rw [ids_withoutBlocks]
    exact (hRoot y hy).1
  · intro y hy
    rw [requested_visits] at hy
    exact (hRoot y hy).2

end Walk

end Arena

namespace CodeGraph.Embeds

variable {ρ : NodeId → NodeId} {g g' : CodeGraph}

theorem roots (h : Embeds ρ g g') : g'.roots = g.roots.map ρ := by
  rw [CodeGraph.roots, CodeGraph.roots, h.functions, h.records, List.map_append]

theorem get?_withoutBlocks (h : Embeds ρ g g') (x : NodeId) :
    g'.arena.withoutBlocks.get? (ρ x) = (g.arena.get? x).map (Node.mapIds ρ) :=
  (Arena.get?_withoutBlocks ..).trans (h.nodes x)

theorem walkAgenda_withoutBlocks (h : Embeds ρ g g') (x : NodeId) : g'.arena.withoutBlocks.walkAgenda (ρ x) =
    (g.arena.walkAgenda x).map (Item.map ρ fun t => ⟨ρ t.owner, t.token⟩) := by
  rw [Arena.walkAgenda, Arena.walkAgenda, h.get?_withoutBlocks]
  cases g.arena.get? x with
  | none => rfl
  | some n =>
      simp only [Option.map_some, Node.tokens_mapIds, Node.links_mapIds, List.map_append, List.map_map]
      rfl

/-- A walk presents the nodes that are no blocks in the order of the graph that shows up. -/
theorem order (h : Embeds ρ g g') (hg : g.WellFormed) (hg' : g'.WellFormed) (hFlow : g'.arena.FlowBelow) :
    ((g'.arena.order g'.roots).filter fun x => (g'.arena.block? x).isNone) = (g.arena.order g.roots).map ρ := by
  have hRoots : ∀ x ∈ g'.roots, g'.arena.Plain x ∨ ∃ n, g'.arena.get? x = some (.function n) := by
    intro x hx
    rcases List.mem_append.mp hx with hx | hx
    · exact .inr (hg'.functions x hx)
    · obtain ⟨n, hn⟩ := hg'.records x hx
      exact .inl ⟨_, hn, rfl⟩
  have hRenames : Renames (fun _ => True) ρ (fun t => ⟨ρ t.owner, t.token⟩) g.arena.walkAgenda
      g'.arena.withoutBlocks.walkAgenda :=
    ⟨fun _ _ _ _ => trivial, fun _ _ _ _ hEq => h.injective hEq, fun x _ => h.walkAgenda_withoutBlocks x⟩
  have hPool : ∀ x ∈ requested (g.roots.map (Item.visit (β := OwnedToken))),
      ρ x ∈ g'.arena.withoutBlocks.ids := by
    intro x hx
    rw [requested_visits] at hx
    rw [Arena.ids_withoutBlocks]
    exact hg'.roots_mem_ids _ (h.roots ▸ List.mem_map_of_mem hx)
  have hRun : Traversal.traverse g'.arena.withoutBlocks.walkAgenda g'.arena.withoutBlocks.ids _ =
      (Traversal.traverse g.arena.walkAgenda g.arena.ids (g.roots.map .visit)).map _ :=
    hRenames.run_map hg.typed.closed (g'.arena.closed_withoutBlocks hg'.typed) hg.requested_pool hPool
      (fun _ _ => trivial) (by simp)
  rw [← Arena.order_withoutBlocks hg'.typed hFlow hRoots, h.roots, Arena.order, Arena.order, ← entered_map, ← hRun,
    List.map_map, List.map_map]
  rfl

end CodeGraph.Embeds

end UnitGraph
