import Mathlib.Logic.Relation
import UnitGraph.Proofs.Graph.Walk
import UnitGraph.Proofs.Traversal.Reach

/-!
# A walk is a depth-first exploration

Main statement: whatever cycles and shared nodes an arena has, a walk ends and presents what can be reached from
its roots, each node once and right before its tokens. It is depth first: between one link of a node and the
next it presents what can be reached from the first along nodes that it has not presented before.
-/
namespace UnitGraph

open Traversal

namespace Arena

/-- Every link leads to a node of the arena. -/
def LinksInRange (a : Arena) : Prop := ∀ n ∈ a.nodes, ∀ y ∈ n.links, y.index < a.size

instance (a : Arena) : Decidable a.LinksInRange :=
  inferInstanceAs (Decidable (∀ n ∈ a.nodes, ∀ y ∈ n.links, y.index < a.size))

/-- The links of nodes, field by field. -/
inductive Leads (a : Arena) (x y : NodeId) : Prop
  | arg {n : FunctionNode} : a.get? x = some (.function n) → y ∈ n.args → Leads a x y
  | entry {n : FunctionNode} : a.get? x = some (.function n) → y = n.entry → Leads a x y
  | block {n : FunctionNode} : a.get? x = some (.function n) → y ∈ n.blocks → Leads a x y
  | typeRecord {n : DeclNode} : a.get? x = some (.decl n) → n.record = some y → Leads a x y
  | typeTypedef {n : DeclNode} : a.get? x = some (.decl n) → n.typedef = some y → Leads a x y
  | child {n : StmtNode} : a.get? x = some (.stmt n) → y ∈ n.children → Leads a x y
  | reference {n : StmtNode} : a.get? x = some (.stmt n) → y ∈ n.references → Leads a x y
  | fieldRecord {n : RecordNode} : a.get? x = some (.record n) → y ∈ n.records → Leads a x y
  | fieldEnum {n : RecordNode} : a.get? x = some (.record n) → y ∈ n.enums → Leads a x y
  | fieldTypedef {n : RecordNode} : a.get? x = some (.record n) → y ∈ n.typedefs → Leads a x y
  | statement {n : BlockNode} : a.get? x = some (.block n) → y ∈ n.statements → Leads a x y
  | successor {n : BlockNode} : a.get? x = some (.block n) → y ∈ n.successors → Leads a x y

/-- The second node can be reached from the first along nodes outside a list. -/
def ReachesOutside (a : Arena) (seen : List NodeId) (x y : NodeId) : Prop :=
  x ∉ seen ∧ Relation.ReflTransGen (fun y z => a.Leads y z ∧ z ∉ seen) x y

/-- The nodes that some events present, in order. -/
def presented (events : List WalkEvent) : List NodeId :=
  events.filterMap fun | .node x => some x | .token _ => none

/-- The events of taking up some nodes one after the other, given the nodes presented before. A node that was
presented before is passed over; any other is presented with its tokens, then its links are taken up in order.
When the next node is taken up, all has been presented that could be reached from this one along nodes not
presented before. Nothing bounds the depth, so what has such events is a search that ends. -/
inductive DepthFirst (a : Arena) : List NodeId → List NodeId → List WalkEvent → Prop
  | done {seen : List NodeId} : DepthFirst a seen [] []
  | again {seen rest : List NodeId} {x : NodeId} {later : List WalkEvent} :
      x ∈ seen → DepthFirst a seen rest later → DepthFirst a seen (x :: rest) later
  | enter {seen rest : List NodeId} {x : NodeId} {n : Node} {below later : List WalkEvent} :
      x ∉ seen → a.get? x = some n → DepthFirst a (x :: seen) n.links below →
      (∀ y, y ∈ x :: presented below ↔ a.ReachesOutside seen x y) →
      DepthFirst a ((presented below).reverse ++ x :: seen) rest later →
      DepthFirst a seen (x :: rest) (.node x :: n.tokens.map (fun t => .token ⟨x, t⟩) ++ below ++ later)

/-- The events of a walk from some roots: each node that they lead to, once and with its tokens right behind it,
in depth-first order. -/
structure Explores (a : Arena) (roots : List NodeId) (events : List WalkEvent) : Prop where
  reached : ∀ x, .node x ∈ events ↔ ∃ root ∈ roots, Relation.ReflTransGen a.Leads root x
  once : (presented events).Nodup
  tokens : events = (presented events).flatMap fun x =>
    .node x :: (a.tokensOf x).map fun t => .token ⟨x, t⟩
  linked : ∀ before x after, events = before ++ .node x :: after →
    x ∈ roots ∨ ∃ y, .node y ∈ before ∧ a.Leads y x
  depthFirst : a.DepthFirst [] roots events

variable {a : Arena} {x y : NodeId} {seen roots : List NodeId}

theorem leads_iff : a.Leads x y ↔ a.Links x y := by
  constructor
  · intro h
    cases h with
    | entry hn hy => exact ⟨_, hn, by simp [Node.links, hy]⟩
    | typeRecord hn hy | typeTypedef hn hy => exact ⟨_, hn, by simp [Node.links, hy]⟩
    | _ hn hy => exact ⟨_, hn, by simp [Node.links, hy]⟩
  · rintro ⟨n, hn, hy⟩
    cases n with
    | function n =>
        simp only [Node.links, List.mem_append, List.mem_singleton] at hy
        obtain (hArg | hEntry) | hBlock := hy
        · exact .arg hn hArg
        · exact .entry hn hEntry
        · exact .block hn hBlock
    | decl n =>
        simp only [Node.links, List.mem_append, Option.mem_toList] at hy
        obtain hRecord | hTypedef := hy
        · exact .typeRecord hn hRecord
        · exact .typeTypedef hn hTypedef
    | stmt n =>
        obtain hChild | hReference := List.mem_append.mp hy
        · exact .child hn hChild
        · exact .reference hn hReference
    | record n =>
        simp only [Node.links, List.mem_append] at hy
        obtain (hRecord | hEnum) | hTypedef := hy
        · exact .fieldRecord hn hRecord
        · exact .fieldEnum hn hEnum
        · exact .fieldTypedef hn hTypedef
    | block n =>
        obtain hStatement | hSuccessor := List.mem_append.mp hy
        · exact .statement hn hStatement
        · exact .successor hn hSuccessor
    | enum n => cases hy
    | typedef n => cases hy

theorem links_eq_leads (a : Arena) : a.Links = a.Leads := by
  funext x y
  exact propext leads_iff.symm

theorem mem_requested_walkAgenda_iff : y ∈ requested (a.walkAgenda x) ↔ a.Leads x y :=
  requested_walkAgenda.trans leads_iff.symm

theorem reachesOutside_walkAgenda :
    Traversal.ReachesOutside a.walkAgenda seen x y ↔ a.ReachesOutside seen x y := by
  simp only [Traversal.ReachesOutside, ReachesOutside, mem_requested_walkAgenda_iff]

/-- No link leads out of the arena. -/
theorem LinksInRange.closed (h : a.LinksInRange) : Closed a.walkAgenda a.ids := by
  intro x _ y hy
  obtain ⟨n, hn, hLink⟩ := requested_walkAgenda.mp hy
  have hLt := h n (Array.mem_of_getElem? hn) y hLink
  exact mem_ids_iff.mpr ⟨_, Array.getElem?_eq_getElem hLt⟩

theorem presented_map_present (events : List (Event NodeId OwnedToken)) :
    presented (events.map CodeGraph.present) = entered events := by
  rw [presented, List.filterMap_map, entered]
  refine List.filterMap_congr fun v _ => ?_
  cases v <;> rfl

theorem presented_tokens_append (tokens : List OwnedToken) (events : List WalkEvent) :
    presented (tokens.map .token ++ events) = presented events := by
  simp [presented, List.filterMap_append, List.filterMap_map]

/-- The events of an agenda, apart from the tokens that it begins with, take up in order what it asks for. -/
theorem depthFirst_run (h : a.LinksInRange) {items : List (Item NodeId OwnedToken)} (hItems : MarksFirst items)
    (hr : ∀ x ∈ requested items, x ∈ a.ids) : ∃ events,
      (run a.walkAgenda a.ids seen items).map CodeGraph.present = (itemMarks items).map .token ++ events ∧
      a.DepthFirst seen (requested items) events := by
  have hc := h.closed
  refine run_induction hc (motive := fun seen items => MarksFirst items → ∃ events,
      (run a.walkAgenda a.ids seen items).map CodeGraph.present = (itemMarks items).map .token ++ events ∧
      a.DepthFirst seen (requested items) events)
    ?nil ?mark ?again ?enter seen items hr hItems
  case nil =>
      intro seen _
      exact ⟨[], rfl, .done⟩
  case mark =>
      intro seen t rest ih hItems
      obtain ⟨events, hEvents, hDepth⟩ := ih hItems.of_cons_mark
      refine ⟨events, ?_, hDepth⟩
      rw [run_mark, List.map_cons, hEvents]
      rfl
  case again =>
      intro seen x rest hx ih hItems
      obtain ⟨events, hEvents, hDepth⟩ := ih hItems.of_cons_visit
      refine ⟨events, ?_, .again hx hDepth⟩
      rw [run_visit_seen _ _ hx, hEvents]
      rfl
  case enter =>
      intro seen x rest hPool hx ihBody ihRest hItems
      obtain ⟨below, hBelow, hDepthBelow⟩ := ihBody (a.marksFirst_walkAgenda x)
      obtain ⟨later, hLater, hDepthLater⟩ := ihRest hItems.of_cons_visit
      obtain ⟨n, hn⟩ := mem_ids_iff.mp hPool
      have hPresented : presented below = entered (run a.walkAgenda a.ids (x :: seen) (a.walkAgenda x)) := by
        rw [← presented_map_present, hBelow, presented_tokens_append]
      have hTokens : itemMarks (a.walkAgenda x) = n.tokens.map (⟨x, ·⟩) := by
        rw [itemMarks_walkAgenda, tokensOf, hn]
        rfl
      have hLinks : requested (a.walkAgenda x) = n.links := by simp [walkAgenda, hn]
      -- what the node reaches outside is what an agenda with this node alone enters
      have hWhite : ∀ y, y ∈ x :: presented below ↔ a.ReachesOutside seen x y := by
        intro y
        have hSingle : ∀ y ∈ requested [Item.visit (β := OwnedToken) x], y ∈ a.ids := by simpa using hPool
        have hReaches : y ∈ entered (run a.walkAgenda a.ids seen [.visit x]) ↔ _ :=
          mem_entered_iff_reaches hc hSingle
        rw [run_visit hc hPool hx, run_nil, List.append_nil, entered_cons_entered, ← hPresented] at hReaches
        simpa [reachesOutside_walkAgenda] using hReaches
      rw [hLinks] at hDepthBelow
      rw [← hPresented] at hDepthLater
      refine ⟨_, ?_, .enter hx hn hDepthBelow hWhite hDepthLater⟩
      rw [run_visit hc hPool hx, List.map_cons, List.map_append, hBelow, hLater, itemMarks_cons_visit,
        hItems.itemMarks_eq_nil, hTokens]
      simp [CodeGraph.present]

theorem presented_walk (a : Arena) (roots : List NodeId) : presented (a.walk roots) = a.order roots :=
  presented_map_present _

theorem node_mem_iff {events : List WalkEvent} : .node x ∈ events ↔ x ∈ presented events := by
  rw [presented, List.mem_filterMap]
  constructor
  · intro h
    exact ⟨_, h, rfl⟩
  · rintro ⟨_ | _, hEvent, hEq⟩ <;> cases hEq
    exact hEvent

/-- A node is presented at a root or after a node that links to it. -/
theorem linked_of_walk (hc : Closed a.walkAgenda a.ids) (hr : ∀ x ∈ roots, x ∈ a.ids)
    {before after : List WalkEvent} (hWalk : a.walk roots = before ++ .node x :: after) :
    x ∈ roots ∨ ∃ y, .node y ∈ before ∧ a.Leads y x := by
  obtain hRoot | ⟨y, hy, hLine⟩ := asked_before (v := .entered x) hc hr hWalk
  · have hRoot := mem_requested_iff.mpr hRoot
    rw [requested_visits] at hRoot
    exact .inl hRoot
  · exact .inr ⟨y, hy, mem_requested_walkAgenda_iff.mp (mem_requested_iff.mpr hLine)⟩

theorem explores_walk (h : a.LinksInRange) (hRoots : ∀ x ∈ roots, x.index < a.size) :
    a.Explores roots (a.walk roots) := by
  have hr : ∀ x ∈ roots, x ∈ a.ids := fun x hx =>
    mem_ids_iff.mpr ⟨_, Array.getElem?_eq_getElem (hRoots x hx)⟩
  have hRequested : ∀ x ∈ requested (roots.map (Item.visit (β := OwnedToken))), x ∈ a.ids := by simpa using hr
  constructor
  case reached =>
    intro x
    rw [node_mem_iff, presented_walk, mem_order_iff h.closed hr, links_eq_leads]
  case once =>
    rw [presented_walk]
    exact (entered_run_nodup h.closed hRequested).1
  case tokens =>
    rw [presented_walk]
    exact walk_eq_flatMap h.closed hr
  case linked => exact fun before x after hWalk => linked_of_walk h.closed hr hWalk
  case depthFirst =>
    obtain ⟨events, hEvents, hDepth⟩ := depthFirst_run h (marksFirst_visits roots) hRequested
    rw [itemMarks_visits, List.map_nil, List.nil_append] at hEvents
    rw [requested_visits, ← hEvents] at hDepth
    exact hDepth

end Arena

namespace CodeGraph

/-- For every arena whose links stay in it, and all roots in it. -/
theorem walk_explores (g : CodeGraph) (hLinks : g.arena.LinksInRange)
    (hRoots : ∀ x ∈ g.functions ++ g.records, x.index < g.arena.size) :
    g.arena.Explores (g.functions ++ g.records) g.walk ∧
    ∀ root : NodeId, root.index < g.arena.size → g.arena.Explores [root] (g.arena.walk [root]) :=
  ⟨Arena.explores_walk hLinks hRoots, fun _ hRoot => Arena.explores_walk hLinks (by simpa using hRoot)⟩

/-- A statement that is its own child, a block that follows itself, and two records that refer to each other. -/
def tangled : CodeGraph where
  arena := ⟨#[
    .function ⟨"f", "int (struct s *)", [⟨0, "f", "identifier", 0⟩], [⟨1⟩], ⟨2⟩, [⟨3⟩]⟩,
    .decl ⟨"p", "struct s *", "ParmVar", [⟨1, "p", "identifier", 1⟩], none, some ⟨4⟩, none⟩,
    .stmt ⟨"CompoundStmt", [], [⟨2⟩, ⟨1⟩], [⟨1⟩]⟩,
    .block ⟨"B0", [⟨2⟩], [⟨3⟩]⟩,
    .record ⟨"s", false, [], [⟨5⟩], [], []⟩,
    .record ⟨"t", false, [], [⟨4⟩], [], []⟩]⟩
  functions := [⟨0⟩]
  records := [⟨5⟩, ⟨4⟩]
  diagnostics := []

theorem walk_explores_tangled : tangled.arena.LinksInRange ∧
    (∀ x ∈ tangled.functions ++ tangled.records, x.index < tangled.arena.size) ∧
    tangled.arena.Explores (tangled.functions ++ tangled.records) tangled.walk ∧
    tangled.arena.Explores [⟨3⟩] (tangled.arena.walk [⟨3⟩]) := by
  have hLinks : tangled.arena.LinksInRange := by decide
  have hRoots : ∀ x ∈ tangled.functions ++ tangled.records, x.index < tangled.arena.size := by decide
  obtain ⟨hWalk, hFrom⟩ := walk_explores tangled hLinks hRoots
  exact ⟨hLinks, hRoots, hWalk, hFrom ⟨3⟩ (by decide)⟩

end CodeGraph

end UnitGraph
