import UnitGraph.Proofs.Graph.Exploration
import UnitGraph.Proofs.Labelled.Tokens

/-!
# Labels do not depend on the flavor

A node keeps the label of its first mention, and a declaration is mentioned as an argument only by the functions
that have it as one. The first of them does so before anything that it leads to is presented, so what matters is
what the functions before it lead to. Main statement: where no statement there declares or reads the parameter,
every node has the label that its kind and its place ask for, which is the same in all flavors.
-/
namespace UnitGraph

open Contribution Traversal

/-- If something in a list has a property, then something has it first. -/
theorem exists_first_mem {α : Type} {P : α → Prop} {l : List α} (h : ∃ a ∈ l, P a) :
    ∃ before a after, l = before ++ a :: after ∧ P a ∧ ∀ b ∈ before, ¬ P b := by
  classical
  obtain ⟨a, ha, hP⟩ := h
  have hSome : (l.find? fun a => P a).isSome := List.find?_isSome.mpr ⟨a, ha, decide_eq_true hP⟩
  obtain ⟨b, hFind⟩ := Option.isSome_iff_exists.mp hSome
  obtain ⟨hb, before, after, hSplit, hBefore⟩ := List.find?_eq_some_iff_append.mp hFind
  exact ⟨before, b, after, hSplit, of_decide_eq_true hb, by simpa using hBefore⟩

namespace Arena

/-- The label that a node is to have. -/
inductive HasLabel (a : Arena) : NodeId → String → Prop
  | function {x : NodeId} {n : FunctionNode} : a.get? x = some (.function n) → HasLabel a x "function"
  | stmt {x : NodeId} {n : StmtNode} : a.get? x = some (.stmt n) → HasLabel a x n.name
  | block {x : NodeId} {n : BlockNode} : a.get? x = some (.block n) → HasLabel a x "cfg"
  | argument {f x : NodeId} {n : FunctionNode} {d : DeclNode} : a.get? f = some (.function n) → x ∈ n.args →
      a.get? x = some (.decl d) → HasLabel a x ("argument:" ++ (TypeClass.ofSpelling d.type).name)
  | decl {x : NodeId} {d : DeclNode} : a.get? x = some (.decl d) →
      (∀ f n, a.get? f = some (.function n) → x ∉ n.args) → HasLabel a x (TypeClass.ofSpelling d.type).name

/-- The node is called for under the label of its kind. -/
def ByKind (a : Arena) (m : LabelledNode) : Prop := ∃ y, m = ⟨.node y, a.labelOf y, none⟩

variable {a : Arena} {flavor : Flavor} {owned : GraphKey → Bool} {x y : NodeId}

theorem HasLabel.unique {l l' : String} (h : a.HasLabel x l) (h' : a.HasLabel x l') : l = l' := by
  cases h <;> cases h' <;> grind

theorem argumentLabel_eq {d : DeclNode} (hd : a.get? x = some (.decl d)) :
    a.argumentLabel x = "argument:" ++ (TypeClass.ofSpelling d.type).name := by
  simp [argumentLabel, decl?, hd, Node.asDecl?]

/-- A node that is drawn and no argument has the label of its kind. -/
theorem hasLabel_labelOf (hNot : ∀ f n, a.get? f = some (.function n) → y ∉ n.args)
    (hDrawn : a.Drawn flavor (.node y)) : a.HasLabel y (a.labelOf y) := by
  cases hDrawn with
  | function hn => simpa [labelOf, hn, Node.kindName] using HasLabel.function hn
  | stmt hn => simpa [labelOf, hn] using HasLabel.stmt hn
  | arg hn hy => exact absurd hy (hNot _ _ hn)
  | child _ _ hd | reference _ _ _ hd => simpa [labelOf, hd] using HasLabel.decl hd hNot
  | block _ hn => simpa [labelOf, hn] using HasLabel.block hn

section Called

theorem Typed.not_links_function (h : a.Typed) {n : FunctionNode} (hn : a.get? y = some (.function n)) :
    ¬ a.Links x y := by
  intro hLink
  obtain ⟨m, hm, -, hNot⟩ := h.target hLink
  cases hn.symm.trans hm
  exact hNot n rfl

/-- A function is reached from itself only. -/
theorem Typed.eq_of_reaches_function (h : a.Typed) {n : FunctionNode} (hn : a.get? y = some (.function n))
    (hReach : Relation.ReflTransGen a.Links x y) : y = x := by
  rcases hReach.cases_tail with hEq | ⟨z, -, hLink⟩
  · exact hEq
  · exact absurd hLink (h.not_links_function hn)

/-- No block calls for a declaration. -/
theorem Typed.not_calledByBlock (h : a.Typed) {d : DeclNode} (hd : a.get? y = some (.decl d)) :
    y ∉ a.calledByBlock x := by
  intro hCalled
  unfold calledByBlock at hCalled
  split at hCalled
  · next n hBlock =>
      have hn := block?_eq_some_iff.mp hBlock
      rcases List.mem_append.mp hCalled with hCalled | hStatement
      · rcases List.mem_cons.mp hCalled with rfl | hSuccessor
        · cases hd.symm.trans hn
        · obtain ⟨b, hb⟩ := h.successors hn y hSuccessor
          cases hd.symm.trans hb
      · obtain ⟨s, hs⟩ := h.statements hn y hStatement
        cases hd.symm.trans hs
  · cases hCalled

/-- An event calls for a declaration only if its node mentions it. -/
theorem Typed.mentions_of_called (h : a.Typed) {d : DeclNode} (hd : a.get? y = some (.decl d))
    (hCalled : y ∈ a.called flavor x) : a.Mentions x y := by
  cases hn : a.get? x with
  | none => simp [called, hn] at hCalled
  | some n =>
      cases n with
      | function n =>
          rcases (mem_called_function hn).mp hCalled with rfl | hArg | rfl | ⟨_, b, _, hb⟩
          · cases hd.symm.trans hn
          · exact .arg hn hArg
          · obtain ⟨s, hs⟩ := h.entry hn
            cases hd.symm.trans hs
          · exact absurd hb (h.not_calledByBlock hd)
      | stmt n =>
          rcases (mem_called_stmt hn).mp hCalled with rfl | hChild | ⟨_, hReference⟩
          · cases hd.symm.trans hn
          · exact .child hn hChild
          · exact .reference hn hReference
      | _ => simp [called, hn] at hCalled

end Called

section Wanted

theorem byKind_of_pairs {ys : List NodeId} {g : NodeId → LabelledEdge} {m : LabelledNode}
    (hm : m ∈ (ys.flatMap fun y => [a.mentionOf y, .connect (g y)]).filterMap (wantedNode? owned)) :
    a.ByKind m := by
  simp only [mentionOf, wantedNodes_pairs, List.mem_map] at hm
  obtain ⟨y, -, rfl⟩ := hm
  exact ⟨y, rfl⟩

theorem byKind_of_block {m : LabelledNode} (hm : m ∈ (a.blockContributions x).filterMap (wantedNode? owned)) :
    a.ByKind m := by
  unfold blockContributions at hm
  split at hm
  · rw [List.filterMap_append, List.mem_append] at hm
    rcases hm with hm | hm
    · rcases List.mem_cons.mp hm with rfl | hm
      · exact ⟨x, rfl⟩
      · exact byKind_of_pairs hm
    · exact byKind_of_pairs hm
  · cases hm

variable (flavor owned) in
/-- The event of a function calls for the function, then for its arguments, then for nodes by their kinds. -/
theorem wantedNodes_function {n : FunctionNode} (hn : a.get? x = some (.function n)) :
    ∃ rest, (a.contributions flavor (.node x)).filterMap (wantedNode? owned) =
      ⟨.node x, "function", none⟩ :: n.args.map (fun y => ⟨.node y, a.argumentLabel y, none⟩) ++ rest ∧
      ∀ m ∈ rest, a.ByKind m := by
  refine ⟨([a.mentionOf n.entry, edge x n.entry .ast] ++
    (if flavor.includes .cfg then n.blocks.flatMap a.blockContributions else [])).filterMap
      (wantedNode? owned), ?_, ?_⟩
  · simp [contributions, functionContributions, hn, edge, wantedNodes_pairs]
  · intro m hm
    rcases List.mem_append.mp (List.filterMap_append ▸ hm) with hEntry | hBlock
    · cases List.mem_singleton.mp hEntry
      exact ⟨n.entry, rfl⟩
    · split at hBlock
      · rw [List.filterMap_flatMap] at hBlock
        obtain ⟨b, -, hm⟩ := List.mem_flatMap.mp hBlock
        exact byKind_of_block hm
      · cases hBlock

theorem find?_of_args {ys : List NodeId} (hy : y ∈ ys) :
    (ys.map fun z => (⟨.node z, a.argumentLabel z, none⟩ : LabelledNode)).find? (·.key = .node y) =
      some ⟨.node y, a.argumentLabel y, none⟩ := by
  have hSome : (ys.find? (· = y)).isSome := List.find?_isSome.mpr ⟨y, hy, decide_eq_true rfl⟩
  obtain ⟨z, hz⟩ := Option.isSome_iff_exists.mp hSome
  have hEq : z = y := by simpa using List.find?_some hz
  simp only [List.find?_map, Function.comp_def, GraphKey.node.injEq, hz, Option.map_some, hEq]

theorem byKind_of_stmt {n : StmtNode} (hn : a.get? x = some (.stmt n)) {m : LabelledNode}
    (hm : m ∈ (a.contributions flavor (.node x)).filterMap (wantedNode? owned)) : a.ByKind m := by
  simp only [contributions, hn, stmtContributions, List.filterMap_append, List.mem_append] at hm
  rcases hm with hm | hm
  · rcases List.mem_cons.mp hm with rfl | hm
    · exact ⟨x, rfl⟩
    · exact byKind_of_pairs hm
  · split at hm
    · exact byKind_of_pairs hm
    · cases hm

/-- The event of a node calls for others by their kinds, unless they are its arguments. -/
theorem label_of_wanted {m : LabelledNode} (hKey : m.key = .node y)
    (hm : m ∈ (a.contributions flavor (.node x)).filterMap (wantedNode? owned)) :
    m.label = a.labelOf y ∨ ∃ n, a.get? x = some (.function n) ∧ y ∈ n.args := by
  have hByKind : a.ByKind m → m.label = a.labelOf y := by
    rintro ⟨z, rfl⟩
    cases hKey
    rfl
  cases hn : a.get? x with
  | none => simp [contributions, hn] at hm
  | some n =>
      cases n with
      | function n =>
          obtain ⟨rest, hWanted, hRest⟩ := wantedNodes_function flavor owned hn
          simp only [hWanted, List.mem_append, List.mem_cons, List.mem_map] at hm
          rcases hm with (rfl | ⟨z, hArg, rfl⟩) | hm
          · cases hKey
            simp [labelOf, hn, Node.kindName]
          · cases hKey
            exact .inr ⟨n, rfl, hArg⟩
          · exact .inl (hByKind (hRest m hm))
      | stmt n => exact .inl (hByKind (byKind_of_stmt hn hm))
      | _ => simp [contributions, hn] at hm

end Wanted

end Arena

namespace CodeGraph

/-- A declaration is mentioned as an argument first: no statement that the functions before the first one with
this argument lead to mentions it. -/
def ArgumentsFirst (g : CodeGraph) : Prop :=
  ∀ earlier f later n y, g.functions = earlier ++ f :: later → g.arena.get? f = some (.function n) → y ∈ n.args →
    (∀ e ∈ earlier, ∀ m, g.arena.get? e = some (.function m) → y ∉ m.args) →
    ∀ e ∈ earlier, ∀ x s, Relation.ReflTransGen g.arena.Links e x → g.arena.get? x = some (.stmt s) →
      y ∉ s.children ∧ y ∉ s.references

variable {g : CodeGraph} {flavor : Flavor} {f y : NodeId} {n : FunctionNode} {earlier later : List NodeId}

theorem WellFormed.mem_functions (h : g.WellFormed) (hn : g.arena.get? f = some (.function n)) :
    f ∈ g.functions := by
  obtain ⟨root, hRoot, hReach⟩ := h.reached f _ hn
  cases h.typed.eq_of_reaches_function hn hReach
  rcases List.mem_append.mp hRoot with hFunction | hRecord
  · exact hFunction
  · obtain ⟨r, hr⟩ := h.records f hRecord
    cases hn.symm.trans hr

/-- What a walk presents before a function can be reached from the functions before it. -/
theorem WellFormed.walk_split (h : g.WellFormed) (hFunctions : g.functions = earlier ++ f :: later)
    (hNew : f ∉ earlier) : ∃ before after, g.walk = before ++ .node f :: after ∧
      ∀ x, .node x ∈ before → ∃ e ∈ earlier, Relation.ReflTransGen g.arena.Links e x := by
  obtain ⟨n, hn⟩ := h.functions f (by simp [hFunctions])
  have hPool : ∀ x ∈ requested (earlier.map (Item.visit (β := OwnedToken))), x ∈ g.arena.ids := by
    intro x hx
    rw [requested_visits] at hx
    exact h.roots_mem_ids x (by simp [roots, hFunctions, hx])
  have hReaches : ∀ x, x ∈ entered (run g.arena.walkAgenda g.arena.ids [] (earlier.map .visit)) →
      ∃ e ∈ earlier, Relation.ReflTransGen g.arena.Links e x := by
    intro x hx
    have hx := (mem_entered_iff_reaches h.typed.closed hPool).mp hx
    simpa [requested_visits, Traversal.ReachesOutside, Arena.requested_walkAgenda] using hx
  have hFresh : f ∉ entered (run g.arena.walkAgenda g.arena.ids [] (earlier.map .visit)) := by
    intro hx
    obtain ⟨e, he, hReach⟩ := hReaches f hx
    cases h.typed.eq_of_reaches_function hn hReach
    exact hNew he
  have hEvents : ∃ rest, g.events =
      run g.arena.walkAgenda g.arena.ids [] (earlier.map .visit) ++ .entered f :: rest := by
    have hRoots : g.roots.map Item.visit = earlier.map Item.visit ++ Item.visit (β := OwnedToken) f ::
        (later ++ g.records).map Item.visit := by
      simp [roots, hFunctions]
    rw [events, hRoots, Traversal.traverse, run_append,
      run_visit h.typed.closed (Arena.mem_ids_iff.mpr ⟨_, hn⟩) (by simpa using hFresh)]
    exact ⟨_, rfl⟩
  obtain ⟨rest, hEvents⟩ := hEvents
  refine ⟨_, rest.map present, by rw [walk_eq, hEvents, List.map_append, List.map_cons, present], ?_⟩
  intro x hx
  rw [Arena.node_mem_iff, Arena.presented_map_present] at hx
  exact hReaches x hx

section FirstMention
variable (h : g.WellFormed) (hScoped : g.ArgumentsFirst) (hFunctions : g.functions = earlier ++ f :: later)
  (hn : g.arena.get? f = some (.function n)) (hy : y ∈ n.args)
  (hFirst : ∀ e ∈ earlier, ∀ m, g.arena.get? e = some (.function m) → y ∉ m.args)
include h hScoped hFunctions hn hy hFirst

/-- Nothing that the functions before the first one with an argument lead to calls for the argument. -/
theorem WellFormed.not_called_before {e x : NodeId} (he : e ∈ earlier)
    (hReach : Relation.ReflTransGen g.arena.Links e x) : y ∉ g.arena.called flavor x := by
  intro hCalled
  obtain ⟨d, hd⟩ := h.typed.args hn y hy
  have hApart := hScoped earlier f later n y hFunctions hn hy hFirst e he x
  cases h.typed.mentions_of_called hd hCalled with
  | arg hm hArg =>
      cases h.typed.eq_of_reaches_function hm hReach
      exact hFirst _ he _ hm hArg
  | child hs hChild => exact (hApart _ hReach hs).1 hChild
  | reference hs hReference => exact (hApart _ hReach hs).2 hReference

variable (flavor) in
/-- The first function with an argument mentions it first of all, and as an argument. -/
theorem WellFormed.first_wanted :
    ((g.walk.flatMap (g.arena.contributions flavor)).filterMap (wantedNode? g.arena.ownsTokens)).find?
      (·.key = .node y) = some ⟨.node y, g.arena.argumentLabel y, none⟩ := by
  obtain ⟨d, hd⟩ := h.typed.args hn y hy
  have hNew : f ∉ earlier := fun hMem => hFirst f hMem n hn hy
  have hOther : f ≠ y := by
    rintro rfl
    cases hn.symm.trans hd
  obtain ⟨before, after, hWalk, hBefore⟩ := h.walk_split hFunctions hNew
  have hNone : ∀ m ∈ (before.flatMap (g.arena.contributions flavor)).filterMap (wantedNode? g.arena.ownsTokens),
      m.key ≠ .node y := by
    intro m hm hKey
    obtain ⟨v, hv, hCalled⟩ := Arena.mem_wanted_iff.mp ⟨m, hm, hKey⟩
    cases v with
    | token t =>
        rw [Arena.keys] at hCalled
        split at hCalled <;> simp at hCalled
    | node x =>
        obtain ⟨z, hCalled, hEq⟩ := List.mem_map.mp hCalled
        cases hEq
        obtain ⟨e, he, hReach⟩ := hBefore x hv
        exact h.not_called_before hScoped hFunctions hn hy hFirst he hReach hCalled
  obtain ⟨rest, hWanted, -⟩ := Arena.wantedNodes_function flavor g.arena.ownsTokens hn
  rw [hWalk, List.flatMap_append, List.flatMap_cons, List.filterMap_append, List.filterMap_append,
    List.find?_append, List.find?_eq_none.mpr (by simpa using hNone), Option.none_or, hWanted,
    List.find?_append, List.find?_append, List.find?_cons_of_neg (by simpa using hOther), Arena.find?_of_args hy]
  rfl

end FirstMention

/-- What is no argument is labelled by its kind. -/
theorem WellFormed.label_of_not_arg (h : g.WellFormed) {m : LabelledNode} (hm : m ∈ (g.labelled flavor).nodes)
    (hKey : m.key = .node y) (hNot : ∀ f n, g.arena.get? f = some (.function n) → y ∉ n.args) :
    m.label = g.arena.labelOf y := by
  have hWanted := LabelledGraph.mem_of_foldl_add (h.settled flavor) hm
  rw [List.filterMap_flatMap, List.mem_flatMap] at hWanted
  obtain ⟨v, -, hWanted⟩ := hWanted
  cases v with
  | node x =>
      rcases Arena.label_of_wanted hKey hWanted with hLabel | ⟨n, hn, hy⟩
      · exact hLabel
      · exact absurd hy (hNot x n hn)
  | token t =>
      rw [Arena.wantedNodes_token] at hWanted
      split at hWanted
      · cases List.mem_singleton.mp hWanted
        cases hKey
      · cases hWanted

/-- What is an argument is labelled as one. -/
theorem WellFormed.label_of_arg (h : g.WellFormed) (hScoped : g.ArgumentsFirst) {m : LabelledNode}
    (hm : m ∈ (g.labelled flavor).nodes) (hKey : m.key = .node y) (hn : g.arena.get? f = some (.function n))
    (hy : y ∈ n.args) : m.label = g.arena.argumentLabel y := by
  obtain ⟨earlier, f', later, hFunctions, ⟨n', hn', hy'⟩, hFirst⟩ := exists_first_mem
    (P := fun f => ∃ n, g.arena.get? f = some (.function n) ∧ y ∈ n.args) ⟨f, h.mem_functions hn, n, hn, hy⟩
  have hWanted := h.first_wanted flavor hScoped hFunctions hn' hy' fun e he k hk hMem => hFirst e he ⟨k, hk, hMem⟩
  have hFound : (g.labelled flavor).node? (.node y) = some m := by
    rw [← hKey]
    exact LabelledGraph.node?_key (LabelledGraph.keys_nodup_foldl (g := .empty flavor) List.nodup_nil _) hm
  rw [labelled, (LabelledGraph.foldl_add (h.settled flavor)).1, hWanted] at hFound
  exact congrArg LabelledNode.label (Option.some.inj hFound).symm

theorem WellFormed.hasLabel (h : g.WellFormed) (hScoped : g.ArgumentsFirst) {m : LabelledNode}
    (hm : m ∈ (g.labelled flavor).nodes) (hKey : m.key = .node y) : g.arena.HasLabel y m.label := by
  by_cases hArgument : ∃ f n, g.arena.get? f = some (.function n) ∧ y ∈ n.args
  · obtain ⟨f, n, hn, hy⟩ := hArgument
    obtain ⟨d, hd⟩ := h.typed.args hn y hy
    rw [h.label_of_arg hScoped hm hKey hn hy, Arena.argumentLabel_eq hd]
    exact .argument hn hy hd
  · have hNot : ∀ f n, g.arena.get? f = some (.function n) → y ∉ n.args :=
      fun f n hn hy => hArgument ⟨f, n, hn, hy⟩
    rw [h.label_of_not_arg hm hKey hNot]
    exact Arena.hasLabel_labelOf hNot ((h.labelled_keys flavor (.node y)).mp ⟨m, hm, hKey⟩)

end CodeGraph

namespace Job

/-- From the node of a function at top level, a walk gets to the node of a statement. -/
def LeadsToStmt (j : Job) (site : Nat) (d : DeclId) (stmt : Stmt) : Prop :=
  ∃ x s, Relation.ReflTransGen j.codeGraph.arena.Leads (j.idOf (.function site d)) x ∧
    j.registry.get? (.stmt s) = some x ∧ j.unit.stmt? s = some stmt

/-- No statement that a function leads to declares or reads a parameter of a function whose first place at top
level comes later. -/
def ParametersScoped (j : Job) : Prop :=
  ∀ site d params body, j.Visits site d params body → (∀ i < site, j.unit.topLevel[i]? ≠ some d) →
    ∀ site' d' params' body', j.Visits site' d' params' body' → site' < site →
      ∀ stmt, j.LeadsToStmt site' d' stmt → ∀ p ∈ params, p ∉ stmt.decls ∧ stmt.referenced ≠ some p

variable {j : Job}

/-- What a statement node links to as a declaration, the statement declares or reads. -/
theorem mention_of_links {x : NodeId} {n : StmtNode} {p : DeclId} (hn : j.codeGraph.arena.get? x = some (.stmt n))
    (hp : .decl p ∈ j.entities) (hLink : j.idOf (.decl p) ∈ (Node.stmt n).links) :
    ∃ s stmt, j.registry.get? (.stmt s) = some x ∧ j.unit.stmt? s = some stmt ∧
      (p ∈ stmt.decls ∨ stmt.referenced = some p) := by
  obtain ⟨e, he, hEq⟩ := exists_entity hn
  cases e with
  | stmt s =>
      rw [hEq] at hLink
      obtain ⟨e', hAsks, hId⟩ := (mem_links_nodeOf rfl).mp hLink
      cases idOf_inj (hAsks.mem_entities (mem_entities_of_registry he)) hp hId
      cases hAsks with
      | mention hStmt hMention =>
          refine ⟨s, _, he, hStmt, ?_⟩
          simpa using hMention
  | _ => cases hEq

/-- The defined functions that are listed before one of them stand before it. -/
theorem mem_before_iff {before after : List (Nat × DeclId)} {f g : Nat × DeclId}
    (hSplit : j.topFunctions = before ++ f :: after) : g ∈ before ↔ g ∈ j.topFunctions ∧ g.1 < f.1 := by
  have hSorted : (before ++ f :: after).Pairwise fun f g => f.1 < g.1 := hSplit ▸ j.topFunctions_pairwise
  obtain ⟨-, hRest, hBefore⟩ := List.pairwise_append.mp hSorted
  rw [hSplit, List.mem_append, List.mem_cons]
  constructor
  · intro hg
    exact ⟨.inl hg, hBefore g hg f List.mem_cons_self⟩
  · rintro ⟨hg | rfl | hg, hlt⟩
    · exact hg
    · exact absurd hlt (Nat.lt_irrefl _)
    · exact absurd hlt (Nat.lt_asymm ((List.pairwise_cons.mp hRest).1 g hg))

theorem ParametersScoped.argumentsFirst (h : j.ParametersScoped) : j.codeGraph.ArgumentsFirst := by
  intro earlier f later n y hFunctions hn hy hFirst e he x s hReach hs
  have hTop : j.codeGraph.functions = j.topFunctions.map fun f => j.idOf (.function f.1 f.2) := rfl
  rw [hTop] at hFunctions
  obtain ⟨before, rest, hSplit, rfl, hRest⟩ := List.map_eq_append_iff.mp hFunctions
  obtain ⟨⟨site, d⟩, after, rfl, rfl, -⟩ := List.map_eq_cons_iff.mp hRest
  have hSite : (site, d) ∈ j.topFunctions := by rw [hSplit]; simp
  obtain ⟨params, body, hVisits⟩ := mem_topFunctions_iff.mp hSite
  obtain ⟨n', hn', hArgs, -⟩ := function_node hVisits
  cases hn.symm.trans hn'
  rw [hArgs] at hy
  obtain ⟨p, hp, rfl⟩ := List.mem_map.mp hy
  -- an earlier place of the same function would have the same argument
  have hNew : ∀ i < site, j.unit.topLevel[i]? ≠ some d := by
    intro i hi hSame
    have hVisits' : j.Visits i d params body := ⟨hSame, hVisits.2⟩
    obtain ⟨m, hm, hArgs', -⟩ := function_node hVisits'
    have hMem : (i, d) ∈ before := (mem_before_iff hSplit).mpr ⟨mem_topFunctions_iff.mpr ⟨_, _, hVisits'⟩, hi⟩
    exact hFirst _ (List.mem_map_of_mem hMem) m hm (hArgs' ▸ hy)
  obtain ⟨⟨site', d'⟩, hMem, rfl⟩ := List.mem_map.mp he
  obtain ⟨hMem', hEarlier⟩ := (mem_before_iff hSplit).mp hMem
  obtain ⟨params', body', hVisits'⟩ := mem_topFunctions_iff.mp hMem'
  rw [Arena.links_eq_leads] at hReach
  have hNot : j.idOf (.decl p) ∉ (Node.stmt s).links := by
    intro hLink
    obtain ⟨_, stmt, hNode, hStmt, hMention⟩ := mention_of_links hs (Starts.param hVisits hp).mem_entities hLink
    obtain ⟨hDecl, hRead⟩ := h site d params body hVisits hNew site' d' params' body' hVisits' hEarlier stmt
      ⟨x, _, hReach, hNode, hStmt⟩ p hp
    exact hMention.elim hDecl hRead
  exact ⟨fun hChild => hNot (List.mem_append_left _ hChild), fun hRead => hNot (List.mem_append_right _ hRead)⟩

/-- For every unit whose parameters are scoped, every frontend and all options. -/
theorem labels_independent (j : Job) (h : j.ParametersScoped) :
    (∀ flavor, ∀ n ∈ (j.codeGraph.labelled flavor).nodes,
      (∀ x, n.key = .node x → j.codeGraph.arena.HasLabel x n.label) ∧
      ∀ i, n.key = .token i → ∃ l, j.unit.lexemes[i]? = some l ∧ n.label = l.text) ∧
    ∀ flavor flavor', ∀ n ∈ (j.codeGraph.labelled flavor).nodes, ∀ n' ∈ (j.codeGraph.labelled flavor').nodes,
      n.key = n'.key → n.label = n'.label := by
  have hNode : ∀ {flavor n x}, n ∈ (j.codeGraph.labelled flavor).nodes → n.key = .node x →
      j.codeGraph.arena.HasLabel x n.label :=
    fun hn hKey => j.wellFormed_codeGraph.hasLabel h.argumentsFirst hn hKey
  refine ⟨fun flavor n hn => ⟨fun x => hNode hn, fun i hKey => ?_⟩, ?_⟩
  · obtain ⟨l, hl, hLabel, -⟩ := token_node_shows hn hKey
    exact ⟨l, hl, hLabel⟩
  · intro flavor flavor' n hn n' hn' hKey
    cases hk : n.key with
    | node x => exact (hNode hn hk).unique (hNode hn' (hKey ▸ hk))
    | token i =>
        obtain ⟨l, hl, hLabel, -⟩ := token_node_shows hn hk
        obtain ⟨l', hl', hLabel', -⟩ := token_node_shows hn' (hKey ▸ hk)
        cases hl.symm.trans hl'
        rw [hLabel, hLabel']

/-- Two functions, each of which reads its parameter, with one flow block each. -/
def pairUnit : SourceUnit where
  lexemes := ["int", "f", "(", "int", "p", ")", "\x7b", "p", ";", "\x7d", "void", "g", "(", "float", "q", "[",
    "]", ")", "\x7b", "q", ";", "\x7d"].mapIdx fun i text => ⟨"Token", text, i⟩
  decls := #[
    ⟨.function [⟨1⟩] (some ⟨0⟩), .identifier "f", 1, ⟨0, 9⟩, some ⟨0⟩⟩,
    ⟨.param, .identifier "p", 4, ⟨3, 4⟩, some ⟨0⟩⟩,
    ⟨.function [⟨3⟩] (some ⟨2⟩), .identifier "g", 11, ⟨10, 21⟩, some ⟨2⟩⟩,
    ⟨.param, .identifier "q", 14, ⟨13, 16⟩, some ⟨1⟩⟩]
  stmts := #[
    ⟨"CompoundStmt", ⟨6, 9⟩, [⟨1⟩], [], none⟩,
    ⟨"DeclRefExpr", ⟨7, 7⟩, [], [], some ⟨1⟩⟩,
    ⟨"CompoundStmt", ⟨18, 21⟩, [⟨3⟩], [], none⟩,
    ⟨"DeclRefExpr", ⟨19, 19⟩, [], [], some ⟨3⟩⟩]
  types := #[⟨.builtin, "int"⟩, ⟨.builtin, "float[4]"⟩, ⟨.builtin, "void"⟩]
  topLevel := [⟨0⟩, ⟨2⟩]

def pairJob : Job where
  unit := pairUnit
  frontend :=
    { parse := fun _ => .ok pairUnit
      flowGraph := fun _ d => .ok ⟨[⟨0, [⟨d.index + 1⟩], none, []⟩]⟩ }
  options := { flowBlocks := true }

theorem pairJob_parametersScoped : pairJob.ParametersScoped := by
  intro site d params body hVisits _ site' d' params' body' hVisits' hEarlier stmt hLeads p hp
  obtain ⟨x, ⟨i⟩, hReach, hNode, hStmt⟩ := hLeads
  have hSite : site < 2 := (List.getElem?_eq_some_iff.mp hVisits.1).1
  have hIndex : i < 4 := (Array.getElem?_eq_some_iff.mp hStmt).1
  obtain ⟨rfl, rfl⟩ : site = 1 ∧ site' = 0 := by omega
  cases hVisits.1
  cases hVisits'.1
  cases hVisits.2
  cases List.mem_singleton.mp hp
  -- all that the first function leads to has been presented when the second one comes
  have hRoot : ∀ y ∈ [pairJob.idOf (.function 0 ⟨0⟩)], y ∈ pairJob.codeGraph.arena.ids := by decide +kernel
  have hPresented : x ∈ pairJob.codeGraph.arena.order [pairJob.idOf (.function 0 ⟨0⟩)] := by
    rw [Arena.mem_order_iff pairJob.typed_codeGraph.closed hRoot, Arena.links_eq_leads]
    exact ⟨_, List.mem_singleton_self _, hReach⟩
  have hAll : ∀ x ∈ pairJob.codeGraph.arena.order [pairJob.idOf (.function 0 ⟨0⟩)], ∀ i < 4,
      pairJob.registry.get? (.stmt ⟨i⟩) = some x →
        (pairUnit.stmt? ⟨i⟩).all fun stmt => ⟨3⟩ ∉ stmt.decls ∧ stmt.referenced ≠ some ⟨3⟩ := by
    decide +kernel
  have hMention := hAll x hPresented i hIndex hNode
  rw [show pairUnit.stmt? ⟨i⟩ = some stmt from hStmt] at hMention
  simpa using hMention

/-- The second parameter in all flavors, also where a statement reads it. -/
theorem labels_independent_pair : pairJob.ParametersScoped ∧
    ∀ flavor, ∃ n ∈ (pairJob.codeGraph.labelled flavor).nodes, n.key = .node ⟨5⟩ ∧ n.label = "argument:arrayType" := by
  refine ⟨pairJob_parametersScoped, fun flavor => ?_⟩
  have hFunction : ∃ f, pairJob.codeGraph.arena.get? ⟨9⟩ = some (.function f) ∧ ⟨5⟩ ∈ f.args := ⟨_, rfl, by decide⟩
  have hDecl : ∃ d, pairJob.codeGraph.arena.get? ⟨5⟩ = some (.decl d) ∧ d.type = "float[4]" := ⟨_, rfl, rfl⟩
  obtain ⟨f, hf, hArg⟩ := hFunction
  obtain ⟨d, hd, hType⟩ := hDecl
  obtain ⟨n, hn, hKey⟩ := (pairJob.wellFormed_codeGraph.labelled_keys flavor _).mpr (.arg hf hArg hd)
  have hLabel := ((labels_independent pairJob pairJob_parametersScoped).1 flavor n hn).1 _ hKey
  refine ⟨n, hn, hKey, (hLabel.unique (.argument hf hArg hd)).trans ?_⟩
  rw [hType]
  decide +kernel

end Job

end UnitGraph
