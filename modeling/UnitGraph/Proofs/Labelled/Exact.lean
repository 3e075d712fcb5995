import UnitGraph.Proofs.Extraction.Links
import UnitGraph.Proofs.Labelled.Contributions

/-!
# Labelled graphs are exact

Main statement: the labelled graph of an extraction has one node for everything that the flavor draws of the
code graph and no other, and its edges are those that the nodes of the code graph stand for, each as often
as the code graph has it.
-/
namespace UnitGraph

open Contribution

/-- An element of a concatenation belongs to one of the lists, with all lists before it. -/
theorem prefix_flatMap {α β : Type} {f : α → List β} {l : List α} {before : List β} {b : β}
    (h : before ++ [b] <+: l.flatMap f) :
    ∃ earlier a part, earlier ++ [a] <+: l ∧ before = earlier.flatMap f ++ part ∧ part ++ [b] <+: f a := by
  induction l generalizing before with
  | nil => simp at h
  | cons a l ih =>
      rw [List.flatMap_cons] at h
      by_cases hLength : before.length < (f a).length
      · refine ⟨[], a, before, by simp, rfl, ?_⟩
        refine List.prefix_of_prefix_length_le h (List.prefix_append ..) ?_
        rw [List.length_append, List.length_singleton]
        omega
      · have hWhole : f a <+: before :=
          List.prefix_of_prefix_length_le (List.prefix_append ..) ((List.prefix_append ..).trans h) (by omega)
        obtain ⟨rest, rfl⟩ := hWhole
        rw [List.append_assoc, List.prefix_append_right_inj] at h
        obtain ⟨earlier, a', part, hEarlier, rfl, hPart⟩ := ih h
        exact ⟨a :: earlier, a', part, by simpa using hEarlier, by simp, hPart⟩

namespace Arena

/-- What a labelled graph draws: the functions and the statements, the declarations that are arguments or
below a statement and those that statements read if there are data edges, the blocks if there are flow
edges, and the tokens of functions, statements and declarations if there are token edges. -/
inductive Drawn (a : Arena) (flavor : Flavor) : GraphKey → Prop
  | function {x : NodeId} {n : FunctionNode} : a.get? x = some (.function n) → Drawn a flavor (.node x)
  | stmt {x : NodeId} {n : StmtNode} : a.get? x = some (.stmt n) → Drawn a flavor (.node x)
  | arg {x y : NodeId} {n : FunctionNode} {d : DeclNode} : a.get? x = some (.function n) → y ∈ n.args →
      a.get? y = some (.decl d) → Drawn a flavor (.node y)
  | child {x y : NodeId} {n : StmtNode} {d : DeclNode} : a.get? x = some (.stmt n) → y ∈ n.children →
      a.get? y = some (.decl d) → Drawn a flavor (.node y)
  | reference {x y : NodeId} {n : StmtNode} {d : DeclNode} : flavor.includes .data = true →
      a.get? x = some (.stmt n) → y ∈ n.references → a.get? y = some (.decl d) → Drawn a flavor (.node y)
  | block {x : NodeId} {n : BlockNode} : flavor.includes .cfg = true → a.get? x = some (.block n) →
      Drawn a flavor (.node x)
  | token {x : NodeId} {n : Node} {t : Token} : flavor.includes .token = true → a.get? x = some n →
      n.isSyntax = true → t ∈ n.tokens → Drawn a flavor (.token t.index)

variable {a : Arena} {flavor : Flavor} {x y : NodeId}

theorem block?_eq_some_iff {n : BlockNode} : a.block? x = some n ↔ a.get? x = some (.block n) := by
  unfold block?
  cases a.get? x with
  | none => simp
  | some m => cases m <;> simp [Node.asBlock?]

theorem mem_called_function {n : FunctionNode} (hn : a.get? x = some (.function n)) :
    y ∈ a.called flavor x ↔ y = x ∨ y ∈ n.args ∨ y = n.entry ∨
      flavor.includes .cfg = true ∧ ∃ b ∈ n.blocks, y ∈ a.calledByBlock b := by
  cases hCfg : flavor.includes .cfg <;> simp [called, hn, hCfg]

theorem mem_called_stmt {n : StmtNode} (hn : a.get? x = some (.stmt n)) :
    y ∈ a.called flavor x ↔ y = x ∨ y ∈ n.children ∨ flavor.includes .data = true ∧ y ∈ n.references := by
  cases hData : flavor.includes .data <;> simp [called, hn, hData]

theorem mem_ids_of_called (hCalled : y ∈ a.called flavor x) : x ∈ a.ids := by
  cases hn : a.get? x with
  | none => simp [called, hn] at hCalled
  | some n => exact mem_ids_iff.mpr ⟨n, hn⟩

/-- A block calls for itself, its successors and its statements. -/
theorem Typed.drawn_of_block (h : a.Typed) (hCfg : flavor.includes .cfg = true)
    (hCalled : y ∈ a.calledByBlock x) : a.Drawn flavor (.node y) := by
  unfold calledByBlock at hCalled
  split at hCalled
  · next n hBlock =>
      have hn := block?_eq_some_iff.mp hBlock
      rcases List.mem_append.mp hCalled with hCalled | hStatement
      · rcases List.mem_cons.mp hCalled with rfl | hSuccessor
        · exact .block hCfg hn
        · obtain ⟨b, hb⟩ := h.successors hn y hSuccessor
          exact .block hCfg hb
      · obtain ⟨s, hs⟩ := h.statements hn y hStatement
        exact .stmt hs
  · cases hCalled

/-- Whatever the event of a node calls for is drawn. -/
theorem Typed.drawn_of_called (h : a.Typed) (hCalled : y ∈ a.called flavor x) : a.Drawn flavor (.node y) := by
  cases hn : a.get? x with
  | none => simp [called, hn] at hCalled
  | some n =>
      cases n with
      | function n =>
          rcases (mem_called_function hn).mp hCalled with rfl | hArg | rfl | ⟨hCfg, b, _, hb⟩
          · exact .function hn
          · obtain ⟨d, hd⟩ := h.args hn y hArg
            exact .arg hn hArg hd
          · obtain ⟨s, hs⟩ := h.entry hn
            exact .stmt hs
          · exact h.drawn_of_block hCfg hb
      | stmt n =>
          rcases (mem_called_stmt hn).mp hCalled with rfl | hChild | ⟨hData, hReference⟩
          · exact .stmt hn
          · rcases h.children hn y hChild with ⟨s, hs⟩ | ⟨d, hd⟩
            · exact .stmt hs
            · exact .child hn hChild hd
          · obtain ⟨d, hd⟩ := h.references hn y hReference
            exact .reference hData hn hReference hd
      | _ => simp [called, hn] at hCalled

/-- A node that is drawn is a function, a statement, a declaration or a block. -/
theorem Drawn.isSyntax_or_block (h : a.Drawn flavor (.node x)) :
    ∃ n, a.get? x = some n ∧ (n.isSyntax = true ∨ n.tokens = []) := by
  cases h with
  | function hn => exact ⟨_, hn, Or.inl rfl⟩
  | stmt hn => exact ⟨_, hn, Or.inl rfl⟩
  | arg _ _ hd => exact ⟨_, hd, Or.inl rfl⟩
  | child _ _ hd => exact ⟨_, hd, Or.inl rfl⟩
  | reference _ _ _ hd => exact ⟨_, hd, Or.inl rfl⟩
  | block _ hn => exact ⟨_, hn, Or.inr rfl⟩

end Arena

namespace CodeGraph

variable {g : CodeGraph} {flavor : Flavor} {x y : NodeId}

/-- Every node that is drawn is called for by the event of some node. -/
theorem WellFormed.exists_called (h : g.WellFormed) (hDrawn : g.arena.Drawn flavor (.node y)) :
    ∃ x, y ∈ g.arena.called flavor x := by
  cases hDrawn with
  | function hn => exact ⟨y, (Arena.mem_called_function hn).mpr (Or.inl rfl)⟩
  | stmt hn => exact ⟨y, (Arena.mem_called_stmt hn).mpr (Or.inl rfl)⟩
  | arg hn hArg => exact ⟨_, (Arena.mem_called_function hn).mpr (Or.inr (Or.inl hArg))⟩
  | child hn hChild => exact ⟨_, (Arena.mem_called_stmt hn).mpr (Or.inr (Or.inl hChild))⟩
  | reference hData hn hReference =>
      exact ⟨_, (Arena.mem_called_stmt hn).mpr (Or.inr (Or.inr ⟨hData, hReference⟩))⟩
  | block hCfg hn =>
      obtain ⟨f, n, hf, hBlock⟩ := h.owned _ _ hn
      refine ⟨f, (Arena.mem_called_function hf).mpr (Or.inr (Or.inr (Or.inr ⟨hCfg, y, hBlock, ?_⟩)))⟩
      simp [Arena.calledByBlock, Arena.block?_eq_some_iff.mpr hn]

/-- A node that mentions a declaration calls for it if there are data edges. -/
theorem called_of_mentions (hData : flavor.includes .data = true) (h : g.arena.Mentions x y) :
    y ∈ g.arena.called flavor x := by
  cases h with
  | arg hn hArg => exact (Arena.mem_called_function hn).mpr (Or.inr (Or.inl hArg))
  | child hn hChild => exact (Arena.mem_called_stmt hn).mpr (Or.inr (Or.inl hChild))
  | reference hn hReference => exact (Arena.mem_called_stmt hn).mpr (Or.inr (Or.inr ⟨hData, hReference⟩))

/-- Before a token of a function, a statement or a declaration comes, its owner has been called for. -/
theorem WellFormed.called_before (h : g.WellFormed) (hData : flavor.includes .data = true)
    {before : List WalkEvent} {n : Node} (hPrefix : before <+: g.walk) (hx : .node x ∈ before)
    (hn : g.arena.get? x = some n) (hSyntax : n.isSyntax = true) :
    ∃ y, .node y ∈ before ∧ x ∈ g.arena.called flavor y := by
  cases n with
  | function n => exact ⟨x, hx, (Arena.mem_called_function hn).mpr (Or.inl rfl)⟩
  | stmt n => exact ⟨x, hx, (Arena.mem_called_stmt hn).mpr (Or.inl rfl)⟩
  | decl d =>
      -- a declaration is not where a walk starts, so something that mentions it comes earlier
      obtain ⟨earlier, later, rfl⟩ := List.append_of_mem hx
      have hEarlier : earlier ++ [.node x] <+: g.walk :=
        List.IsPrefix.trans ⟨later, by simp⟩ hPrefix
      rcases h.linked_before hEarlier with hRoot | ⟨y, hy, hLink⟩
      · rcases List.mem_append.mp hRoot with hFunction | hRecord
        · obtain ⟨n, hFunction⟩ := h.functions x hFunction
          cases hn.symm.trans hFunction
        · obtain ⟨n, hRecord⟩ := h.records x hRecord
          cases hn.symm.trans hRecord
      · obtain ⟨m, hm, hMentions, -⟩ := h.typed.target hLink
        cases hn.symm.trans hm
        exact ⟨y, List.mem_append_left _ hy, called_of_mentions hData (hMentions d rfl)⟩
  | _ => cases hSyntax

/-- Whenever a token comes, its owner is a node just if it is a function, a statement or a declaration. -/
theorem WellFormed.settled (h : g.WellFormed) (flavor : Flavor) :
    Settled g.arena.ownsTokens (g.walk.flatMap (g.arena.contributions flavor)) := by
  intro before owner token hPrefix
  obtain ⟨earlier, v, part, hEarlier, rfl, hPart⟩ := prefix_flatMap hPrefix
  cases v with
  | node x => exact absurd (hPart.subset (by simp)) (Arena.own_not_mem x owner token)
  | token t =>
      obtain ⟨hToken, rfl, rfl⟩ : flavor.includes .token = true ∧ part = [] ∧ owner = .node t.owner := by
        simp only [Arena.contributions] at hPart
        split at hPart
        · next hToken =>
            cases part with
            | nil =>
                obtain ⟨rfl, rfl⟩ : owner = .node t.owner ∧ token = _ := by simpa using hPart
                exact ⟨hToken, rfl, rfl⟩
            | cons c part => simp at hPart
        · simp at hPart
      obtain ⟨hBefore, hOwned⟩ := h.owner_before hEarlier
      obtain ⟨n, hn, hMem⟩ := Arena.mem_tokensOf_iff.mp hOwned
      rw [List.append_nil, Arena.mem_wanted_iff, Arena.ownsTokens_iff]
      constructor
      · intro hOwns
        obtain ⟨n, hn, hSyntax⟩ := hOwns
        obtain ⟨y, hy, hCalled⟩ := h.called_before (Flavor.includes_data_of_token hToken)
          ((List.prefix_append ..).trans hEarlier) hBefore hn hSyntax
        exact ⟨_, hy, List.mem_map_of_mem hCalled⟩
      · intro hWanted
        obtain ⟨v, _, hKey⟩ := hWanted
        cases v with
        | node y =>
            obtain ⟨x, hCalled, hEq⟩ := List.mem_map.mp hKey
            cases hEq
            obtain ⟨m, hm, hSyntax | hTokens⟩ := (h.typed.drawn_of_called hCalled).isSyntax_or_block
            · exact ⟨m, hm, hSyntax⟩
            · cases hn.symm.trans hm
              simp [hTokens] at hMem
        | token t' =>
            rw [Arena.keys] at hKey
            split at hKey <;> simp at hKey

theorem WellFormed.labelled_edges (h : g.WellFormed) (flavor : Flavor) : (g.labelled flavor).edges.Perm
    ((g.arena.ids.flatMap g.arena.edgesOf).filter fun e => flavor.includes e.kind) := by
  rw [labelled, (LabelledGraph.foldl_add (h.settled flavor)).2, List.filterMap_flatMap, List.filter_flatMap]
  refine (h.flatMap_walk_perm _).trans ?_
  simp only [Arena.wantedEdges_eq]
  exact .refl _

theorem WellFormed.labelled_keys (h : g.WellFormed) (flavor : Flavor) (k : GraphKey) :
    (∃ n ∈ (g.labelled flavor).nodes, n.key = k) ↔ g.arena.Drawn flavor k := by
  rw [LabelledGraph.exists_mem_iff, labelled, (LabelledGraph.foldl_add (h.settled flavor)).1,
    List.find?_isSome]
  simp only [decide_eq_true_eq, Arena.mem_wanted_iff]
  rw [← List.mem_flatMap, (h.flatMap_walk_perm _).mem_iff, List.mem_flatMap]
  constructor
  · intro hKey
    obtain ⟨x, _, hKey⟩ := hKey
    rcases List.mem_append.mp hKey with hNode | hToken
    · obtain ⟨y, hCalled, rfl⟩ := List.mem_map.mp hNode
      exact h.typed.drawn_of_called hCalled
    · obtain ⟨t, ht, hKey⟩ := List.mem_flatMap.mp hToken
      rw [Arena.keys] at hKey
      split at hKey
      · next hWanted =>
          obtain ⟨hFlavor, hOwns⟩ := Bool.and_eq_true_iff.mp hWanted
          obtain ⟨n, hn, hSyntax⟩ := Arena.ownsTokens_iff.mp hOwns
          obtain ⟨m, hm, hMem⟩ := Arena.mem_tokensOf_iff.mp ht
          cases hn.symm.trans hm
          cases List.mem_singleton.mp hKey
          exact .token hFlavor hn hSyntax hMem
      · cases hKey
  · intro hDrawn
    cases k with
    | node y =>
        obtain ⟨x, hCalled⟩ := h.exists_called hDrawn
        exact ⟨x, Arena.mem_ids_of_called hCalled, List.mem_append_left _ (List.mem_map_of_mem hCalled)⟩
    | token i =>
        cases hDrawn with
        | @token x n t hToken hn hSyntax ht =>
            refine ⟨x, Arena.mem_ids_iff.mpr ⟨n, hn⟩, List.mem_append_right _ (List.mem_flatMap.mpr ⟨t, ?_, ?_⟩)⟩
            · exact Arena.mem_tokensOf_iff.mpr ⟨n, hn, ht⟩
            · simp [Arena.keys, hToken, Arena.ownsTokens_iff.mpr ⟨n, hn, hSyntax⟩]

end CodeGraph

/-- On every unit, for every frontend and all options. -/
theorem Job.labelled_exact (j : Job) (flavor : Flavor) :
    ((j.codeGraph.labelled flavor).nodes.map (·.key)).Nodup ∧
    (∀ n ∈ (j.codeGraph.labelled flavor).nodes, (j.codeGraph.labelled flavor).node? n.key = some n) ∧
    (∀ k, (∃ n ∈ (j.codeGraph.labelled flavor).nodes, n.key = k) ↔ j.codeGraph.arena.Drawn flavor k) ∧
    (j.codeGraph.labelled flavor).edges.Perm
      ((j.codeGraph.arena.ids.flatMap j.codeGraph.arena.edgesOf).filter fun e => flavor.includes e.kind) := by
  have h := j.wellFormed_codeGraph
  have hKeys := LabelledGraph.keys_nodup_foldl (g := .empty flavor) List.nodup_nil
    (j.codeGraph.walk.flatMap (j.codeGraph.arena.contributions flavor))
  exact ⟨hKeys, fun n => LabelledGraph.node?_key hKeys, h.labelled_keys flavor, h.labelled_edges flavor⟩

end UnitGraph
