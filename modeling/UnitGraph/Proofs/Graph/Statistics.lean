import Mathlib.Order.Bounds.Defs
import UnitGraph.Graph.Statistics
import UnitGraph.Proofs.Graph.Subtree
import UnitGraph.Proofs.Registry

/-!
# Statistics against the tree

Main statement: on an arena without cycles below a node, the nesting depth of a class is the greatest number of its
statements on one way down, the counts are those of the nodes as the subtree lists them, in order of first
contribution, and a class that is counted is nested no deeper than it is counted.
-/
namespace UnitGraph

section Tally

variable {κ : Type} [DecidableEq κ] {keys : List κ} {k : κ}

/-- One more key comes last, unless it has been there before. -/
theorem eraseDups_concat : (keys ++ [k]).eraseDups = keys.eraseDups ++ if k ∈ keys then [] else [k] := by
  rw [List.eraseDups_append, List.removeAll]
  by_cases hk : k ∈ keys <;> simp [hk, List.eraseDups_cons]

theorem map_fst_tally (keys : List κ) : (tally keys).map (·.1) = keys.eraseDups := by simp [tally, Function.comp_def]

/-- The keys of a tally stand in the order in which they first occur. -/
theorem pairwise_tally (keys : List κ) :
    ((tally keys).map (·.1)).Pairwise fun k k' => keys.idxOf k < keys.idxOf k' := by
  rw [map_fst_tally]
  induction keys using List.reverseRecOn with
  | nil => exact .nil
  | append_singleton keys k ih =>
      have hKept : ∀ x ∈ keys.eraseDups, (keys ++ [k]).idxOf x = keys.idxOf x := by
        intro x hx
        exact List.idxOf_append_of_mem (List.mem_eraseDups.mp hx)
      rw [eraseDups_concat, List.pairwise_append]
      refine ⟨ih.imp_of_mem fun hx hy hxy => ?_, by split <;> simp, fun x hx y hy => ?_⟩
      · rwa [hKept _ hx, hKept _ hy]
      · split at hy
        · cases hy
        · rename_i hNew
          rw [List.mem_singleton.mp hy]
          exact precedes_of_append [k] (List.mem_eraseDups.mp hx) hNew

theorem lookup_tally (keys : List κ) (k : κ) : ((tally keys).lookup k).getD 0 = keys.count k := by
  by_cases hk : k ∈ keys
  · have hNodup : ((tally keys).map (·.1)).Nodup :=
      (pairwise_tally keys).imp fun hLt => ne_of_apply_ne (keys.idxOf ·) (Nat.ne_of_lt hLt)
    rw [(lookup_eq_some_iff_mem hNodup).mpr (mem_tally_iff.mpr ⟨hk, rfl⟩), Option.getD_some]
  · have hLookup : (tally keys).lookup k = none := by
      refine List.lookup_eq_none_iff.mpr fun p hp => ?_
      have hMem := (mem_tally_iff.mp hp).1
      exact bne_iff_ne.mpr fun h => hk (h ▸ hMem)
    rw [hLookup, Option.getD_none, List.count_eq_zero_of_not_mem hk]

end Tally

section Render

/-- Tokens of a stream, in any order but each once, are rendered in the order of the stream. -/
theorem Token.render_eq_filter {stream ts : List Token} (hStream : stream.Pairwise (·.index < ·.index))
    (hMem : ∀ t ∈ ts, t ∈ stream) (hNodup : (ts.map (·.index)).Nodup) :
    Token.render ts = Token.spellings (stream.filter fun t => !t.isPragma && t ∈ ts) := by
  have hInjective : ∀ s ∈ stream, ∀ t ∈ stream, s.index = t.index → s = t := by
    have hIndices : (stream.map (·.index)).Nodup := List.pairwise_map.mpr (hStream.imp Nat.ne_of_lt)
    exact fun s hs t ht => List.inj_on_of_nodup_map hIndices hs ht
  have hPerm : (ts.filter (!·.isPragma)).Perm (stream.filter fun t => !t.isPragma && t ∈ ts) := by
    refine (List.perm_ext_iff_of_nodup (hNodup.of_map.filter _) (hStream.nodup.filter _)).mpr fun t => ?_
    rw [List.mem_filter, List.mem_filter, Bool.and_eq_true, decide_eq_true_eq]
    constructor
    · intro h
      exact ⟨hMem t h.1, h.2, h.1⟩
    · intro h
      exact ⟨h.2.2, h.2.1⟩
  have hSorted : ((ts.filter (!·.isPragma)).mergeSort Token.before).Pairwise fun s t => Token.before s t = true := by
    refine List.pairwise_mergeSort ?_ ?_ _
    · intro s t r hst htr
      simp only [Token.before, decide_eq_true_eq] at hst htr ⊢
      exact Nat.le_trans hst htr
    · intro s t
      simp only [Token.before, Bool.or_eq_true, decide_eq_true_eq]
      exact Nat.le_total _ _
  rw [Token.render]
  congr 1
  refine List.Perm.eq_of_pairwise ?_ hSorted ?_ ((List.mergeSort_perm _ _).trans hPerm)
  · intro s t hs ht hst hts
    simp only [Token.before, decide_eq_true_eq] at hst hts
    have hs' := (List.mem_filter.mp ((List.mem_mergeSort).mp hs)).1
    exact hInjective s (hMem s hs') t (List.mem_filter.mp ht).1 (Nat.le_antisymm hst hts)
  · refine (hStream.filter _).imp fun hLt => ?_
    simp only [Token.before, decide_eq_true_eq]
    exact Nat.le_of_lt hLt

end Render

namespace Statistics

/-- One of the fragments of counted classes occurs in the name of a class. -/
def HasFragment (className : String) : Prop :=
  ∃ fragment ∈ countedFragments, ∃ before after, className = before ++ fragment ++ after

theorem isCounted_iff {className : String} : isCounted className = true ↔ HasFragment className := by
  unfold isCounted HasFragment Text.occursIn
  rw [List.any_eq_true]
  refine exists_congr fun fragment => and_congr_right fun _ => ?_
  rw [Text.occursInChars_iff]
  constructor
  · intro h
    obtain ⟨before, after, h⟩ := h
    refine ⟨String.ofList before, String.ofList after, String.toList_inj.mp ?_⟩
    simp [h]
  · intro h
    obtain ⟨before, after, rfl⟩ := h
    exact ⟨before.toList, after.toList, by simp⟩

instance (className : String) : Decidable (HasFragment className) := decidable_of_iff _ isCounted_iff

theorem hasFragment_of_refined {className : String} (h : className ∈ refinedClasses) : HasFragment className := by
  apply isCounted_iff.mp
  revert className
  decide

end Statistics

open Statistics

namespace Arena

/-- The node is a statement of a class. -/
def isClass (a : Arena) (className : String) (x : NodeId) : Bool := (a.stmt? x).any (·.name = className)

/-- The node is an operator whose class and whose tokens' kinds, joined by underscores, spell the name. -/
def isRefined (a : Arena) (name : String) (x : NodeId) : Bool :=
  (a.stmt? x).any fun n => n.name ∈ ["BinaryOperator", "UnaryOperator"] ∧
    n.name ++ "_" ++ String.intercalate "_" (n.tokens.map (·.kind)) = name

/-- The names that are counted below a node, one after another. -/
def namesCounted (a : Arena) (root : NodeId) : List String :=
  (a.subtree root).flatMap fun x => ((a.stmt? x).map countedNames).getD []

/-- How often a name is spelled below a node: by a statement of a counted class, or by an operator together with
the kinds of its tokens. -/
def occurrences (a : Arena) (root : NodeId) (name : String) : Nat :=
  (a.subtree root).countP (fun x => HasFragment name ∧ a.isClass name x) + (a.subtree root).countP (a.isRefined name)

/-- A way down from a node over statements. -/
inductive Descent (a : Arena) : NodeId → List NodeId → Prop
  | stop {x : NodeId} {n : StmtNode} : a.stmt? x = some n → Descent a x [x]
  | step {x y : NodeId} {n : StmtNode} {path : List NodeId} :
      a.stmt? x = some n → y ∈ n.children → Descent a y path → Descent a x (x :: path)

variable {a : Arena} {root x : NodeId} {className : String} {path : List NodeId} {depth : Nat}

section Counts

theorem count_countedNames (n : StmtNode) (name : String) : (countedNames n).count name =
    (if HasFragment name ∧ n.name = name then 1 else 0) +
      if n.name ∈ refinedClasses ∧ refinedName n = name then 1 else 0 := by
  by_cases hRefined : n.name ∈ refinedClasses
  · have hFragment := hasFragment_of_refined hRefined
    by_cases hName : n.name = name
    · subst hName
      simp [countedNames, isCounted_iff.mpr hFragment, hFragment, hRefined, List.count_cons]
      omega
    · simp [countedNames, isCounted_iff.mpr hFragment, hRefined, List.count_cons, hName]
  · by_cases hName : n.name = name
    · subst hName
      by_cases hFragment : HasFragment n.name <;> simp [countedNames, isCounted_iff, hFragment, hRefined]
    · by_cases hCounted : isCounted n.name = true <;> simp [countedNames, hCounted, hRefined, hName]

theorem count_namesCounted (a : Arena) (root : NodeId) (name : String) :
    (a.namesCounted root).count name = a.occurrences root name := by
  unfold namesCounted occurrences
  induction a.subtree root with
  | nil => rfl
  | cons x xs ih =>
      rw [List.flatMap_cons, List.count_append, ih, List.countP_cons, List.countP_cons]
      cases hNode : a.stmt? x with
      | none => simp [isClass, isRefined, hNode]
      | some n =>
          have hClass : (HasFragment name ∧ a.isClass name x = true) ↔ HasFragment name ∧ n.name = name := by
            simp [isClass, hNode]
          have hRefined : a.isRefined name x = true ↔ n.name ∈ refinedClasses ∧ refinedName n = name := by
            simp [isRefined, hNode, refinedClasses, refinedName]
          simp only [Option.map_some, Option.getD_some, count_countedNames, decide_eq_true_eq, hClass, hRefined]
          omega

end Counts

section Depth

/-- A way down goes over nodes of the subtree, in its order. -/
theorem Descent.sublist (h : a.Descent root path) (hAcyclic : a.AcyclicBelow root) :
    path.Sublist (a.subtree root) := by
  induction h with
  | stop _ =>
      rw [hAcyclic.subtree_eq]
      exact .cons_cons _ (List.nil_sublist _)
  | step hNode hChild _ ih =>
      have hBelow := below_iff.mpr ⟨_, hNode, hChild⟩
      rw [hAcyclic.subtree_eq, List.flatMap]
      refine .cons_cons _ ((ih (hAcyclic.of_below hBelow)).trans (List.sublist_flatten_of_mem ?_))
      exact List.mem_map_of_mem hBelow

theorem Descent.trail (h : a.Descent root path) : path.Pairwise (Relation.TransGen a.Below) ∧
    ∀ y ∈ path, Relation.ReflTransGen a.Below root y ∧ y ∈ a.ids := by
  induction h with
  | stop hNode =>
      exact ⟨List.pairwise_singleton _ _, List.forall_mem_singleton.mpr ⟨.refl, mem_ids_of_stmt hNode⟩⟩
  | step hNode hChild _ ih =>
      have hBelow := below_iff.mpr ⟨_, hNode, hChild⟩
      refine ⟨List.pairwise_cons.mpr ⟨fun z hz => .head' hBelow (ih.2 z hz).1, ih.1⟩, ?_⟩
      intro z hz
      rcases List.mem_cons.mp hz with rfl | hz
      · exact ⟨.refl, mem_ids_of_stmt hNode⟩
      · exact ⟨.head hBelow (ih.2 z hz).1, (ih.2 z hz).2⟩

theorem nestingWithin_succ {n : StmtNode} (hNode : a.stmt? x = some n) :
    a.nestingWithin className (depth + 1) x = (if a.isClass className x then 1 else 0) +
      (n.children.map (a.nestingWithin className depth)).foldr max 0 := by
  simp [nestingWithin, isClass, hNode]

theorem nestingWithin_of_none (hNode : a.stmt? x = none) : a.nestingWithin className depth x = 0 := by
  cases depth <;> simp [nestingWithin, hNode]

theorem isGreatest_foldr_max (xs : List Nat) : IsGreatest {m | m ∈ 0 :: xs} (xs.foldr max 0) := by
  induction xs with
  | nil => exact ⟨List.mem_singleton_self 0, fun m hm => Nat.le_of_eq (List.mem_singleton.mp hm)⟩
  | cons x xs ih =>
      obtain ⟨hMem, hUpper⟩ := ih
      have hMax : (x :: xs).foldr max 0 = max x (xs.foldr max 0) := rfl
      rw [hMax]
      constructor
      · rcases Nat.le_total x (xs.foldr max 0) with hle | hle
        · rw [Nat.max_eq_right hle]
          exact List.mem_cons.mpr ((List.mem_cons.mp hMem).imp id (List.mem_cons_of_mem x))
        · rw [Nat.max_eq_left hle]
          exact List.mem_cons_of_mem 0 List.mem_cons_self
      · intro m hm
        rcases List.mem_cons.mp hm with rfl | hm
        · exact Nat.zero_le _
        · rcases List.mem_cons.mp hm with rfl | hm
          · exact Nat.le_max_left _ _
          · exact Nat.le_trans (hUpper (List.mem_cons_of_mem 0 hm)) (Nat.le_max_right _ _)

theorem Descent.countP_le (h : a.Descent root path) (hDepth : path.length ≤ depth) :
    path.countP (a.isClass className) ≤ a.nestingWithin className depth root := by
  induction h generalizing depth with
  | stop hNode =>
      obtain ⟨depth, rfl⟩ : ∃ d, depth = d + 1 := ⟨depth - 1, by simp at hDepth; omega⟩
      rw [nestingWithin_succ hNode, List.countP_singleton]
      exact Nat.le_add_right _ _
  | @step x y n path hNode hChild _ ih =>
      obtain ⟨depth, rfl⟩ : ∃ d, depth = d + 1 := ⟨depth - 1, by simp at hDepth; omega⟩
      have hBelow := ih (Nat.le_of_succ_le_succ hDepth)
      have hMax := (isGreatest_foldr_max (n.children.map (a.nestingWithin className depth))).2
        (List.mem_cons_of_mem 0 (List.mem_map_of_mem hChild))
      rw [nestingWithin_succ hNode, List.countP_cons]
      omega

theorem exists_descent {n : StmtNode} (hNode : a.stmt? root = some n) (hDepth : 0 < depth) :
    ∃ path, a.Descent root path ∧ path.countP (a.isClass className) = a.nestingWithin className depth root := by
  induction depth generalizing root n with
  | zero => cases hDepth
  | succ depth ih =>
      have hMax := (isGreatest_foldr_max (n.children.map (a.nestingWithin className depth))).1
      rw [nestingWithin_succ hNode]
      rcases List.mem_cons.mp hMax with hZero | hChild
      · exact ⟨[root], .stop hNode, by rw [hZero, List.countP_singleton, Nat.add_zero]⟩
      · obtain ⟨y, hy, hValue⟩ := List.mem_map.mp hChild
        rw [← hValue]
        -- A child at which nothing is counted adds nothing to the statement itself.
        by_cases hZero : a.nestingWithin className depth y = 0
        · exact ⟨[root], .stop hNode, by rw [hZero, List.countP_singleton, Nat.add_zero]⟩
        · obtain ⟨m, hm⟩ := Option.ne_none_iff_exists'.mp fun h => hZero (nestingWithin_of_none h)
          have hPositive : 0 < depth := Nat.pos_of_ne_zero fun h => hZero (by rw [h, nestingWithin])
          obtain ⟨path, hPath, hCount⟩ := ih hm hPositive
          refine ⟨root :: path, .step hNode hy hPath, ?_⟩
          rw [List.countP_cons, hCount, Nat.add_comm]

theorem AcyclicBelow.isGreatest_nestingDepth (h : a.AcyclicBelow root) {n : StmtNode}
    (hNode : a.stmt? root = some n) (className : String) :
    IsGreatest {k | ∃ path, a.Descent root path ∧ path.countP (a.isClass className) = k}
      (a.nestingDepth className root) := by
  have hPositive : 0 < a.size := by
    have hLength := List.length_pos_of_mem (mem_ids_of_stmt hNode)
    simpa [ids] using hLength
  refine ⟨exists_descent hNode hPositive, fun k hk => ?_⟩
  obtain ⟨path, hPath, rfl⟩ := hk
  exact hPath.countP_le (h.length_le hPath.trail.1 hPath.trail.2)

end Depth

/-- For every arena, every node with no cycle below it and every class. The keys of the counts are in strict order,
so that no key occurs twice. -/
theorem statistics_consistent (a : Arena) {root : NodeId} (h : a.AcyclicBelow root) (className : String) :
    (a.stmt? root = none → a.nestingDepth className root = 0) ∧
    (a.stmt? root ≠ none →
      IsGreatest {k | ∃ path, a.Descent root path ∧ path.countP (a.isClass className) = k}
        (a.nestingDepth className root)) ∧
    (∀ name, ((a.statementCounts root).lookup name).getD 0 = a.occurrences root name ∧
      (name ∈ (a.statementCounts root).map (·.1) ↔ 0 < a.occurrences root name)) ∧
    ((a.statementCounts root).map (·.1)).Pairwise (fun name name' =>
      (a.namesCounted root).idxOf name < (a.namesCounted root).idxOf name') ∧
    (HasFragment className →
      a.nestingDepth className root ≤ ((a.statementCounts root).lookup className).getD 0) := by
  have hCounts : a.statementCounts root = tally (a.namesCounted root) := rfl
  have hLookup : ∀ name, ((a.statementCounts root).lookup name).getD 0 = a.occurrences root name := by
    intro name
    rw [hCounts, lookup_tally, count_namesCounted]
  refine ⟨nestingWithin_of_none, ?_, fun name => ⟨hLookup name, ?_⟩, pairwise_tally _, ?_⟩
  · intro hNode
    obtain ⟨n, hn⟩ := Option.ne_none_iff_exists'.mp hNode
    exact h.isGreatest_nestingDepth hn className
  · rw [hCounts, map_fst_tally, List.mem_eraseDups, ← count_namesCounted, List.count_pos_iff]
  · intro hFragment
    rw [hLookup]
    cases hNode : a.stmt? root with
    | none =>
        rw [nestingDepth, nestingWithin_of_none hNode]
        exact Nat.zero_le _
    | some n =>
        -- A deepest way down is part of the subtree, and every one of its statements is counted.
        obtain ⟨⟨path, hPath, hCount⟩, -⟩ := h.isGreatest_nestingDepth hNode className
        have hle := (hPath.sublist h).countP_le (p := a.isClass className)
        have hCounted : (fun x => decide (HasFragment className ∧ a.isClass className x = true)) =
            a.isClass className := by
          simp [hFragment]
        rw [← hCount, occurrences, hCounted]
        exact Nat.le_trans hle (Nat.le_add_right _ _)

theorem statistics_consistent_shared : sharedSum.AcyclicBelow ⟨0⟩ ∧
    sharedSum.statementCounts ⟨0⟩ =
      [("ForStmt", 1), ("BinaryOperator", 2), ("BinaryOperator_plus", 2), ("DeclRefExpr", 3)] ∧
    sharedSum.occurrences ⟨0⟩ "BinaryOperator_plus" = 2 ∧
    sharedSum.nestingDepth "BinaryOperator" ⟨0⟩ = 1 ∧
    (∃ path, sharedSum.Descent ⟨0⟩ path ∧ path.countP (sharedSum.isClass "BinaryOperator") = 1) ∧
    sharedSum.nestingDepth "BinaryOperator" ⟨0⟩ ≤
      ((sharedSum.statementCounts ⟨0⟩).lookup "BinaryOperator").getD 0 := by
  obtain ⟨-, hDepth, hCounts, -, hBound⟩ := statistics_consistent sharedSum sharedSum_acyclic "BinaryOperator"
  have hValue : sharedSum.nestingDepth "BinaryOperator" ⟨0⟩ = 1 := by decide +kernel
  refine ⟨sharedSum_acyclic, by decide +kernel, ?_, hValue, ?_, hBound (by decide +kernel)⟩
  · rw [← (hCounts _).1]
    decide +kernel
  · have hGreatest := hDepth (by decide)
    rw [hValue] at hGreatest
    exact hGreatest.1

end Arena

end UnitGraph
