import UnitGraph.Graph.Subtree
import UnitGraph.Proofs.Graph.Walk

/-!
# Subtrees listed with a stack

Main statement: on an arena without cycles below a node, the loop over a stack of pending nodes comes to an end,
and what it lists is the recursive preorder, in which shared nodes occur once for every way down to them.
-/
namespace UnitGraph.Arena

/-- The second node lies directly below the first. -/
def Below (a : Arena) (x y : NodeId) : Prop := y ∈ a.below x

/-- No way down from a node comes back to where it has been. -/
def AcyclicBelow (a : Arena) (root : NodeId) : Prop :=
  ∀ x, Relation.ReflTransGen a.Below root x → ¬ Relation.TransGen a.Below x x

/-- The loop over a stack, with no bound on its steps: the node on top is listed, whatever lies below it goes on
top of the stack, and an empty stack is the end. -/
inductive Unstacks (a : Arena) : List NodeId → List NodeId → Prop
  | nil : Unstacks a [] []
  | cons {x : NodeId} {pending out : List NodeId} :
      Unstacks a (a.below x ++ pending) out → Unstacks a (x :: pending) (x :: out)

/-- Every way down from a node ends after at most so many steps. -/
def EndsWithin (a : Arena) : Nat → NodeId → Prop
  | 0, x => a.below x = []
  | depth + 1, x => ∀ y ∈ a.below x, a.EndsWithin depth y

variable {a : Arena} {root x y : NodeId} {depth depth' : Nat} {stack stack' out out' : List NodeId}

section Stack

theorem Unstacks.unique (h : a.Unstacks stack out) (h' : a.Unstacks stack out') : out = out' := by
  induction h generalizing out' with
  | nil =>
      cases h'
      rfl
  | cons _ ih =>
      cases h' with
      | cons h' => rw [ih h']

/-- A stack is worked off from the top: first what is listed for its upper part. -/
theorem Unstacks.append (h : a.Unstacks stack out) (h' : a.Unstacks stack' out') :
    a.Unstacks (stack ++ stack') (out ++ out') := by
  induction h with
  | nil => exact h'
  | cons _ ih =>
      rw [List.append_assoc] at ih
      exact .cons ih

theorem unstacks_flatMap {f : NodeId → List NodeId} {xs : List NodeId} (h : ∀ x ∈ xs, a.Unstacks [x] (f x)) :
    a.Unstacks xs (xs.flatMap f) := by
  induction xs with
  | nil => exact .nil
  | cons x xs ih =>
      have hRest := ih fun y hy => h y (List.mem_cons_of_mem x hy)
      exact (h x List.mem_cons_self).append hRest

/-- With enough steps the bounded loop lists what the unbounded one does. -/
theorem Unstacks.unstack_eq (h : a.Unstacks stack out) {steps : Nat} (hSteps : out.length ≤ steps) :
    a.unstack steps stack = out := by
  induction h generalizing steps with
  | nil => cases steps <;> rfl
  | cons _ ih =>
      cases steps with
      | zero => exact absurd hSteps (Nat.not_succ_le_zero _)
      | succ steps =>
          rw [unstack, ih (Nat.le_of_succ_le_succ hSteps)]

end Stack

section Depth

theorem EndsWithin.mono (h : a.EndsWithin depth x) (hle : depth ≤ depth') : a.EndsWithin depth' x := by
  induction depth' generalizing depth x with
  | zero =>
      obtain rfl : depth = 0 := by omega
      exact h
  | succ depth' ih =>
      cases depth with
      | zero =>
          intro y hy
          unfold EndsWithin at h
          rw [h] at hy
          cases hy
      | succ depth =>
          intro y hy
          exact ih (h y hy) (by omega)

theorem below_iff : a.Below x y ↔ ∃ n, a.stmt? x = some n ∧ y ∈ n.children := by
  unfold Below below
  cases a.stmt? x <;> simp

theorem mem_ids_of_stmt {n : StmtNode} (hNode : a.stmt? x = some n) : x ∈ a.ids := by
  obtain ⟨m, hm, -⟩ := Option.bind_eq_some_iff.mp hNode
  exact mem_ids_iff.mpr ⟨m, hm⟩

theorem mem_ids_of_below (h : a.Below x y) : x ∈ a.ids := by
  obtain ⟨n, hNode, -⟩ := below_iff.mp h
  exact mem_ids_of_stmt hNode

/-- If not every way down ends in time, one of them is too long. -/
theorem exists_trail (h : ¬ a.EndsWithin depth x) : ∃ trail : List NodeId, trail.length = depth + 1 ∧
    trail.Pairwise (Relation.TransGen a.Below) ∧ ∀ y ∈ trail, Relation.ReflTransGen a.Below x y ∧ y ∈ a.ids := by
  induction depth generalizing x with
  | zero =>
      obtain ⟨y, hy⟩ := List.exists_mem_of_ne_nil _ h
      refine ⟨[x], rfl, List.pairwise_singleton _ _, List.forall_mem_singleton.mpr ⟨.refl, ?_⟩⟩
      exact mem_ids_of_below hy
  | succ depth ih =>
      unfold EndsWithin at h
      push Not at h
      obtain ⟨y, hy, hNot⟩ := h
      obtain ⟨trail, hLength, hDown, hReached⟩ := ih hNot
      have hStep : a.Below x y := hy
      refine ⟨x :: trail, by rw [List.length_cons, hLength], List.pairwise_cons.mpr ⟨?_, hDown⟩, ?_⟩
      · intro z hz
        exact .head' hStep (hReached z hz).1
      · intro z hz
        rcases List.mem_cons.mp hz with rfl | hz
        · exact ⟨.refl, mem_ids_of_below hy⟩
        · exact ⟨.head hStep (hReached z hz).1, (hReached z hz).2⟩

theorem AcyclicBelow.of_reached (h : a.AcyclicBelow root) (hx : Relation.ReflTransGen a.Below root x) :
    a.AcyclicBelow x := by
  intro y hy
  exact h y (hx.trans hy)

theorem AcyclicBelow.of_below (h : a.AcyclicBelow x) (hy : a.Below x y) : a.AcyclicBelow y :=
  h.of_reached (.single hy)

section Rank

variable {rank : NodeId → Nat} (hRank : ∀ x ∈ a.ids, ∀ y ∈ a.below x, rank x < rank y)
include hRank

theorem rank_lt_of_transGen (h : Relation.TransGen a.Below x y) : rank x < rank y := by
  induction h with
  | single hStep => exact hRank _ (mem_ids_of_below hStep) _ hStep
  | tail _ hStep ih => exact Nat.lt_trans ih (hRank _ (mem_ids_of_below hStep) _ hStep)

/-- There are no cycles where a rank grows with every step down. -/
theorem acyclicBelow_of_rank (root : NodeId) : a.AcyclicBelow root :=
  fun _ _ hx => Nat.lt_irrefl _ (rank_lt_of_transGen hRank hx)

end Rank

/-- A way down that never returns has no more nodes than the arena. -/
theorem AcyclicBelow.length_le (h : a.AcyclicBelow root) {trail : List NodeId}
    (hDown : trail.Pairwise (Relation.TransGen a.Below))
    (hReached : ∀ y ∈ trail, Relation.ReflTransGen a.Below root y ∧ y ∈ a.ids) : trail.length ≤ a.size := by
  have hNodup : trail.Nodup := by
    refine hDown.imp_of_mem ?_
    rintro y z hy _ hyz rfl
    exact h y (hReached y hy).1 hyz
  have hle := (List.subperm_of_subset hNodup fun y hy => (hReached y hy).2).length_le
  have hSize : a.ids.length = a.size := by simp [ids]
  omega

theorem AcyclicBelow.endsWithin (h : a.AcyclicBelow root) : a.EndsWithin a.size root := by
  by_contra hNot
  obtain ⟨trail, hLength, hDown, hReached⟩ := exists_trail hNot
  have hle := h.length_le hDown hReached
  omega

theorem unstacks_preorder (h : a.EndsWithin depth x) : a.Unstacks [x] (a.preorder depth x) := by
  induction depth generalizing x with
  | zero =>
      apply Unstacks.cons
      rw [h]
      exact .nil
  | succ depth ih =>
      apply Unstacks.cons
      rw [List.append_nil]
      exact unstacks_flatMap fun y hy => ih (h y hy)

end Depth

section Recursion

/-- The recursive listing, with any bound on the depth that the arena allows for. -/
theorem AcyclicBelow.subtree_eq_preorder (h : a.AcyclicBelow root) (hDepth : a.size ≤ depth) :
    a.subtree root = a.preorder depth root := by
  have hShallow := unstacks_preorder h.endsWithin
  have hDeep := unstacks_preorder (h.endsWithin.mono hDepth)
  unfold subtree
  rw [hShallow.unstack_eq (Nat.le_of_eq (a.length_preorder ..))]
  exact hShallow.unique hDeep

/-- The loop ends by itself, and the subtree is what it has listed. -/
theorem AcyclicBelow.unstacks (h : a.AcyclicBelow root) : a.Unstacks [root] (a.subtree root) := by
  rw [h.subtree_eq_preorder (Nat.le_refl _)]
  exact unstacks_preorder h.endsWithin

theorem AcyclicBelow.subtree_eq (h : a.AcyclicBelow root) :
    a.subtree root = root :: (a.below root).flatMap a.subtree := by
  have hBelow := unstacks_flatMap (f := a.subtree) fun y hy => (h.of_below hy).unstacks
  apply h.unstacks.unique
  apply Unstacks.cons
  rwa [List.append_nil]

/-- Induction from what lies below a node to the node. -/
theorem AcyclicBelow.induction {motive : NodeId → Prop}
    (step : ∀ x, a.AcyclicBelow x → (∀ y, a.Below x y → motive y) → motive x) (h : a.AcyclicBelow root) :
    motive root := by
  have hAll : ∀ depth x, a.EndsWithin depth x → a.AcyclicBelow x → motive x := by
    intro depth
    induction depth with
    | zero =>
        intro x hEnds hx
        refine step x hx fun y hy => ?_
        unfold Below at hy
        rw [hEnds] at hy
        cases hy
    | succ depth ih =>
        intro x hEnds hx
        exact step x hx fun y hy => ih y (hEnds y hy) (hx.of_below hy)
  exact hAll a.size root h.endsWithin h

theorem AcyclicBelow.mem_subtree_iff (h : a.AcyclicBelow root) :
    x ∈ a.subtree root ↔ Relation.ReflTransGen a.Below root x := by
  refine AcyclicBelow.induction
    (motive := fun root => x ∈ a.subtree root ↔ Relation.ReflTransGen a.Below root x) (fun root h ih => ?_) h
  rw [h.subtree_eq, List.mem_cons, List.mem_flatMap, Relation.ReflTransGen.cases_head_iff, eq_comm]
  refine or_congr_right ⟨fun hx => ?_, fun hx => ?_⟩
  · obtain ⟨y, hy, hx⟩ := hx
    exact ⟨y, hy, (ih y hy).mp hx⟩
  · obtain ⟨y, hy, hx⟩ := hx
    exact ⟨y, hy, (ih y hy).mpr hx⟩

/-- A relation that holds down every way and across what lies below one node holds along the whole subtree. -/
theorem AcyclicBelow.pairwise_subtree {r : NodeId → NodeId → Prop} (h : a.AcyclicBelow root)
    (hDown : ∀ x y, Relation.TransGen a.Below x y → r x y)
    (hAcross : ∀ x, (a.below x).Pairwise fun c c' => ∀ y z,
      Relation.ReflTransGen a.Below c y → Relation.ReflTransGen a.Below c' z → r y z) :
    (a.subtree root).Pairwise r := by
  refine AcyclicBelow.induction (motive := fun root => (a.subtree root).Pairwise r) (fun root h ih => ?_) h
  rw [h.subtree_eq, List.pairwise_cons, List.pairwise_flatMap]
  refine ⟨fun y hy => ?_, ih, (hAcross root).imp_of_mem ?_⟩
  · obtain ⟨c, hc, hy⟩ := List.mem_flatMap.mp hy
    exact hDown root y (.head' hc ((h.of_below hc).mem_subtree_iff.mp hy))
  · intro c c' hc hc' hPair y hy z hz
    exact hPair y z ((h.of_below hc).mem_subtree_iff.mp hy) ((h.of_below hc').mem_subtree_iff.mp hz)

end Recursion

/-- For every arena and every node with no cycle below it: the loop ends, and what it lists is the node and then,
one after another, the subtrees of what lies directly below it, however much these share. -/
theorem subtree_preorder (a : Arena) {root : NodeId} (h : a.AcyclicBelow root) :
    a.Unstacks [root] (a.subtree root) ∧
    (∀ depth, a.size ≤ depth → a.subtree root = a.preorder depth root) ∧
    ∀ x, Relation.ReflTransGen a.Below root x →
      (a.subtree x = match a.stmt? x with
        | some n => x :: n.children.flatMap a.subtree
        | none => [x]) ∧
      a.subtreeTokens x = a.tokensOf x ++ (a.below x).flatMap a.subtreeTokens := by
  refine ⟨h.unstacks, fun depth => h.subtree_eq_preorder, fun x hx => ⟨?_, ?_⟩⟩
  · rw [(h.of_reached hx).subtree_eq, below]
    cases a.stmt? x <;> rfl
  · rw [subtreeTokens, (h.of_reached hx).subtree_eq, List.flatMap_cons, List.flatMap_assoc]
    rfl

/-- A sum that a loop evaluates in two places, with one operand that the loop reads as well. -/
def sharedSum : Arena := ⟨#[
  .stmt ⟨"ForStmt", [⟨0, "for", "kw_for", 0⟩], [⟨1⟩, ⟨1⟩, ⟨2⟩], []⟩,
  .stmt ⟨"BinaryOperator", [⟨2, "+", "plus", 5⟩], [⟨2⟩, ⟨3⟩], []⟩,
  .stmt ⟨"DeclRefExpr", [⟨1, "a", "identifier", 4⟩], [], []⟩,
  .decl { name := "b", type := "int", kind := "Var", tokens := [⟨3, "b", "identifier", 6⟩], nameToken := none,
          record := none, typedef := none }]⟩

theorem sharedSum_acyclic : sharedSum.AcyclicBelow ⟨0⟩ := by
  have hRank : ∀ x ∈ sharedSum.ids, ∀ y ∈ sharedSum.below x, x.index < y.index := by decide
  exact acyclicBelow_of_rank hRank ⟨0⟩

theorem subtree_preorder_shared : sharedSum.AcyclicBelow ⟨0⟩ ∧
    sharedSum.subtree ⟨0⟩ = [⟨0⟩, ⟨1⟩, ⟨2⟩, ⟨3⟩, ⟨1⟩, ⟨2⟩, ⟨3⟩, ⟨2⟩] ∧
    (sharedSum.subtreeTokens ⟨0⟩).map (·.name) = ["for", "+", "a", "b", "+", "a", "b", "a"] := by
  obtain ⟨-, hPreorder, hParts⟩ := subtree_preorder sharedSum sharedSum_acyclic
  refine ⟨sharedSum_acyclic, ?_, ?_⟩
  · rw [hPreorder 4 (by decide)]
    decide
  · rw [(hParts ⟨0⟩ .refl).2]
    decide

end UnitGraph.Arena
