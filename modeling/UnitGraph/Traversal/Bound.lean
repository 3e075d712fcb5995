import UnitGraph.Traversal

/-!
# The depth bound of a traversal

On a finite set of elements that no agenda leaves, a bound of as many elements as have not been entered
yet is never met: any two bounds at least that large give the same events. From there on a traversal obeys
an equation without a bound, no element is entered twice, and after it everything asked for has been entered.
-/
namespace UnitGraph.Traversal

variable {α β : Type} [DecidableEq α]

/-- No agenda of an element of the list asks for an element outside the list. -/
def Closed (agenda : α → List (Item α β)) (pool : List α) : Prop :=
  ∀ a ∈ pool, ∀ b ∈ requested (agenda a), b ∈ pool

/-- How many elements of a list have not been entered. -/
def unseen (pool seen : List α) : Nat := pool.countP (· ∉ seen)

theorem unseen_mono {pool seen seen' : List α} (h : ∀ a ∈ seen, a ∈ seen') :
    unseen pool seen' ≤ unseen pool seen := by
  apply List.countP_mono_left
  intro a _ ha
  simp only [decide_eq_true_eq] at ha ⊢
  exact fun hs => ha (h a hs)

theorem unseen_cons_lt {pool seen : List α} {a : α} (hu : a ∈ pool) (hs : a ∉ seen) :
    unseen pool (a :: seen) < unseen pool seen := by
  induction pool with
  | nil => simp at hu
  | cons b bs ih =>
      have hle : unseen bs (a :: seen) ≤ unseen bs seen :=
        unseen_mono fun c hc => List.mem_cons_of_mem a hc
      simp only [unseen, List.countP_cons] at ih hle ⊢
      by_cases hb : b = a
      · subst hb
        rw [if_neg (by simp), if_pos (by simpa using hs)]
        omega
      · have hlt := ih ((List.mem_cons.mp hu).resolve_left fun h => hb h.symm)
        have hiff : b ∈ a :: seen ↔ b ∈ seen := by simp [hb]
        simp only [hiff]
        omega

theorem inSequence_bound {agenda : α → List (Item α β)} {pool : List α} (hc : Closed agenda pool)
    (k : Nat) :
    ∀ (n m : Nat) (seen : List α) (items : List (Item α β)),
      unseen pool seen ≤ k → k ≤ n → k ≤ m → (∀ b ∈ requested items, b ∈ pool) →
      inSequence (expand agenda n) seen items = inSequence (expand agenda m) seen items := by
  induction k using Nat.strongRecOn with
  | ind k ihk =>
      intro n m seen items
      induction items generalizing seen with
      | nil => intros; rfl
      | cons i rest ih =>
          intro hk hn hm hr
          have hi : expand agenda n seen i = expand agenda m seen i := by
            cases i with
            | mark b => simp
            | visit a =>
                by_cases ha : a ∈ seen
                · rw [expand_visit_seen agenda n ha, expand_visit_seen agenda m ha]
                · have hp := hr a (by simp)
                  have hlt := unseen_cons_lt hp ha
                  obtain ⟨n, rfl⟩ := Nat.exists_eq_add_of_le' (show 1 ≤ n by omega)
                  obtain ⟨m, rfl⟩ := Nat.exists_eq_add_of_le' (show 1 ≤ m by omega)
                  simp only [expand, ha, if_false]
                  rw [ihk (k - 1) (by omega) n m (a :: seen) (agenda a) (by omega) (by omega)
                    (by omega) (hc a hp)]
          simp only [inSequence, hi]
          congr 1
          apply ih _ _ hn hm
          · intro b hb
            cases i <;> simp_all
          · exact Nat.le_trans (unseen_mono fun a ha => List.mem_append_right _ ha) hk

@[simp] theorem run_nil (agenda : α → List (Item α β)) (pool seen : List α) :
    run agenda pool seen [] = [] := rfl

theorem run_append (agenda : α → List (Item α β)) (pool seen : List α) (xs ys : List (Item α β)) :
    run agenda pool seen (xs ++ ys) = run agenda pool seen xs ++
      run agenda pool ((entered (run agenda pool seen xs)).reverse ++ seen) ys :=
  inSequence_append ..

theorem run_mark (agenda : α → List (Item α β)) (pool seen : List α) (b : β) (rest : List (Item α β)) :
    run agenda pool seen (.mark b :: rest) = .marked b :: run agenda pool seen rest := by
  simp [run, inSequence]

/-- The equation of a traversal for an element that was entered before. -/
theorem run_visit_seen (agenda : α → List (Item α β)) (pool : List α) {seen : List α} {a : α}
    (h : a ∈ seen) (rest : List (Item α β)) :
    run agenda pool seen (.visit a :: rest) = run agenda pool seen rest := by
  simp [run, inSequence, expand_visit_seen agenda _ h]

/-- The equation of a traversal for an element that is entered now. -/
theorem run_visit {agenda : α → List (Item α β)} {pool : List α} (hc : Closed agenda pool)
    {seen : List α} {a : α} (ha : a ∈ pool) (hs : a ∉ seen) (rest : List (Item α β)) :
    run agenda pool seen (.visit a :: rest) =
      .entered a :: (run agenda pool (a :: seen) (agenda a) ++
        run agenda pool ((entered (run agenda pool (a :: seen) (agenda a))).reverse ++ a :: seen) rest) := by
  have hlt := unseen_cons_lt ha hs
  have hle : unseen pool seen ≤ pool.length := List.countP_le_length
  obtain ⟨n, hn⟩ := Nat.exists_eq_add_of_le' (show 1 ≤ pool.length by omega)
  have hrun : inSequence (expand agenda n) (a :: seen) (agenda a) =
      run agenda pool (a :: seen) (agenda a) :=
    inSequence_bound hc n _ _ _ _ (by omega) (Nat.le_refl n) (by omega) (hc a ha)
  rw [run, inSequence, hn, expand, if_neg hs, hrun, ← hn]
  simp [run]

/-- Induction along a traversal: over the agenda of an element that is entered, and over the rest of an
agenda with everything that was entered before it. -/
theorem run_induction {agenda : α → List (Item α β)} {pool : List α} (hc : Closed agenda pool)
    {motive : List α → List (Item α β) → Prop} (nil : ∀ seen, motive seen [])
    (mark : ∀ seen b rest, motive seen rest → motive seen (.mark b :: rest))
    (again : ∀ seen a rest, a ∈ seen → motive seen rest → motive seen (.visit a :: rest))
    (enter : ∀ seen a rest, a ∈ pool → a ∉ seen → motive (a :: seen) (agenda a) →
      motive ((entered (run agenda pool (a :: seen) (agenda a))).reverse ++ a :: seen) rest →
      motive seen (.visit a :: rest))
    (seen : List α) (items : List (Item α β)) (hr : ∀ b ∈ requested items, b ∈ pool) :
    motive seen items := by
  induction hk : unseen pool seen using Nat.strongRecOn generalizing seen items with
  | ind k ihk =>
      subst hk
      induction items generalizing seen with
      | nil => exact nil seen
      | cons i rest ih =>
          have hrest : ∀ b ∈ requested rest, b ∈ pool := by
            intro b hb
            cases i <;> simp_all
          cases i with
          | mark b => exact mark seen b rest (ih seen hrest ihk)
          | visit a =>
              have ha := hr a (by simp)
              by_cases hs : a ∈ seen
              · exact again seen a rest hs (ih seen hrest ihk)
              · have hlt := unseen_cons_lt ha hs
                refine enter seen a rest ha hs (ihk _ hlt _ _ (hc a ha) rfl) (ihk _ ?_ _ _ hrest rfl)
                exact Nat.lt_of_le_of_lt (unseen_mono fun c hc => List.mem_append_right _ hc) hlt

end UnitGraph.Traversal
