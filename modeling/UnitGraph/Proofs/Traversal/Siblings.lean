import UnitGraph.Proofs.Traversal.Order
import UnitGraph.Proofs.Traversal.Reach

/-!
# In which order a traversal enters what one element alone asks for

Such an element is entered after the one that asks for it, and after whatever can be reached from the lines
that stand before its own on the agenda, along elements that are entered after that one too.
-/
namespace UnitGraph.Traversal

variable {α β : Type} {agenda : α → List (Item α β)} {pool seen : List α} {items : List (Item α β)} {a b c x : α}

/-- Nothing but one element asks for another. -/
structure OnlyAsks (agenda : α → List (Item α β)) (items : List (Item α β)) (a b : α) : Prop where
  items : b ∉ requested items
  agendas : ∀ x, b ∈ requested (agenda x) → x = a

theorem ReachesOutside.not_mem (h : ReachesOutside agenda seen a b) : b ∉ seen := by
  rcases Relation.ReflTransGen.cases_tail h.2 with rfl | ⟨_, _, hStep⟩
  · exact h.1
  · exact hStep.2

variable [DecidableEq α]

/-- The events of an element that is entered: its own agenda is worked off right behind it, given what was entered
before. -/
theorem exists_body (hc : Closed agenda pool) (hr : ∀ b ∈ requested items, b ∈ pool)
    (ha : a ∈ entered (run agenda pool seen items)) : ∃ seen' before after,
      run agenda pool seen items = before ++ .entered a :: (run agenda pool (a :: seen') (agenda a) ++ after) ∧
      a ∉ seen' ∧ ∀ x, x ∈ seen' ↔ x ∈ seen ∨ x ∈ entered before := by
  refine run_induction hc (motive := fun seen items => a ∈ entered (run agenda pool seen items) →
      ∃ seen' before after,
        run agenda pool seen items = before ++ .entered a :: (run agenda pool (a :: seen') (agenda a) ++ after) ∧
        a ∉ seen' ∧ ∀ x, x ∈ seen' ↔ x ∈ seen ∨ x ∈ entered before)
    ?nil ?mark ?again ?enter seen items hr ha
  case nil =>
      intro seen ha
      cases ha
  case mark =>
      intro seen m rest ih ha
      rw [run_mark] at ha ⊢
      obtain ⟨seen', before, after, hRun, hNew, hSeen⟩ := ih ha
      exact ⟨seen', .marked m :: before, after, by rw [hRun, List.cons_append], hNew, hSeen⟩
  case again =>
      intro seen x rest hs ih ha
      rw [run_visit_seen agenda pool hs] at ha ⊢
      exact ih ha
  case enter =>
      intro seen x rest hPool hs ihBody ihRest ha
      rw [run_visit hc hPool hs, entered_cons_entered, entered_append, List.mem_cons, List.mem_append] at ha
      rw [run_visit hc hPool hs]
      rcases ha with rfl | ha | ha
      · exact ⟨seen, [], _, rfl, hs, by simp⟩
      · obtain ⟨seen', before, after, hRun, hNew, hSeen⟩ := ihBody ha
        let seenLater := (entered (run agenda pool (x :: seen) (agenda x))).reverse ++ x :: seen
        refine ⟨seen', .entered x :: before, after ++ run agenda pool seenLater rest, ?_, hNew, fun y => ?_⟩
        · change .entered x :: (_ ++ run agenda pool seenLater rest) = _
          rw [hRun]
          simp only [List.append_assoc, List.cons_append]
        · rw [hSeen, entered_cons_entered, List.mem_cons, List.mem_cons]
          tauto
      · obtain ⟨seen', before, after, hRun, hNew, hSeen⟩ := ihRest ha
        refine ⟨seen', .entered x :: (run agenda pool (x :: seen) (agenda x) ++ before), after, ?_, hNew, fun y => ?_⟩
        · rw [hRun]
          simp only [List.append_assoc, List.cons_append]
        · rw [hSeen, entered_cons_entered, entered_append, List.mem_append, List.mem_reverse, List.mem_cons,
            List.mem_cons, List.mem_append]
          tauto

namespace OnlyAsks

variable (hc : Closed agenda pool) (hr : ∀ b ∈ requested items, b ∈ pool)
include hc hr

/-- It has asked by the time that the other is entered. -/
theorem mem_before (h : OnlyAsks agenda items a b) {before after : List (Event α β)}
    (hRun : run agenda pool [] items = before ++ .entered b :: after) : a ∈ entered before := by
  rcases asked_before hc hr hRun with hItem | ⟨x, hx, hAsked⟩
  · exact absurd (mem_requested_iff.mpr hItem) h.items
  · rwa [← h.agendas x (mem_requested_iff.mpr hAsked)]

theorem precedes (h : OnlyAsks agenda items a b) (hb : b ∈ entered (run agenda pool [] items)) :
    Precedes (entered (run agenda pool [] items)) a b := by
  have hNodup : (entered (run agenda pool [] items)).Nodup := (entered_run_nodup hc hr).1
  obtain ⟨before, after, hRun⟩ := List.append_of_mem (mem_entered_iff.mp hb)
  rw [hRun, entered_append, entered_cons_entered] at hNodup ⊢
  refine precedes_of_append _ (h.mem_before hc hr hRun) fun hMem => ?_
  exact (List.nodup_append.mp hNodup).2.2 b hMem b List.mem_cons_self rfl

/-- What is reached from earlier lines of the same agenda is entered first. -/
theorem precedes_of_earlier (h : OnlyAsks agenda items a c) (ha : a ∈ entered (run agenda pool [] items))
    {init rest : List (Item α β)} (hAgenda : agenda a = init ++ rest) (hc' : c ∉ requested init)
    (hb : b ∈ requested init) (hFirst : Precedes (entered (run agenda pool [] items)) a b)
    (hReach : Relation.ReflTransGen (fun y z => z ∈ requested (agenda y) ∧
      Precedes (entered (run agenda pool [] items)) a z) b x) :
    Precedes (entered (run agenda pool [] items)) x c := by
  have hPool : ∀ y ∈ requested init, y ∈ pool := by
    intro y hy
    refine hc a (forall_entered_run hc (P := (· ∈ pool)) hc hr hr a ha) y ?_
    rw [hAgenda, requested_append]
    exact List.mem_append_left _ hy
  have hNotSelf : c ≠ a := by
    rintro rfl
    exact Nat.lt_irrefl _ (h.precedes hc hr ha)
  obtain ⟨seen, before, after, hRun, hNew, hSeen⟩ := exists_body hc hr ha
  simp only [List.not_mem_nil, false_or] at hSeen
  have hEntered : entered (run agenda pool [] items) =
      (entered before ++ a :: entered (run agenda pool (a :: seen) init)) ++
        (entered (run agenda pool ((entered (run agenda pool (a :: seen) init)).reverse ++ a :: seen) rest) ++
          entered after) := by
    rw [hRun, hAgenda, run_append]
    simp
  -- What comes after the element has not been entered when its agenda is taken up.
  have hOutside : ∀ z, Precedes (entered (run agenda pool [] items)) a z → z ∉ a :: seen := by
    intro z hz hMem
    rcases List.mem_cons.mp hMem with rfl | hMem
    · exact Nat.lt_irrefl _ hz
    · have hBack : Precedes (entered (run agenda pool [] items)) z a := by
        rw [hEntered, List.append_assoc]
        exact precedes_of_append _ ((hSeen z).mp hMem) (mt (hSeen a).mpr hNew)
      exact Nat.lt_asymm hz hBack
  have hx : x ∈ entered (run agenda pool (a :: seen) init) := by
    refine (mem_entered_iff_reaches hc hPool).mpr ⟨b, hb, hOutside b hFirst, ?_⟩
    exact Relation.ReflTransGen.mono (fun _ z hStep => ⟨hStep.1, hOutside z hStep.2⟩) _ _ hReach
  rw [hEntered]
  refine precedes_of_append _ (List.mem_append_right _ (List.mem_cons_of_mem a hx)) fun hMem => ?_
  rcases List.mem_append.mp hMem with hBefore | hMem
  · obtain ⟨earlier, later, rfl⟩ := List.append_of_mem (mem_entered_iff.mp hBefore)
    rw [List.append_assoc, List.cons_append] at hRun
    have hAsked := h.mem_before hc hr hRun
    exact hNew ((hSeen a).mpr (by simp [hAsked]))
  · have hMem := (List.mem_cons.mp hMem).resolve_left hNotSelf
    obtain ⟨y, hy, hReach⟩ := (mem_entered_iff_reaches hc hPool).mp hMem
    rcases Relation.ReflTransGen.cases_tail hReach.2 with rfl | ⟨z, hz, hStep⟩
    · exact hc' hy
    · have hNot : z ∉ a :: seen := ReachesOutside.not_mem ⟨hReach.1, hz⟩
      rw [h.agendas z hStep.1] at hNot
      exact hNot List.mem_cons_self

end OnlyAsks

end UnitGraph.Traversal
