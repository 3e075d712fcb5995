import Mathlib.Logic.Relation
import UnitGraph.Proofs.Traversal.Origin

/-!
# What a traversal reaches

While elements are being worked off, others that were entered before may still be in progress, so an agenda
does not enter whatever can be reached at all. Main statement: it enters exactly what can be reached from the
elements that it asks for along elements that had not been entered when it was taken up.
-/
namespace UnitGraph.Traversal

variable {α β : Type}

/-- The second element can be reached from the first along elements outside a list. -/
def ReachesOutside (agenda : α → List (Item α β)) (seen : List α) (a b : α) : Prop :=
  a ∉ seen ∧ Relation.ReflTransGen (fun x y => y ∈ requested (agenda x) ∧ y ∉ seen) a b

variable {agenda : α → List (Item α β)} {pool seen seen' : List α} {items : List (Item α β)} {a b : α}

theorem ReachesOutside.mono (hs : ∀ x ∈ seen, x ∈ seen') (h : ReachesOutside agenda seen' a b) :
    ReachesOutside agenda seen a b :=
  ⟨mt (hs a) h.1, Relation.ReflTransGen.mono (fun _ y hxy => ⟨hxy.1, mt (hs y) hxy.2⟩) _ _ h.2⟩

/-- What an element asks for is reached from it. -/
theorem ReachesOutside.head {x : α} (hx : x ∉ seen) (ha : a ∈ requested (agenda x))
    (h : ReachesOutside agenda seen a b) : ReachesOutside agenda seen x b :=
  ⟨hx, .head ⟨ha, h.1⟩ h.2⟩

variable [DecidableEq α]

theorem reaches_of_mem_entered (hc : Closed agenda pool) (hr : ∀ b ∈ requested items, b ∈ pool) :
    ∀ b ∈ entered (run agenda pool seen items), ∃ a ∈ requested items, ReachesOutside agenda seen a b := by
  refine run_induction hc (motive := fun seen items => ∀ b ∈ entered (run agenda pool seen items),
      ∃ a ∈ requested items, ReachesOutside agenda seen a b)
    ?nil ?mark ?again ?enter seen items hr
  case nil =>
      intro seen
      simp
  case mark =>
      intro seen m rest ih
      simpa [run_mark] using ih
  case again =>
      intro seen x rest hx ih b hb
      rw [run_visit_seen agenda pool hx] at hb
      obtain ⟨a, ha, hReach⟩ := ih b hb
      exact ⟨a, List.mem_cons_of_mem x ha, hReach⟩
  case enter =>
      intro seen x rest hPool hx ihBody ihRest b hb
      simp only [run_visit hc hPool hx, entered_cons_entered, entered_append, List.mem_cons,
        List.mem_append] at hb
      rcases hb with rfl | hb | hb
      · exact ⟨b, List.mem_cons_self, hx, .refl⟩
      · obtain ⟨a, ha, hReach⟩ := ihBody b hb
        exact ⟨x, List.mem_cons_self, (hReach.mono fun _ => List.mem_cons_of_mem x).head hx ha⟩
      · obtain ⟨a, ha, hReach⟩ := ihRest b hb
        refine ⟨a, List.mem_cons_of_mem x ha, hReach.mono fun y hy => ?_⟩
        exact List.mem_append_right _ (List.mem_cons_of_mem x hy)

theorem mem_entered_iff_reaches (hc : Closed agenda pool) (hr : ∀ b ∈ requested items, b ∈ pool) :
    b ∈ entered (run agenda pool seen items) ↔ ∃ a ∈ requested items, ReachesOutside agenda seen a b := by
  constructor
  · exact reaches_of_mem_entered hc hr b
  · rintro ⟨a, ha, hSeen, hReach⟩
    induction hReach with
    | refl => exact (mem_entered_of_requested hc hr a ha).resolve_left hSeen
    | tail _ hStep ih => exact (mem_entered_of_entered hc hr _ ih _ hStep.1).resolve_left hStep.2

end UnitGraph.Traversal
