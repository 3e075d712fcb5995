import UnitGraph.Proofs.Traversal.Origin

/-!
# Marks and the order of entering

Marks have no part in what is entered: the elements entered and their order depend only on what the agendas
ask for. Where every agenda leaves its marks before it asks for anything, the marks of an element are met
right after the element is entered.
-/
namespace UnitGraph.Traversal

variable {α β γ : Type}

/-- An agenda that leaves all its marks before it asks for anything. -/
def MarksFirst (items : List (Item α β)) : Prop :=
  items = (itemMarks items).map .mark ++ (requested items).map .visit

theorem marksFirst_visits (as : List α) : MarksFirst (as.map (Item.visit (β := β))) := by
  rw [MarksFirst, itemMarks_visits, requested_visits]
  rfl

theorem MarksFirst.of_cons_mark {b : β} {items : List (Item α β)} (h : MarksFirst (.mark b :: items)) :
    MarksFirst items :=
  (List.cons.inj h).2

theorem MarksFirst.itemMarks_eq_nil {a : α} {items : List (Item α β)} (h : MarksFirst (.visit a :: items)) :
    itemMarks items = [] := by
  unfold MarksFirst at h
  rw [itemMarks_cons_visit] at h
  cases hMarks : itemMarks items with
  | nil => rfl
  | cons b bs =>
      rw [hMarks] at h
      cases (List.cons.inj h).1

theorem MarksFirst.of_cons_visit {a : α} {items : List (Item α β)} (h : MarksFirst (.visit a :: items)) :
    MarksFirst items := by
  have hMarks := h.itemMarks_eq_nil
  unfold MarksFirst at h ⊢
  rw [itemMarks_cons_visit, hMarks] at h
  rw [hMarks]
  exact (List.cons.inj h).2

variable [DecidableEq α] {agenda : α → List (Item α β)} {pool : List α}

/-- Marks of the agenda worked off have no part in what is entered. -/
theorem entered_run_requested (agenda : α → List (Item α β)) (pool seen : List α)
    (items : List (Item α β)) :
    entered (run agenda pool seen ((requested items).map .visit)) = entered (run agenda pool seen items) := by
  induction items generalizing seen with
  | nil => rfl
  | cons i items ih =>
      cases i with
      | mark b =>
          rw [requested_cons_mark, run_mark, entered_cons_marked]
          exact ih seen
      | visit a =>
          have hCons : ∀ rest : List (Item α β), entered (run agenda pool seen (.visit a :: rest)) =
              entered (run agenda pool seen [.visit a]) ++
                entered (run agenda pool ((entered (run agenda pool seen [.visit a])).reverse ++ seen) rest) := by
            intro rest
            rw [← entered_append, ← run_append]
            rfl
          rw [requested_cons_visit, List.map_cons, hCons ((requested items).map .visit), hCons items, ih]

/-- Agendas that ask for the same elements in the same order enter the same elements in the same order. -/
theorem entered_run_congr {agenda' : α → List (Item α γ)} (hc : Closed agenda pool)
    (h : ∀ a, requested (agenda' a) = requested (agenda a)) {seen : List α} {items : List (Item α β)}
    (hr : ∀ b ∈ requested items, b ∈ pool) {items' : List (Item α γ)}
    (hItems : requested items' = requested items) :
    entered (run agenda' pool seen items') = entered (run agenda pool seen items) := by
  have hc' : Closed agenda' pool := by
    intro a ha b hb
    exact hc a ha b (h a ▸ hb)
  rw [← entered_run_requested agenda', hItems]
  clear hItems
  -- along the run of one agenda; of the other only what it asks for is left
  refine run_induction hc (motive := fun seen items =>
      entered (run agenda' pool seen ((requested items).map .visit)) = entered (run agenda pool seen items))
    ?nil ?mark ?again ?enter seen items hr
  case nil =>
      intro seen
      rfl
  case mark =>
      intro seen b rest ih
      rw [requested_cons_mark, run_mark, entered_cons_marked]
      exact ih
  case again =>
      intro seen a rest hs ih
      rw [requested_cons_visit, List.map_cons, run_visit_seen agenda' pool hs, run_visit_seen agenda pool hs]
      exact ih
  case enter =>
      intro seen a rest ha hs ihBody ihRest
      rw [← h a, entered_run_requested] at ihBody
      rw [requested_cons_visit, List.map_cons, run_visit hc' ha hs, run_visit hc ha hs,
        entered_cons_entered, entered_cons_entered, entered_append, entered_append, ihBody, ihRest]

/-- If every agenda leaves its marks first, each element is followed by its own marks. -/
theorem run_eq_flatMap_entered (hc : Closed agenda pool) (h : ∀ a, MarksFirst (agenda a)) {seen : List α}
    {items : List (Item α β)} (hItems : MarksFirst items) (hr : ∀ b ∈ requested items, b ∈ pool) :
    run agenda pool seen items = (itemMarks items).map .marked ++
      (entered (run agenda pool seen items)).flatMap fun a =>
        .entered a :: (itemMarks (agenda a)).map .marked := by
  refine run_induction hc (motive := fun seen items => MarksFirst items →
      run agenda pool seen items = (itemMarks items).map .marked ++
        (entered (run agenda pool seen items)).flatMap fun a =>
          .entered a :: (itemMarks (agenda a)).map .marked)
    ?nil ?mark ?again ?enter seen items hr hItems
  case nil =>
      intro seen _
      rfl
  case mark =>
      intro seen b rest ih hItems
      rw [run_mark, itemMarks_cons_mark, entered_cons_marked, List.map_cons, List.cons_append,
        ← ih hItems.of_cons_mark]
  case again =>
      intro seen a rest hs ih hItems
      rw [run_visit_seen agenda pool hs, itemMarks_cons_visit]
      exact ih hItems.of_cons_visit
  case enter =>
      intro seen a rest ha hs ihBody ihRest hItems
      -- no mark stands behind a visit, so what follows consists of entered elements and their marks
      have hRest := ihRest hItems.of_cons_visit
      rw [hItems.itemMarks_eq_nil, List.map_nil, List.nil_append] at hRest
      rw [itemMarks_cons_visit, hItems.itemMarks_eq_nil, List.map_nil, List.nil_append, run_visit hc ha hs,
        entered_cons_entered, entered_append, List.flatMap_cons, List.flatMap_append, List.cons_append,
        ← List.append_assoc, ← ihBody (h a), ← hRest]

end UnitGraph.Traversal
