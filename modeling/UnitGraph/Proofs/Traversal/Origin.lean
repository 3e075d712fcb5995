import UnitGraph.Traversal.Entered

/-!
# Where the events of a traversal come from

A mark is met once for every line that leaves it, in the agenda worked off or in that of an element
entered. An element is entered because something asked for it, so whatever holds of the elements asked for
and passes from an element to those it asks for holds of everything entered. Elements that no agenda asks
for are entered in the order in which the agenda worked off asks for them.
-/
namespace UnitGraph.Traversal

variable {α β : Type}

/-- The marks that an agenda leaves itself. -/
def itemMarks (items : List (Item α β)) : List β :=
  items.filterMap fun | .visit _ => none | .mark b => some b

@[simp] theorem itemMarks_nil : itemMarks ([] : List (Item α β)) = [] := rfl
@[simp] theorem itemMarks_cons_visit (a : α) (items : List (Item α β)) :
    itemMarks (.visit a :: items) = itemMarks items := rfl
@[simp] theorem itemMarks_cons_mark (b : β) (items : List (Item α β)) :
    itemMarks (.mark b :: items) = b :: itemMarks items := rfl
@[simp] theorem itemMarks_append (xs ys : List (Item α β)) :
    itemMarks (xs ++ ys) = itemMarks xs ++ itemMarks ys := List.filterMap_append ..

theorem itemMarks_flatMap {γ : Type} (xs : List γ) (f : γ → List (Item α β)) :
    itemMarks (xs.flatMap f) = xs.flatMap fun x => itemMarks (f x) :=
  List.filterMap_flatMap ..

theorem requested_flatMap {γ : Type} (xs : List γ) (f : γ → List (Item α β)) :
    requested (xs.flatMap f) = xs.flatMap fun x => requested (f x) :=
  List.filterMap_flatMap ..

@[simp] theorem itemMarks_map_visit {γ : Type} (f : γ → α) (xs : List γ) :
    itemMarks (xs.map fun x => (Item.visit (f x) : Item α β)) = [] := by
  induction xs with
  | nil => rfl
  | cons x xs ih => simpa using ih

@[simp] theorem requested_map_visit {γ : Type} (f : γ → α) (xs : List γ) :
    requested (xs.map fun x => (Item.visit (f x) : Item α β)) = xs.map f := by
  induction xs with
  | nil => rfl
  | cons x xs ih => simpa using ih

@[simp] theorem requested_map_mark {γ : Type} (f : γ → β) (xs : List γ) :
    requested (xs.map fun x => (Item.mark (f x) : Item α β)) = [] := by
  induction xs with
  | nil => rfl
  | cons x xs ih => simpa using ih

@[simp] theorem requested_nil : requested ([] : List (Item α β)) = [] := rfl

@[simp] theorem itemMarks_visits (as : List α) : itemMarks (as.map (Item.visit (β := β))) = [] :=
  itemMarks_map_visit id as

@[simp] theorem requested_visits (as : List α) : requested (as.map (Item.visit (β := β))) = as :=
  (requested_map_visit id as).trans (List.map_id as)

/-- Taken by kind, the events are the elements entered and the marks met. -/
theorem flatMap_events_perm {γ : Type} (events : List (Event α β)) (f : Event α β → List γ) :
    (events.flatMap f).Perm
      ((entered events).flatMap (fun a => f (.entered a)) ++ (marks events).flatMap fun b => f (.marked b)) := by
  induction events with
  | nil => exact .refl _
  | cons v events ih =>
      cases v with
      | entered a => simpa using ih.append_left (f (.entered a))
      | marked b =>
          simp only [List.flatMap_cons, entered_cons_marked, marks_cons_marked]
          exact (ih.append_left _).trans (List.perm_append_comm_assoc ..)

variable [DecidableEq α] {agenda : α → List (Item α β)} {pool : List α}

theorem marks_run_perm (hc : Closed agenda pool) {seen : List α} {items : List (Item α β)}
    (hr : ∀ b ∈ requested items, b ∈ pool) :
    (marks (run agenda pool seen items)).Perm (itemMarks items ++
      (entered (run agenda pool seen items)).flatMap fun a => itemMarks (agenda a)) := by
  refine run_induction hc (motive := fun seen items =>
      (marks (run agenda pool seen items)).Perm (itemMarks items ++
        (entered (run agenda pool seen items)).flatMap fun a => itemMarks (agenda a)))
    ?nil ?mark ?again ?enter seen items hr
  case nil =>
      intro seen
      exact .refl _
  case mark =>
      intro seen b rest ih
      simpa [run_mark] using ih
  case again =>
      intro seen a rest hs ih
      simpa [run_visit_seen agenda pool hs] using ih
  case enter =>
      intro seen a rest ha hs ihBody ihRest
      rw [run_visit hc ha hs]
      simp only [marks_cons_entered, marks_append, entered_cons_entered, entered_append,
        itemMarks_cons_visit, List.flatMap_cons, List.flatMap_append]
      -- the marks of the new element stand before those of the rest, whichever list they come from
      refine (ihBody.append ihRest).trans ?_
      rw [List.append_assoc, ← List.append_assoc (itemMarks (agenda a))]
      refine (List.perm_append_comm_assoc _ _ _).trans ?_
      rw [List.append_assoc]

/-- A property of everything asked for at the beginning that passes on to whatever is asked for next
holds of everything entered. -/
theorem forall_entered_run (hc : Closed agenda pool) {P : α → Prop}
    (hp : ∀ a, P a → ∀ b ∈ requested (agenda a), P b) {seen : List α} {items : List (Item α β)}
    (hr : ∀ b ∈ requested items, b ∈ pool) (hi : ∀ b ∈ requested items, P b) :
    ∀ a ∈ entered (run agenda pool seen items), P a := by
  refine run_induction hc (motive := fun seen items => (∀ b ∈ requested items, P b) →
      ∀ a ∈ entered (run agenda pool seen items), P a)
    ?nil ?mark ?again ?enter seen items hr hi
  case nil =>
      intro seen hi
      simp
  case mark =>
      intro seen b rest ih hi
      simpa [run_mark] using ih hi
  case again =>
      intro seen a rest hs ih hi
      simpa [run_visit_seen agenda pool hs] using ih fun b hb => hi b (by simp [hb])
  case enter =>
      intro seen a rest ha hs ihBody ihRest hi
      have hpa : P a := hi a (by simp)
      have hBody := ihBody (hp a hpa)
      have hRest := ihRest fun b hb => hi b (by simp [hb])
      intro x hx
      simp only [run_visit hc ha hs, entered_cons_entered, entered_append, List.mem_cons,
        List.mem_append] at hx
      rcases hx with rfl | hx | hx
      · exact hpa
      · exact hBody x hx
      · exact hRest x hx

/-- Elements that no agenda asks for are entered just where the agenda worked off asks for them. -/
theorem filter_entered_run (hc : Closed agenda pool) {p : α → Bool}
    (hp : ∀ a, ∀ b ∈ requested (agenda a), p b = false) {seen : List α} {items : List (Item α β)}
    (hr : ∀ b ∈ requested items, b ∈ pool) (hd : ((requested items).filter p).Nodup)
    (hs : ∀ a ∈ seen, p a = true → a ∉ requested items) :
    (entered (run agenda pool seen items)).filter p = (requested items).filter p := by
  have hNone : ∀ seen a, a ∈ pool → ∀ x ∈ entered (run agenda pool seen (agenda a)), p x = false := by
    intro seen a ha
    exact forall_entered_run hc (P := fun x => p x = false) (fun a _ => hp a) (hc a ha) (hp a)
  refine run_induction hc (motive := fun seen items => ((requested items).filter p).Nodup →
      (∀ a ∈ seen, p a = true → a ∉ requested items) →
      (entered (run agenda pool seen items)).filter p = (requested items).filter p)
    ?nil ?mark ?again ?enter seen items hr hd hs
  case nil =>
      intro seen hd hs
      rfl
  case mark =>
      intro seen b rest ih hd hs
      simpa [run_mark] using ih hd hs
  case again =>
      intro seen a rest ha ih hd hs
      have hpa : p a = false := by
        cases h : p a with
        | false => rfl
        | true => exact absurd (by simp) (hs a ha h)
      simp only [requested_cons_visit, List.filter_cons, hpa] at hd ⊢
      rw [run_visit_seen agenda pool ha]
      exact ih hd fun b hb hpb hr => hs b hb hpb (by simp [hr])
  case enter =>
      intro seen a rest ha hn ihBody ihRest hd hs
      have hBody := hNone (a :: seen) a ha
      have hFilter : (entered (run agenda pool (a :: seen) (agenda a))).filter p = [] :=
        List.filter_eq_nil_iff.mpr fun x hx => by simp [hBody x hx]
      rw [run_visit hc ha hn]
      simp only [entered_cons_entered, entered_append, requested_cons_visit, List.filter_cons,
        List.filter_append, hFilter, List.nil_append] at hd ⊢
      have hTail : ((requested rest).filter p).Nodup := by
        split at hd
        · exact (List.nodup_cons.mp hd).2
        · exact hd
      rw [ihRest hTail]
      intro x hx hpx hxr
      simp only [List.mem_append, List.mem_reverse, List.mem_cons] at hx
      rcases hx with hx | rfl | hx
      · simp [hBody x hx] at hpx
      · rw [if_pos hpx] at hd
        exact (List.nodup_cons.mp hd).1 (List.mem_filter.mpr ⟨hxr, hpx⟩)
      · exact hs x hx hpx (by simp [hxr])

end UnitGraph.Traversal
