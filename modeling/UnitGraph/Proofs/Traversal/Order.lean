import Mathlib.Data.List.Basic
import Mathlib.Logic.Relation
import UnitGraph.Proofs.Traversal.Origin

/-!
# In which order the events of a traversal happen

Nothing happens that was not asked for before: an event belongs to a line of the agenda worked off or of an
element entered earlier. What stands last in an element's agenda happens after all marks of the elements
that the agenda asks for, except those that lead back to the element and are still being worked off. Marks
that no element's agenda leaves keep the order in which they were asked for.
-/
namespace UnitGraph

section Lists
variable {β : Type} {l l' ks : List β} {a b c m : β}

/-- An element stands somewhere in a list after all of some others. -/
def ComesAfter (l : List β) (m : β) (ks : List β) : Prop :=
  ∃ before after, l = before ++ m :: after ∧ ∀ k ∈ ks, k ∈ before

theorem ComesAfter.append_left (h : ComesAfter l m ks) (l' : List β) : ComesAfter (l' ++ l) m ks := by
  obtain ⟨before, after, rfl, hBefore⟩ := h
  exact ⟨l' ++ before, after, (List.append_assoc ..).symm, fun k hk => List.mem_append_right _ (hBefore k hk)⟩

theorem ComesAfter.append_right (h : ComesAfter l m ks) (l' : List β) : ComesAfter (l ++ l') m ks := by
  obtain ⟨before, after, rfl, hBefore⟩ := h
  exact ⟨before, after ++ l', by rw [List.append_assoc, List.cons_append], hBefore⟩

theorem comesAfter_append (hm : m ∈ l') (hk : ∀ k ∈ ks, k ∈ l) : ComesAfter (l ++ l') m ks := by
  obtain ⟨before, after, rfl⟩ := List.append_of_mem hm
  exact ⟨l ++ before, after, (List.append_assoc ..).symm, fun k h => List.mem_append_left _ (hk k h)⟩

variable [DecidableEq β]

/-- One element stands in a list, and another only after it or not at all. -/
def Precedes (l : List β) (a b : β) : Prop := l.idxOf a < l.idxOf b

theorem Precedes.trans (hab : Precedes l a b) (hbc : Precedes l b c) : Precedes l a c :=
  Nat.lt_trans hab hbc

theorem precedes_of_append (l' : List β) (ha : a ∈ l) (hb : b ∉ l) : Precedes (l ++ l') a b := by
  have hLt := List.idxOf_lt_length_of_mem ha
  rw [Precedes, List.idxOf_append_of_mem ha, List.idxOf_append_of_notMem hb]
  omega

/-- What occurs once comes after whatever stands before that occurrence. -/
theorem ComesAfter.precedes (h : ComesAfter l m ks) (hOnce : l.count m ≤ 1) (ha : a ∈ ks) :
    Precedes l a m := by
  obtain ⟨before, after, rfl, hBefore⟩ := h
  have hm : m ∉ before := by
    intro hm
    have hPos := List.count_pos_iff.mpr hm
    rw [List.count_append, List.count_cons_self] at hOnce
    omega
  exact precedes_of_append _ (hBefore a ha) hm

/-- Nothing that a search would accept precedes what it finds. -/
theorem not_precedes_of_find? {p : β → Bool} (hFind : l.find? p = some b) (ha : p a = true) :
    ¬ Precedes l a b := by
  obtain ⟨_, before, after, rfl, hBefore⟩ := List.find?_eq_some_iff_append.mp hFind
  have hNot : ∀ x, p x = true → x ∉ before := by
    intro x hx hMem
    have := hBefore x hMem
    simp [hx] at this
  have hb : p b = true := List.find?_some hFind
  rw [Precedes, List.idxOf_append_of_notMem (hNot a ha), List.idxOf_append_of_notMem (hNot b hb),
    List.idxOf_cons_self]
  omega

end Lists

namespace Traversal

variable {α β : Type}

theorem mem_requested_iff {items : List (Item α β)} {a : α} : a ∈ requested items ↔ .visit a ∈ items := by
  rw [requested, List.mem_filterMap]
  constructor
  · rintro ⟨_ | _, hItem, hEq⟩ <;> cases hEq
    exact hItem
  · intro h
    exact ⟨_, h, rfl⟩

theorem mem_itemMarks_iff {items : List (Item α β)} {b : β} : b ∈ itemMarks items ↔ .mark b ∈ items := by
  rw [itemMarks, List.mem_filterMap]
  constructor
  · rintro ⟨_ | _, hItem, hEq⟩ <;> cases hEq
    exact hItem
  · intro h
    exact ⟨_, h, rfl⟩

theorem mem_entered_iff {events : List (Event α β)} {a : α} : a ∈ entered events ↔ .entered a ∈ events := by
  rw [entered, List.mem_filterMap]
  constructor
  · rintro ⟨_ | _, hEvent, hEq⟩ <;> cases hEq
    exact hEvent
  · intro h
    exact ⟨_, h, rfl⟩

theorem mem_marks_iff {events : List (Event α β)} {b : β} : b ∈ marks events ↔ .marked b ∈ events := by
  rw [marks, List.mem_filterMap]
  constructor
  · rintro ⟨_ | _, hEvent, hEq⟩ <;> cases hEq
    exact hEvent
  · intro h
    exact ⟨_, h, rfl⟩

theorem entered_filter (p : Event α β → Bool) (events : List (Event α β)) :
    entered (events.filter p) = (entered events).filter fun a => p (.entered a) := by
  induction events with
  | nil => rfl
  | cons v events ih =>
      cases v with
      | entered a => cases h : p (.entered a) <;> simp [h, ih]
      | marked b => cases h : p (.marked b) <;> simp [h, ih]

theorem marks_filter (p : Event α β → Bool) (events : List (Event α β)) :
    marks (events.filter p) = (marks events).filter fun b => p (.marked b) := by
  induction events with
  | nil => rfl
  | cons v events ih =>
      cases v with
      | entered a => cases h : p (.entered a) <;> simp [h, ih]
      | marked b => cases h : p (.marked b) <;> simp [h, ih]

variable [DecidableEq α] {agenda : α → List (Item α β)} {pool : List α}

/-- The line that an event answers to. -/
def Event.line : Event α β → Item α β
  | .entered a => .visit a
  | .marked b => .mark b

/-- Nothing happens that was not asked for before. -/
theorem asked_before (hc : Closed agenda pool) {seen : List α} {items : List (Item α β)}
    (hr : ∀ b ∈ requested items, b ∈ pool) {before after : List (Event α β)} {v : Event α β}
    (h : run agenda pool seen items = before ++ v :: after) :
    v.line ∈ items ∨ ∃ a ∈ entered before, v.line ∈ agenda a := by
  refine run_induction hc (motive := fun seen items => ∀ before after v,
      run agenda pool seen items = before ++ v :: after →
      v.line ∈ items ∨ ∃ a ∈ entered before, v.line ∈ agenda a)
    ?nil ?mark ?again ?enter seen items hr before after v h
  case nil =>
      intro seen before after v h
      cases before <;> cases h
  case mark =>
      intro seen b rest ih before after v h
      rw [run_mark] at h
      cases before with
      | nil =>
          cases h
          exact Or.inl List.mem_cons_self
      | cons w before =>
          obtain ⟨rfl, hTail⟩ := List.cons.inj h
          exact (ih before after v hTail).imp_left (List.mem_cons_of_mem _)
  case again =>
      intro seen a rest hs ih before after v h
      rw [run_visit_seen agenda pool hs] at h
      exact (ih before after v h).imp_left (List.mem_cons_of_mem _)
  case enter =>
      intro seen a rest ha hs ihBody ihRest before after v h
      rw [run_visit hc ha hs] at h
      cases before with
      | nil =>
          cases h
          exact Or.inl List.mem_cons_self
      | cons w before =>
          obtain ⟨rfl, hTail⟩ := List.cons.inj h
          have hBefore : ∀ x ∈ entered before, x ∈ entered (.entered a :: before) := fun _ =>
            List.mem_cons_of_mem _
          have hLater : ∀ early, before = run agenda pool (a :: seen) (agenda a) ++ early →
              run agenda pool ((entered (run agenda pool (a :: seen) (agenda a))).reverse ++ a :: seen) rest =
                early ++ v :: after →
              v.line ∈ .visit a :: rest ∨ ∃ x ∈ entered (.entered a :: before), v.line ∈ agenda x := by
            rintro early rfl hRest
            refine (ihRest early after v hRest).imp (List.mem_cons_of_mem _) fun hAsked => ?_
            obtain ⟨x, hx, hLine⟩ := hAsked
            exact ⟨x, hBefore x (by simp [hx]), hLine⟩
          rcases List.append_eq_append_iff.mp hTail with ⟨early, hEarly, hRest⟩ | ⟨late, hBody, hLate⟩
          · exact hLater early hEarly hRest
          · cases late with
            | nil => exact hLater [] (by simp [hBody]) hLate.symm
            | cons w late =>
                obtain ⟨rfl, -⟩ := List.cons.inj hLate
                right
                rcases ihBody before late v hBody with hOwn | ⟨x, hx, hLine⟩
                · exact ⟨a, List.mem_cons_self, hOwn⟩
                · exact ⟨x, hBefore x hx, hLine⟩

/-- Marks that no element's agenda leaves are met in the order of the agenda worked off. -/
theorem filter_marks_run (hc : Closed agenda pool) {p : β → Bool}
    (hp : ∀ a, ∀ b ∈ itemMarks (agenda a), p b = false) {seen : List α} {items : List (Item α β)}
    (hr : ∀ b ∈ requested items, b ∈ pool) :
    (marks (run agenda pool seen items)).filter p = (itemMarks items).filter p := by
  refine run_induction hc (motive := fun seen items =>
      (marks (run agenda pool seen items)).filter p = (itemMarks items).filter p)
    ?nil ?mark ?again ?enter seen items hr
  case nil =>
      intro seen
      rfl
  case mark =>
      intro seen b rest ih
      rw [run_mark, marks_cons_marked, itemMarks_cons_mark, List.filter_cons, List.filter_cons, ih]
  case again =>
      intro seen a rest hs ih
      rw [run_visit_seen agenda pool hs, itemMarks_cons_visit, ih]
  case enter =>
      intro seen a rest ha hs ihBody ihRest
      have hOwn : (itemMarks (agenda a)).filter p = [] :=
        List.filter_eq_nil_iff.mpr fun b hb => by simp [hp a b hb]
      rw [run_visit hc ha hs, marks_cons_entered, marks_append, itemMarks_cons_visit, List.filter_append,
        ihBody, ihRest, hOwn, List.nil_append]

/-- What no element's agenda leaves is read off the agenda worked off. -/
theorem filterMap_marks_run {γ : Type} (hc : Closed agenda pool) {f : β → Option γ}
    (hf : ∀ a, ∀ b ∈ itemMarks (agenda a), f b = none) {seen : List α} {items : List (Item α β)}
    (hr : ∀ b ∈ requested items, b ∈ pool) :
    (marks (run agenda pool seen items)).filterMap f = (itemMarks items).filterMap f := by
  have hFilter : ∀ bs : List β, bs.filterMap f = (bs.filter fun b => (f b).isSome).filterMap f := by
    intro bs
    rw [List.filterMap_filter]
    refine List.filterMap_congr fun b _ => ?_
    cases f b <;> rfl
  have hNone : ∀ a, ∀ b ∈ itemMarks (agenda a), (f b).isSome = false := by
    intro a b hb
    rw [hf a b hb]
    rfl
  rw [hFilter, filter_marks_run hc hNone hr, ← hFilter]

/-- The agenda of one element asks for another. -/
def Leads (agenda : α → List (Item α β)) (a b : α) : Prop := b ∈ requested (agenda a)

theorem mem_marks_of_entered (hc : Closed agenda pool) {seen : List α} {items : List (Item α β)}
    (hr : ∀ b ∈ requested items, b ∈ pool) {a : α} (ha : a ∈ entered (run agenda pool seen items)) {m : β}
    (hm : m ∈ itemMarks (agenda a)) : m ∈ marks (run agenda pool seen items) :=
  (marks_run_perm hc hr).mem_iff.mpr (List.mem_append_right _ (List.mem_flatMap.mpr ⟨a, ha, hm⟩))

theorem mem_marks_of_itemMarks (hc : Closed agenda pool) {seen : List α} {items : List (Item α β)}
    (hr : ∀ b ∈ requested items, b ∈ pool) {m : β} (hm : m ∈ itemMarks items) :
    m ∈ marks (run agenda pool seen items) :=
  (marks_run_perm hc hr).mem_iff.mpr (List.mem_append_left _ hm)

/-- What is entered while an element's agenda is worked off can be reached from the element. -/
theorem leads_of_mem_entered (hc : Closed agenda pool) {seen : List α} {a b : α} (ha : a ∈ pool)
    (hb : b ∈ entered (run agenda pool seen (agenda a))) : Relation.ReflTransGen (Leads agenda) a b :=
  forall_entered_run hc (P := Relation.ReflTransGen (Leads agenda) a) (fun _ hx _ hy => hx.tail hy)
    (hc a ha) (fun _ hy => .single hy) b hb

/-- If an element's last line leaves a mark, then the marks of whatever its agenda asks for come before it,
provided that this does not lead back to the element. -/
theorem last_comesAfter (hc : Closed agenda pool) {a b : α} {init : List (Item α β)} {m : β}
    (hLast : agenda a = init ++ [.mark m]) (hb : b ∈ requested init)
    (hBack : ¬ Relation.ReflTransGen (Leads agenda) b a) {seen : List α} {items : List (Item α β)}
    (hr : ∀ b ∈ requested items, b ∈ pool) (ha : a ∈ entered (run agenda pool seen items)) :
    b ∈ seen ∨ ComesAfter (marks (run agenda pool seen items)) m (itemMarks (agenda b)) := by
  refine run_induction hc (motive := fun seen items => (∀ b ∈ requested items, b ∈ pool) →
      a ∈ entered (run agenda pool seen items) →
      b ∈ seen ∨ ComesAfter (marks (run agenda pool seen items)) m (itemMarks (agenda b)))
    ?nil ?mark ?again ?enter seen items hr hr ha
  case nil =>
      intro seen _ ha
      cases ha
  case mark =>
      intro seen k rest ih hr ha
      rw [run_mark, entered_cons_marked] at ha
      rw [run_mark, marks_cons_marked]
      exact (ih hr ha).imp id fun h => h.append_left [k]
  case again =>
      intro seen x rest hs ih hr ha
      rw [run_visit_seen agenda pool hs] at ha ⊢
      exact ih (fun y hy => hr y (by simp [hy])) ha
  case enter =>
      intro seen x rest hx hs ihBody ihRest hr ha
      have hBodyPool : ∀ y ∈ requested (agenda x), y ∈ pool := hc x hx
      have hRestPool : ∀ y ∈ requested rest, y ∈ pool := fun y hy => hr y (by simp [hy])
      rw [run_visit hc hx hs, entered_cons_entered, entered_append, List.mem_cons, List.mem_append] at ha
      rw [run_visit hc hx hs, marks_cons_entered, marks_append]
      rcases ha with rfl | ha | ha
      · -- the element itself: everything asked for has been entered when it leaves its last mark
        have hInitPool : ∀ y ∈ requested init, y ∈ pool := by
          intro y hy
          apply hBodyPool
          rw [hLast, requested_append]
          exact List.mem_append_left _ hy
        have hBody : marks (run agenda pool (a :: seen) (agenda a)) =
            marks (run agenda pool (a :: seen) init) ++ [m] := by
          rw [hLast, run_append, run_mark, run_nil, marks_append, marks_cons_marked, marks_nil]
        have hAsked : b ∈ a :: seen ∨ b ∈ entered (run agenda pool (a :: seen) init) :=
          mem_entered_of_requested hc hInitPool b hb
        rcases hAsked with hSeen | hEntered
        · rcases List.mem_cons.mp hSeen with rfl | hSeen
          · exact absurd .refl hBack
          · exact Or.inl hSeen
        · rw [hBody]
          have hMarks := fun k hk => mem_marks_of_entered (m := k) hc hInitPool hEntered hk
          exact Or.inr ((comesAfter_append (List.mem_singleton.mpr rfl) hMarks).append_right _)
      · -- below another element, from which it can be reached
        rcases ihBody hBodyPool ha with hSeen | hAfter
        · rcases List.mem_cons.mp hSeen with rfl | hSeen
          · exact absurd (leads_of_mem_entered hc hx ha) hBack
          · exact Or.inl hSeen
        · exact Or.inr (hAfter.append_right _)
      · -- after another element has been worked off with all that lies below it
        rcases ihRest hRestPool ha with hSeen | hAfter
        · have hMark := mem_marks_of_entered (m := m) hc hRestPool ha (by simp [hLast])
          rw [List.mem_append, List.mem_reverse, List.mem_cons] at hSeen
          rcases hSeen with hBody | rfl | hSeen
          · exact Or.inr (comesAfter_append hMark fun k => mem_marks_of_entered hc hBodyPool hBody)
          · exact Or.inr (comesAfter_append hMark fun k => mem_marks_of_itemMarks hc hBodyPool)
          · exact Or.inl hSeen
        · exact Or.inr (hAfter.append_left _)

end Traversal

end UnitGraph
