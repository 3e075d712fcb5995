import UnitGraph.Proofs.Traversal.Origin

/-!
# Traversals under other names

If one agenda does for the new names of elements what another does for the elements, then its events are those
of the other under the new names. Only what can be met counts: the names of distinct elements that are met have
to be distinct, and elements entered before matter only if they can be met. In particular neither the pool nor
what was entered elsewhere has a say in a traversal.
-/
namespace UnitGraph.Traversal

variable {α β α' β' : Type}

def Item.map (f : α → α') (g : β → β') : Item α β → Item α' β'
  | .visit a => .visit (f a)
  | .mark b => .mark (g b)

def Event.map (f : α → α') (g : β → β') : Event α β → Event α' β'
  | .entered a => .entered (f a)
  | .marked b => .marked (g b)

@[simp] theorem Item.map_id : Item.map (id : α → α) (id : β → β) = id := by
  funext i
  cases i <;> rfl

@[simp] theorem Event.map_id : Event.map (id : α → α) (id : β → β) = id := by
  funext v
  cases v <;> rfl

variable {f : α → α'} {g : β → β'}

@[simp] theorem requested_map (items : List (Item α β)) :
    requested (items.map (Item.map f g)) = (requested items).map f := by
  induction items with
  | nil => rfl
  | cons i items ih => cases i <;> simp [Item.map, ih]

@[simp] theorem entered_map (events : List (Event α β)) :
    entered (events.map (Event.map f g)) = (entered events).map f := by
  induction events with
  | nil => rfl
  | cons v events ih => cases v <;> simp [Event.map, ih]

@[simp] theorem marks_map (events : List (Event α β)) :
    marks (events.map (Event.map f g)) = (marks events).map g := by
  induction events with
  | nil => rfl
  | cons v events ih => cases v <;> simp [Event.map, ih]

/-- One agenda does for the new names of the elements with a property what another does for the elements; the
property passes on to whatever is asked for. -/
structure Renames (P : α → Prop) (f : α → α') (g : β → β') (agenda : α → List (Item α β))
    (agenda' : α' → List (Item α' β')) : Prop where
  closed : ∀ a, P a → ∀ b ∈ requested (agenda a), P b
  injective : ∀ a b, P a → P b → f a = f b → a = b
  agenda_map : ∀ a, P a → agenda' (f a) = (agenda a).map (Item.map f g)

theorem Renames.mem_map_iff {agenda : α → List (Item α β)} {agenda' : α' → List (Item α' β')} {P : α → Prop}
    (h : Renames P f g agenda agenda') {as : List α} (has : ∀ b ∈ as, P b) {a : α} (ha : P a) :
    f a ∈ as.map f ↔ a ∈ as := by
  rw [List.mem_map]
  constructor
  · rintro ⟨b, hb, hEq⟩
    rwa [← h.injective b a (has b hb) ha hEq]
  · intro ha
    exact ⟨a, ha, rfl⟩

variable [DecidableEq α] [DecidableEq α'] {agenda : α → List (Item α β)} {agenda' : α' → List (Item α' β')}
  {pool : List α} {pool' : List α'}

/-- The events under the new names, whatever else was entered before. -/
theorem Renames.run_map {P : α → Prop} (h : Renames P f g agenda agenda') (hc : Closed agenda pool)
    (hc' : Closed agenda' pool') {seen : List α} {seen' : List α'} {items : List (Item α β)}
    (hr : ∀ b ∈ requested items, b ∈ pool) (hr' : ∀ b ∈ requested items, f b ∈ pool')
    (hItems : ∀ b ∈ requested items, P b) (hSeen : ∀ a, P a → (f a ∈ seen' ↔ a ∈ seen)) :
    run agenda' pool' seen' (items.map (Item.map f g)) =
      (run agenda pool seen items).map (Event.map f g) := by
  refine run_induction hc (motive := fun seen items => ∀ seen', (∀ b ∈ requested items, f b ∈ pool') →
      (∀ b ∈ requested items, P b) → (∀ a, P a → (f a ∈ seen' ↔ a ∈ seen)) →
      run agenda' pool' seen' (items.map (Item.map f g)) = (run agenda pool seen items).map (Event.map f g))
    ?nil ?mark ?again ?enter seen items hr seen' hr' hItems hSeen
  case nil =>
      intro seen seen' _ _ _
      rfl
  case mark =>
      intro seen b rest ih seen' hr' hItems hSeen
      rw [List.map_cons, Item.map, run_mark, run_mark, List.map_cons, ih seen' hr' hItems hSeen]
      rfl
  case again =>
      intro seen a rest hs ih seen' hr' hItems hSeen
      have hs' := (hSeen a (hItems a (by simp))).mpr hs
      rw [List.map_cons, Item.map, run_visit_seen agenda' pool' hs', run_visit_seen agenda pool hs]
      exact ih seen' (fun b hb => hr' b (by simp [hb])) (fun b hb => hItems b (by simp [hb])) hSeen
  case enter =>
      intro seen a rest ha hs ihBody ihRest seen' hr' hItems hSeen
      have hP : P a := hItems a (by simp)
      have ha' : f a ∈ pool' := hr' a (by simp)
      have hs' : f a ∉ seen' := mt (hSeen a hP).mp hs
      have hBodyPool : ∀ b ∈ requested (agenda a), f b ∈ pool' := by
        intro b hb
        refine hc' (f a) ha' (f b) ?_
        rw [h.agenda_map a hP, requested_map]
        exact List.mem_map_of_mem hb
      have hBodySeen : ∀ b, P b → (f b ∈ f a :: seen' ↔ b ∈ a :: seen) := by
        intro b hb
        rw [List.mem_cons, List.mem_cons, hSeen b hb]
        exact or_congr_left ⟨h.injective b a hb hP, congrArg f⟩
      have hBody := ihBody (f a :: seen') hBodyPool (h.closed a hP) hBodySeen
      have hBodyP : ∀ b ∈ entered (run agenda pool (a :: seen) (agenda a)), P b :=
        forall_entered_run hc h.closed (hc a ha) (h.closed a hP)
      rw [List.map_cons, Item.map, run_visit hc' ha' hs', run_visit hc ha hs, h.agenda_map a hP, hBody,
        entered_map, ihRest _ (fun b hb => hr' b (by simp [hb])) (fun b hb => hItems b (by simp [hb]))]
      · rw [List.map_cons, List.map_append]
        rfl
      · intro b hb
        rw [List.mem_append, List.mem_append, List.mem_reverse, List.mem_reverse, h.mem_map_iff hBodyP hb,
          hBodySeen b hb]

/-- Agendas that agree on all that can be met, and what was entered before that can be met, settle the events;
the pools do not matter. -/
theorem run_congr {agenda₂ : α → List (Item α β)} {pool₂ : List α} {P : α → Prop} (hc : Closed agenda pool)
    (hc₂ : Closed agenda₂ pool₂) (hClosed : ∀ a, P a → ∀ b ∈ requested (agenda a), P b)
    (hAgenda : ∀ a, P a → agenda₂ a = agenda a) {seen seen₂ : List α} {items : List (Item α β)}
    (hr : ∀ b ∈ requested items, b ∈ pool) (hr₂ : ∀ b ∈ requested items, b ∈ pool₂)
    (hItems : ∀ b ∈ requested items, P b) (hSeen : ∀ a, P a → (a ∈ seen₂ ↔ a ∈ seen)) :
    run agenda₂ pool₂ seen₂ items = run agenda pool seen items := by
  have h : Renames P (id : α → α) (id : β → β) agenda agenda₂ := by
    refine ⟨hClosed, fun _ _ _ _ => id, fun a ha => ?_⟩
    rw [Item.map_id, List.map_id, id, hAgenda a ha]
  have hRun := h.run_map hc hc₂ hr hr₂ hItems hSeen
  rwa [Item.map_id, Event.map_id, List.map_id, List.map_id] at hRun

end UnitGraph.Traversal
