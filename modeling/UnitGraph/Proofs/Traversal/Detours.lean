import Mathlib.Logic.Relation
import UnitGraph.Proofs.Traversal.Order

/-!
# Traversals with detours

Once everything that the elements entered ask for has been entered too, so has everything that they lead to. What
is asked for then enters nothing besides the elements that lead there: it is a detour. Two traversals that differ
in their detours only have the same events, those of the detours apart.
-/
namespace UnitGraph.Traversal

variable {α β γ : Type}

/-- Whatever the elements of a kind that were entered ask for has been entered as well. -/
def Saturated (agenda : α → List (Item α β)) (Q : α → Prop) (seen : List α) : Prop :=
  ∀ a ∈ seen, Q a → ∀ b ∈ requested (agenda a), b ∈ seen

/-- The same elements of a kind were entered. -/
def SameOn (P : α → Prop) (seen seen' : List α) : Prop := ∀ a, P a → (a ∈ seen' ↔ a ∈ seen)

variable {agenda agenda' : α → List (Item α β)} {pool pool' seen seen' : List α} {items : List (Item α β)}
  {P Q : α → Prop}

theorem saturated_nil : Saturated agenda Q [] := fun _ ha => nomatch ha

/-- Whatever an element of the kind leads to has been entered with it. -/
theorem Saturated.mem_of_leads (h : Saturated agenda Q seen) (hQ : ∀ a, Q a → ∀ b ∈ requested (agenda a), Q b)
    {a b : α} (hLeads : Relation.ReflTransGen (fun a b => b ∈ requested (agenda a)) a b) (ha : a ∈ seen)
    (hKind : Q a) : b ∈ seen ∧ Q b := by
  induction hLeads with
  | refl => exact ⟨ha, hKind⟩
  | tail _ hAsked ih => exact ⟨h _ ih.1 ih.2 _ hAsked, hQ _ ih.2 _ hAsked⟩

/-- An element of another kind need not have its requests entered. -/
theorem Saturated.cons (h : Saturated agenda Q seen) {a : α} (ha : ¬ Q a) : Saturated agenda Q (a :: seen) := by
  intro b hb hKind c hc
  rcases List.mem_cons.mp hb with rfl | hb
  · exact absurd hKind ha
  · exact List.mem_cons_of_mem _ (h b hb hKind c hc)

theorem SameOn.refl (seen : List α) : SameOn P seen seen := fun _ _ => .rfl

theorem SameOn.cons (h : SameOn P seen seen') (a : α) : SameOn P (a :: seen) (a :: seen') := by
  intro b hb
  rw [List.mem_cons, List.mem_cons, h b hb]

theorem SameOn.after {events events' : List (Event α β)} {p : Event α β → Bool} (h : SameOn P seen seen')
    (hp : ∀ a, P a → p (.entered a) = true) (hEvents : events'.filter p = events.filter p) :
    SameOn P ((entered events).reverse ++ seen) ((entered events').reverse ++ seen') := by
  intro a ha
  have hKept : ∀ vs : List (Event α β), a ∈ entered vs ↔ .entered a ∈ vs.filter p := by
    intro vs
    rw [mem_entered_iff, List.mem_filter, and_iff_left (hp a ha)]
  rw [List.mem_append, List.mem_append, List.mem_reverse, List.mem_reverse, hKept, hKept, hEvents, h a ha]

/-- After a detour of one of the two. -/
theorem SameOn.detour {events : List (Event α β)} {p : Event α β → Bool} (h : SameOn P seen seen')
    (hp : ∀ a, P a → p (.entered a) = true) (hEvents : events.filter p = []) :
    SameOn P seen ((entered events).reverse ++ seen') :=
  h.after hp (hEvents.trans List.filter_nil.symm)

variable [DecidableEq α]

theorem Saturated.run (h : Saturated agenda Q seen) (hc : Closed agenda pool)
    (hr : ∀ b ∈ requested items, b ∈ pool) :
    Saturated agenda Q ((entered (run agenda pool seen items)).reverse ++ seen) := by
  intro a ha hKind b hb
  rw [List.mem_append, List.mem_reverse] at ha ⊢
  rcases ha with ha | ha
  · exact (mem_entered_of_entered hc hr a ha b hb).symm
  · exact .inr (h a ha hKind b hb)

/-- Elements that ask only for one another and for what has been entered lead to nothing else. -/
theorem Saturated.forall_entered (h : Saturated agenda Q seen) (hc : Closed agenda pool)
    (hQ : ∀ a, Q a → ∀ b ∈ requested (agenda a), Q b) {O : α → Prop}
    (hO : ∀ a, O a → ∀ b ∈ requested (agenda a), O b ∨ b ∈ seen ∧ Q b)
    (hr : ∀ b ∈ requested items, b ∈ pool) (hi : ∀ b ∈ requested items, O b) :
    ∀ a ∈ entered (Traversal.run agenda pool seen items), O a := by
  have hAll : ∀ a ∈ entered (Traversal.run agenda pool seen items), O a ∨ a ∈ seen ∧ Q a := by
    refine forall_entered_run hc (fun a ha b hb => ?_) hr fun b hb => .inl (hi b hb)
    rcases ha with ha | ⟨ha, hKind⟩
    · exact hO a ha b hb
    · exact .inr ⟨h a ha hKind b hb, hQ a hKind b hb⟩
  intro a ha
  exact (hAll a ha).resolve_right fun hSeen => (entered_run_nodup hc hr).2 a ha hSeen.1

/-- If two traversals differ in detours only wherever they go on alike, so they do from beginning to end. -/
theorem filter_run_flatMap {p : Event α β → Bool} (hp : ∀ a, P a → p (.entered a) = true)
    (hc' : Closed agenda' pool') {f f' : γ → List (Item α β)} {xs : List γ}
    (hStep : ∀ x ∈ xs, ∀ seen seen', Saturated agenda' Q seen' → SameOn P seen seen' →
      (run agenda' pool' seen' (f' x)).filter p = (run agenda pool seen (f x)).filter p)
    (hr' : ∀ x ∈ xs, ∀ b ∈ requested (f' x), b ∈ pool') (hSat : Saturated agenda' Q seen')
    (hSeen : SameOn P seen seen') :
    (run agenda' pool' seen' (xs.flatMap f')).filter p = (run agenda pool seen (xs.flatMap f)).filter p := by
  induction xs generalizing seen seen' with
  | nil => rfl
  | cons x xs ih =>
      have hHere := hStep x List.mem_cons_self _ _ hSat hSeen
      rw [List.flatMap_cons, List.flatMap_cons, run_append, run_append, List.filter_append, List.filter_append,
        hHere, ih (fun y hy => hStep y (List.mem_cons_of_mem _ hy)) (fun y hy => hr' y (List.mem_cons_of_mem _ hy))
          (hSat.run hc' (hr' x List.mem_cons_self)) (hSeen.after hp hHere)]

end UnitGraph.Traversal
