import UnitGraph.Traversal.Bound

/-!
# What a traversal enters

No element is entered twice, everything that an agenda asks for is entered sooner or later, and so is
everything that the agenda of an entered element asks for.
-/
namespace UnitGraph.Traversal

variable {α β : Type} [DecidableEq α] {agenda : α → List (Item α β)} {pool : List α}

theorem entered_run_nodup (hc : Closed agenda pool) {seen : List α} {items : List (Item α β)}
    (hr : ∀ b ∈ requested items, b ∈ pool) :
    (entered (run agenda pool seen items)).Nodup ∧
      ∀ a ∈ entered (run agenda pool seen items), a ∉ seen := by
  refine run_induction hc (motive := fun seen items =>
      (entered (run agenda pool seen items)).Nodup ∧
        ∀ a ∈ entered (run agenda pool seen items), a ∉ seen)
    ?nil ?mark ?again ?enter seen items hr
  case nil =>
      intro seen
      simp
  case mark =>
      intro seen b rest ih
      simpa [run_mark] using ih
  case again =>
      intro seen a rest hs ih
      simpa [run_visit_seen agenda pool hs] using ih
  case enter =>
      intro seen a rest ha hs ihBody ihRest
      simp only [run_visit hc ha hs, entered_cons_entered, entered_append]
      have hBody : ∀ x ∈ entered (run agenda pool (a :: seen) (agenda a)), x ≠ a ∧ x ∉ seen := by
        intro x hx
        simpa [not_or] using ihBody.2 x hx
      have hRest := ihRest.2
      simp only [List.mem_append, List.mem_reverse, List.mem_cons, not_or] at hRest
      constructor
      · simp only [List.nodup_cons, List.mem_append, not_or, List.nodup_append]
        refine ⟨⟨fun h => (hBody a h).1 rfl, fun h => (hRest a h).2.1 rfl⟩, ihBody.1, ihRest.1, ?_⟩
        rintro x hx y hy rfl
        exact (hRest x hy).1 hx
      · intro x hx
        simp only [List.mem_cons, List.mem_append] at hx
        rcases hx with rfl | hx | hx
        · exact hs
        · exact (hBody x hx).2
        · exact (hRest x hx).2.2

/-- Everything an agenda asks for was entered before or is entered now. -/
theorem mem_entered_of_requested (hc : Closed agenda pool) {seen : List α} {items : List (Item α β)}
    (hr : ∀ b ∈ requested items, b ∈ pool) :
    ∀ b ∈ requested items, b ∈ seen ∨ b ∈ entered (run agenda pool seen items) := by
  refine run_induction hc (motive := fun seen items =>
      ∀ b ∈ requested items, b ∈ seen ∨ b ∈ entered (run agenda pool seen items))
    ?nil ?mark ?again ?enter seen items hr
  case nil =>
      intro seen
      simp [requested]
  case mark =>
      intro seen b rest ih
      simpa [run_mark] using ih
  case again =>
      intro seen a rest hs ih
      simp only [requested_cons_visit, List.mem_cons, run_visit_seen agenda pool hs]
      rintro b (rfl | hb)
      · exact Or.inl hs
      · exact ih b hb
  case enter =>
      intro seen a rest ha hs ihBody ihRest
      simp only [requested_cons_visit, List.mem_cons, run_visit hc ha hs, entered_cons_entered,
        entered_append, List.mem_append]
      rintro b (rfl | hb)
      · exact Or.inr (Or.inl rfl)
      · have := ihRest b hb
        simp only [List.mem_append, List.mem_reverse, List.mem_cons] at this
        grind

/-- Whatever the agenda of an entered element asks for was entered before or is entered too. -/
theorem mem_entered_of_entered (hc : Closed agenda pool) {seen : List α} {items : List (Item α β)}
    (hr : ∀ b ∈ requested items, b ∈ pool) :
    ∀ a ∈ entered (run agenda pool seen items), ∀ b ∈ requested (agenda a),
      b ∈ seen ∨ b ∈ entered (run agenda pool seen items) := by
  refine run_induction hc (motive := fun seen items =>
      ∀ a ∈ entered (run agenda pool seen items), ∀ b ∈ requested (agenda a),
        b ∈ seen ∨ b ∈ entered (run agenda pool seen items))
    ?nil ?mark ?again ?enter seen items hr
  case nil =>
      intro seen
      simp
  case mark =>
      intro seen b rest ih
      simpa [run_mark] using ih
  case again =>
      intro seen a rest hs ih
      simpa [run_visit_seen agenda pool hs] using ih
  case enter =>
      intro seen a rest ha hs ihBody ihRest
      have hOwn : ∀ b ∈ requested (agenda a),
          b ∈ a :: seen ∨ b ∈ entered (run agenda pool (a :: seen) (agenda a)) :=
        mem_entered_of_requested hc (hc a ha)
      simp only [run_visit hc ha hs, entered_cons_entered, entered_append, List.mem_cons,
        List.mem_append, List.mem_reverse] at ihBody ihRest hOwn ⊢
      rintro x (rfl | hx | hx) b hb
      · have := hOwn b hb
        grind
      · have := ihBody x hx b hb
        grind
      · have := ihRest x hx b hb
        grind

end UnitGraph.Traversal
