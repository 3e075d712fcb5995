import UnitGraph.Proofs.Extraction.Diagnostics

/-!
# One more skipped function

A skipped function takes the tokens of its range for nobody. One more of them among some marks leaves what an
entity holds as it is, or takes away just the tokens in the function's slots: it depends on whether the entity
claims before. Definitions keep what they hold. If the range is faulty, the report about it is all that changes.
-/
namespace UnitGraph.SourceUnit

/-- The tokens outside the slots of a declaration. -/
def outside (u : SourceUnit) (d : DeclId) (tokens : List Token) : List Token :=
  tokens.filter fun t => !(u.declSpan? d).any (t.index ∈ ·)

variable {u : SourceUnit} {before after : List Mark} {d : DeclId} {e : Entity} {tokens : List Token}

theorem outside_eq_filter (u : SourceUnit) (d : DeclId) (tokens : List Token) :
    u.outside d tokens = tokens.filter fun t => !u.takes (.skip d) t.index := rfl

/-- Nothing lies in the slots of a faulty range. -/
theorem outside_of_lookupFault {report : Diagnostic} (h : u.lookupFault? (.decl d) = some report) :
    u.outside d tokens = tokens := by
  obtain ⟨r, hr, h⟩ := Option.bind_eq_some_iff.mp h
  obtain ⟨decl, hd, rfl⟩ := Option.map_eq_some_iff.mp hr
  obtain ⟨reason, hReason, -⟩ := Option.map_eq_some_iff.mp h
  refine List.filter_eq_self.mpr fun t _ => ?_
  rw [declSpan?, hd, Option.bind_some, Ledger.span?]
  rw [rangeFault?_eq_match] at hReason
  cases hs : u.ledger.resolve decl.range with
  | error err => rfl
  | ok s => simp [hs] at hReason

theorem outside_of_disjoint (h : ∀ t ∈ tokens, u.takes (.skip d) t.index = false) : u.outside d tokens = tokens := by
  rw [outside_eq_filter]
  exact List.filter_eq_self.mpr fun t ht => by rw [h t ht]; rfl

/-- Whoever claims before is first to take what it takes, skipped functions after it or not. -/
theorem awarded_insert_of_mem (he : e.access = .exclusive) (hm : .claim e ∈ before) (i : Nat) :
    u.awarded (before ++ .skip d :: after) e i = u.awarded (before ++ after) e i := by
  simp only [awarded, he, firstTaker?_append]
  refine decide_eq_decide.mpr ?_
  cases hFirst : u.firstTaker? before i with
  | some m => rfl
  | none =>
      have hNot : u.takes (.claim e) i = false := by simpa using List.find?_eq_none.mp hFirst _ hm
      have hLater : ∀ ms, u.firstTaker? ms i ≠ some (.claim e) := fun ms h => by
        rw [takes_of_firstTaker? h] at hNot
        cases hNot
      simp only [Option.none_or]
      exact iff_of_false (hLater _) (hLater _)

/-- Whoever claims later no longer is first to take what the skipped function takes. -/
theorem awarded_insert_of_not_mem (he : e.access = .exclusive) (hm : .claim e ∉ before) (i : Nat) :
    u.awarded (before ++ .skip d :: after) e i =
      (u.awarded (before ++ after) e i && !u.takes (.skip d) i) := by
  simp only [awarded, he, firstTaker?_append, firstTaker?_cons]
  cases hFirst : u.firstTaker? before i with
  | some m =>
      have hNe : m ≠ .claim e := fun hEq => hm (hEq ▸ mem_of_firstTaker? hFirst)
      simp [hNe]
  | none =>
      cases u.takes (.skip d) i with
      | true => simp
      | false =>
          rw [Bool.not_false, Bool.and_true]
          exact decide_eq_decide.mpr (by simp)

/-- One more skipped function: what an entity holds stays, or loses the tokens in the function's slots. -/
theorem holdings_insert (h : e.access = .exclusive ∨ (before ++ after).count (.claim e) ≤ 1) :
    holdings (u.settle u.ledger (before ++ .skip d :: after)) e =
        holdings (u.settle u.ledger (before ++ after)) e ∨
      e.access = .exclusive ∧ holdings (u.settle u.ledger (before ++ .skip d :: after)) e =
        u.outside d (holdings (u.settle u.ledger (before ++ after)) e) := by
  have hCount : (before ++ .skip d :: after).count (.claim e) = (before ++ after).count (.claim e) := by
    simp
  rw [holdings_eq_filter h, holdings_eq_filter (hCount ▸ h)]
  cases he : e.access with
  | shared =>
      left
      congr 1
      funext t
      simp [awarded, he]
  | exclusive =>
      by_cases hm : .claim e ∈ before
      · simp only [awarded_insert_of_mem he hm, true_or]
      · right
        rw [outside_eq_filter, List.filter_filter]
        simp only [awarded_insert_of_not_mem he hm, Bool.and_comm, true_and]

/-- A skipped function whose slots nobody claims for itself changes nothing of what an entity holds. -/
theorem holdings_insert_of_disjoint (h : e.access = .exclusive ∨ (before ++ after).count (.claim e) ≤ 1)
    (hDisjoint : .claim e ∈ before ++ after → e.access = .exclusive →
      ∀ i, u.takes (.claim e) i = true → u.takes (.skip d) i = false) :
    holdings (u.settle u.ledger (before ++ .skip d :: after)) e =
      holdings (u.settle u.ledger (before ++ after)) e := by
  rcases holdings_insert h with hSame | ⟨he, hOutside⟩
  · exact hSame
  · rw [hOutside]
    refine outside_of_disjoint fun t ht => ?_
    rw [holdings_eq_filter h] at ht
    obtain ⟨hClaim, hTakes⟩ := claim_of_awarded (List.mem_filter.mp ht).2
    exact hDisjoint hClaim he _ hTakes

/-- One more skipped function: its report, if there is one, stands where it is skipped. -/
theorem reports_insert (before after : List Mark) (d : DeclId) :
    reports (u.settle u.ledger (before ++ .skip d :: after)) =
      before.filterMap u.report? ++ (u.lookupFault? (.decl d)).toList ++ after.filterMap u.report? := by
  rw [reports_settle rfl, List.filterMap_append, List.filterMap_cons, List.append_assoc]
  cases h : u.lookupFault? (.decl d) <;> simp [report?, h]

end UnitGraph.SourceUnit
