import Mathlib.Data.List.Nodup
import Mathlib.Data.List.Perm.Subperm
import Mathlib.Logic.Relation
import UnitGraph.Chain

/-!
# Chains that come to an end

A step leads from an element to at most one next one, so the first element of a chain determines whether
the chain ends, where, and after how many steps. The elements passed on the way to the end are distinct.
Hence a bound of as many steps as there are elements with a next one is met by no chain that ends; on any
other chain there is a next element wherever a bounded walk stops. A search along a chain goes no further
than its first hit, so it is a walk along the chain that ends there.
-/
namespace UnitGraph.Chain

variable {α : Type} {step : α → Option α}

/-- The chain from an element comes to its end after a number of steps. -/
inductive EndsAfter (step : α → Option α) : Nat → α → α → Prop
  | here {a : α} : step a = none → EndsAfter step 0 a a
  | there {n : Nat} {a b e : α} : step a = some b → EndsAfter step n b e → EndsAfter step (n + 1) a e

theorem EndsAfter.unique {m n : Nat} {a e e' : α} (h : EndsAfter step m a e) (h' : EndsAfter step n a e') :
    m = n := by
  induction h generalizing n with
  | here hNone =>
      cases h' with
      | here _ => rfl
      | there hSome _ => cases hNone.symm.trans hSome
  | there hSome _ ih =>
      cases h' with
      | here hNone => cases hNone.symm.trans hSome
      | there hSome' h' =>
          cases hSome.symm.trans hSome'
          exact congrArg (· + 1) (ih h')

theorem exists_endsAfter {a e : α} (h : Reaches step a e) (he : step e = none) :
    ∃ n, EndsAfter step n a e := by
  induction h with
  | refl a => exact ⟨0, .here he⟩
  | head hab _ ih =>
      obtain ⟨n, hn⟩ := ih he
      exact ⟨n + 1, .there hab hn⟩

/-- The elements passed on the way to the end: they are distinct, since their distances to the end are. -/
theorem EndsAfter.exists_trail {n : Nat} {a e : α} (h : EndsAfter step n a e) :
    ∃ trail : List α, trail.length = n ∧ trail.Nodup ∧
      ∀ b ∈ trail, (∃ c, step b = some c) ∧ ∃ m, m ≤ n ∧ EndsAfter step m b e := by
  induction h with
  | here _ => exact ⟨[], rfl, List.nodup_nil, by simp⟩
  | @there n a b e hab hb ih =>
      obtain ⟨trail, hLength, hNodup, hTrail⟩ := ih
      have hFresh : a ∉ trail := by
        intro ha
        obtain ⟨_, m, hm, hEnds⟩ := hTrail a ha
        have := hEnds.unique (.there hab hb)
        omega
      refine ⟨a :: trail, congrArg (· + 1) hLength, List.nodup_cons.mpr ⟨hFresh, hNodup⟩, ?_⟩
      intro c hc
      rcases List.mem_cons.mp hc with rfl | hc
      · exact ⟨⟨b, hab⟩, n + 1, Nat.le_refl _, .there hab hb⟩
      · obtain ⟨hNext, m, hm, hEnds⟩ := hTrail c hc
        exact ⟨hNext, m, Nat.le_succ_of_le hm, hEnds⟩

theorem EndsAfter.le_length {support : List α} (hs : ∀ b c, step b = some c → b ∈ support) {n : Nat}
    {a e : α} (h : EndsAfter step n a e) : n ≤ support.length := by
  obtain ⟨trail, rfl, hNodup, hTrail⟩ := h.exists_trail
  have hSub : trail ⊆ support := by
    intro b hb
    obtain ⟨⟨c, hc⟩, _⟩ := hTrail b hb
    exact hs b c hc
  exact (hNodup.subperm hSub).length_le

theorem EndsAfter.follow_eq {n k : Nat} {a e : α} (h : EndsAfter step n a e) (hk : n ≤ k) :
    follow step k a = e := by
  induction h generalizing k with
  | here hNone => exact follow_of_end hNone k
  | there hab _ ih =>
      obtain ⟨k, rfl⟩ := Nat.exists_eq_add_of_le' (Nat.one_le_of_lt hk)
      rw [follow, hab]
      exact ih (Nat.le_of_succ_le_succ hk)

/-- A bound of as many steps as there are elements with a next one never cuts off a chain that ends. -/
theorem follow_of_reaches {support : List α} (hs : ∀ b c, step b = some c → b ∈ support) {k : Nat}
    (hk : support.length ≤ k) {a e : α} (h : Reaches step a e) (he : step e = none) :
    follow step k a = e := by
  obtain ⟨n, hn⟩ := exists_endsAfter h he
  exact hn.follow_eq (Nat.le_trans (hn.le_length hs) hk)

theorem Reaches.trans {a b c : α} (h : Reaches step a b) (h' : Reaches step b c) : Reaches step a c := by
  induction h with
  | refl a => exact h'
  | head hab _ ih => exact .head hab (ih h')

/-- Whatever lies on a chain leads to its end. -/
theorem Reaches.to_end {a b e : α} (h : Reaches step a b) (he : Reaches step a e) (hEnd : step e = none) :
    Reaches step b e := by
  induction h with
  | refl a => exact he
  | head hab _ ih =>
      cases he with
      | refl => cases hEnd.symm.trans hab
      | head hab' he =>
          cases hab.symm.trans hab'
          exact ih he

/-- Steps that agree on a set which they do not leave have the same chains there. -/
theorem reaches_congr {s : α → Prop} {step' : α → Option α} (hClosed : ∀ a b, s a → step a = some b → s b)
    (hStep : ∀ a, s a → step' a = step a) {a b : α} (ha : s a) : Reaches step' a b ↔ Reaches step a b := by
  constructor
  · intro h
    induction h with
    | refl a => exact .refl a
    | head hab _ ih =>
        rw [hStep _ ha] at hab
        exact .head hab (ih (hClosed _ _ ha hab))
  · intro h
    induction h with
    | refl a => exact .refl a
    | head hab _ ih => exact .head ((hStep _ ha).trans hab) (ih (hClosed _ _ ha hab))

/-- A relation that a step function computes has the chains of that function. -/
theorem reaches_iff {r : α → α → Prop} (hr : ∀ a b, step a = some b ↔ r a b) {a b : α} :
    Reaches step a b ↔ Relation.ReflTransGen r a b := by
  constructor
  · intro h
    induction h with
    | refl a => exact .refl
    | head hab _ ih => exact .head ((hr _ _).mp hab) ih
  · intro h
    induction h using Relation.ReflTransGen.head_induction_on with
    | refl => exact .refl _
    | head hab _ ih => exact .head ((hr _ _).mpr hab) ih

/-- The chain of steps from an element is finite: it cannot be followed for ever. -/
def Finite (r : α → α → Prop) (a : α) : Prop := Acc (fun b a => r a b) a

section Finite
variable {r : α → α → Prop}

theorem Finite.exists_end (hr : ∀ a b, step a = some b ↔ r a b) {a : α} (h : Finite r a) :
    ∃ e, Reaches step a e ∧ step e = none := by
  induction h with
  | intro a _ ih =>
      cases ha : step a with
      | none => exact ⟨a, .refl a, ha⟩
      | some b =>
          obtain ⟨e, he, hNone⟩ := ih b ((hr a b).mp ha)
          exact ⟨e, .head ha he, hNone⟩

theorem finite_of_reaches_end (hr : ∀ a b, step a = some b ↔ r a b) {a e : α} (h : Reaches step a e)
    (he : step e = none) : Finite r a := by
  induction h with
  | refl a =>
      refine .intro a fun b hab => ?_
      cases he.symm.trans ((hr a b).mpr hab)
  | @head a b e hab _ ih =>
      refine .intro a fun c hac => ?_
      cases hab.symm.trans ((hr a c).mpr hac)
      exact ih he

/-- No chain that leads into a cycle is finite. -/
theorem not_finite_of_cycle {a b : α} (h : Relation.ReflTransGen r a b) (hb : Relation.TransGen r b b) :
    ¬ Finite r a := by
  intro hFinite
  induction hFinite with
  | intro a _ ih =>
      obtain rfl | ⟨c, hac, hcb⟩ := h.cases_head
      · obtain ⟨c, hac, hca⟩ := Relation.TransGen.head'_iff.mp hb
        exact ih c hac hca
      · exact ih c hac hcb

end Finite

section Search
variable {β : Type} {r : α → α → Prop} {pick : α → Option β}

/-- The first hit on the chain from an element, after elements that are none. -/
inductive First (r : α → α → Prop) (pick : α → Option β) : α → β → Prop
  | here {a : α} {b : β} : pick a = some b → First r pick a b
  | there {a a' : α} {b : β} : pick a = none → r a a' → First r pick a' b → First r pick a b

/-- The steps of a search: none from a hit. -/
def searchStep (step : α → Option α) (pick : α → Option β) (a : α) : Option α :=
  if (pick a).isSome then none else step a

theorem searchStep_of_hit {a : α} {b : β} (h : pick a = some b) : searchStep step pick a = none := by
  simp [searchStep, h]

theorem searchStep_of_miss {a : α} (h : pick a = none) : searchStep step pick a = step a := by
  simp [searchStep, h]

theorem step_of_searchStep {a a' : α} (h : searchStep step pick a = some a') :
    pick a = none ∧ step a = some a' := by
  cases hPick : pick a with
  | none => exact ⟨rfl, (searchStep_of_miss hPick).symm.trans h⟩
  | some b => cases (searchStep_of_hit hPick).symm.trans h

theorem First.reaches (hr : ∀ a b, step a = some b ↔ r a b) {a : α} {b : β} (h : First r pick a b) :
    ∃ e, Reaches (searchStep step pick) a e ∧ pick e = some b := by
  induction h with
  | here hb => exact ⟨_, .refl _, hb⟩
  | there hNone hab _ ih =>
      obtain ⟨e, he, hb⟩ := ih
      exact ⟨e, .head ((searchStep_of_miss hNone).trans ((hr _ _).mpr hab)) he, hb⟩

theorem EndsAfter.findAlong_eq {n k : Nat} {a e : α} {b : β} (h : EndsAfter (searchStep step pick) n a e)
    (hb : pick e = some b) (hk : n < k) : findAlong step pick k a = some b := by
  induction h generalizing k with
  | here _ =>
      obtain ⟨k, rfl⟩ := Nat.exists_eq_add_of_le' hk
      simp [findAlong, hb]
  | there hStep _ ih =>
      obtain ⟨hNone, hab⟩ := step_of_searchStep hStep
      obtain ⟨k, rfl⟩ := Nat.exists_eq_add_of_le' (Nat.one_le_of_lt hk)
      simpa [findAlong, hNone, hab] using ih hb (Nat.lt_of_succ_lt_succ hk)

/-- A search that looks at more elements than have a next one finds the first hit, also on a cycle. -/
theorem findAlong_eq_some_iff (hr : ∀ a b, step a = some b ↔ r a b) {support : List α}
    (hs : ∀ b c, step b = some c → b ∈ support) {k : Nat} (hk : support.length < k) {a : α} {b : β} :
    findAlong step pick k a = some b ↔ First r pick a b := by
  constructor
  · intro h
    clear hk
    induction k generalizing a with
    | zero => cases h
    | succ k ih =>
        unfold findAlong at h
        split at h
        · next hb => exact .here (hb.trans h)
        · next hNone =>
            obtain ⟨a', hStep, h⟩ := Option.bind_eq_some_iff.mp h
            exact .there hNone ((hr _ _).mp hStep) (ih h)
  · intro h
    obtain ⟨e, he, hb⟩ := h.reaches hr
    obtain ⟨n, hn⟩ := exists_endsAfter he (searchStep_of_hit hb)
    have hBound : n ≤ support.length := hn.le_length fun b c h => hs b c (step_of_searchStep h).2
    exact hn.findAlong_eq hb (Nat.lt_of_le_of_lt hBound hk)

theorem First.exists_hit {a : α} {b : β} (h : First r pick a b) :
    ∃ e, Relation.ReflTransGen r a e ∧ pick e = some b := by
  induction h with
  | here hb => exact ⟨_, .refl, hb⟩
  | there _ hab _ ih =>
      obtain ⟨e, he, hb⟩ := ih
      exact ⟨e, .head hab he, hb⟩

/-- A chain with a hit has a first one. -/
theorem exists_first {a e : α} {b : β} (h : Relation.ReflTransGen r a e) (hb : pick e = some b) :
    ∃ b', First r pick a b' := by
  induction h using Relation.ReflTransGen.head_induction_on with
  | refl => exact ⟨b, .here hb⟩
  | @head a c hac _ ih =>
      obtain ⟨b', hFirst⟩ := ih
      cases ha : pick a with
      | none => exact ⟨b', .there ha hac hFirst⟩
      | some b'' => exact ⟨b'', .here ha⟩

theorem First.mono {r' : α → α → Prop} (hr : ∀ a b, r a b → r' a b) {a : α} {b : β}
    (h : First r pick a b) : First r' pick a b := by
  induction h with
  | here hb => exact .here hb
  | there hNone hab _ ih => exact .there hNone (hr _ _ hab) ih

/-- Searches that agree on a set which their steps do not leave have the same hits there. -/
theorem first_congr {s : α → Prop} {r' : α → α → Prop} {pick' : α → Option β}
    (hClosed : ∀ a b, s a → r a b → s b) (hr : ∀ a b, s a → (r' a b ↔ r a b))
    (hPick : ∀ a, s a → pick' a = pick a) {a : α} {b : β} (ha : s a) :
    First r' pick' a b ↔ First r pick a b := by
  constructor
  · intro h
    induction h with
    | here hb => exact .here ((hPick _ ha).symm.trans hb)
    | there hNone hab _ ih =>
        have hab := (hr _ _ ha).mp hab
        exact .there ((hPick _ ha).symm.trans hNone) hab (ih (hClosed _ _ ha hab))
  · intro h
    induction h with
    | here hb => exact .here ((hPick _ ha).trans hb)
    | there hNone hab _ ih =>
        exact .there ((hPick _ ha).trans hNone) ((hr _ _ ha).mpr hab) (ih (hClosed _ _ ha hab))

end Search

end UnitGraph.Chain
