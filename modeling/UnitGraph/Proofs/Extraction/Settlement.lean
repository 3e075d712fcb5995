import UnitGraph.Extraction.Settlement
import UnitGraph.Proofs.Source.Ledger

/-!
# Who holds which token

Every mark takes a fixed span, whatever was settled before it. An exclusive entity therefore holds exactly
the positions that one of its claims is the first mark to take; a definition, which claims once, holds its
whole span. When all marks have been settled, a position has been taken if and only if some mark takes it.
-/
namespace UnitGraph.SourceUnit

variable (u : SourceUnit)

/-- A stream position lies in the slots of a range: both ends are token locations, and the position stands
between the slots of the two. -/
def Covers (u : SourceUnit) (r : SourceRange) (i : Nat) : Prop :=
  ∃ a b, u.ledger.slot? r.first = some a ∧ u.ledger.slot? r.last = some b ∧ a ≤ i ∧ i ≤ b

/-- The slots of a declaration's range, if it is resolvable. -/
def declSpan? (d : DeclId) : Option Span := (u.decl? d).bind fun decl => u.ledger.span? decl.range

/-- The slots of an entity's range, if it is resolvable. -/
def spanOf? (e : Entity) : Option Span := (e.range? u).bind u.ledger.span?

/-- The stream positions that a mark takes, whatever was settled before it. -/
def takenBy? : Mark → Option Span
  | .claim e => u.spanOf? e
  | .skip d => u.declSpan? d
  | .noFlow .. => none

def takes (m : Mark) (i : Nat) : Bool := (u.takenBy? m).any (i ∈ ·)

/-- The first of some marks to take a position. -/
def firstTaker? (ms : List Mark) (i : Nat) : Option Mark := ms.find? (u.takes · i)

/-- The ledger after one mark. -/
def advance (l : Ledger) (m : Mark) : Ledger := ((u.takenBy? m).map l.take).getD l

/-- What a mark grants to an entity. -/
def grant (l : Ledger) (m : Mark) (e : Entity) : List Token :=
  if m = .claim e then ((u.spanOf? e).map (l.offered · e.access)).getD [] else []

/-- The ledger that is left when all marks have been settled. -/
def settledLedger : Ledger → List Mark → Ledger
  | l, [] => l
  | l, m :: rest =>
      match u.rangeOf m with
      | none => settledLedger l rest
      | some r => settledLedger (u.settleAt l r m).2 rest

variable {u}

theorem takes_iff {m : Mark} {i : Nat} : u.takes m i = true ↔ ∃ s, u.takenBy? m = some s ∧ i ∈ s := by
  simp [takes, Option.any_eq_true]

theorem covers_iff {r : SourceRange} {i : Nat} :
    u.Covers r i ↔ ∃ s, u.ledger.span? r = some s ∧ i ∈ s := by
  simp only [Ledger.span?_eq_some_iff, Ledger.resolve_eq_ok_iff]
  constructor
  · intro h
    obtain ⟨a, b, ha, hb, hai, hib⟩ := h
    exact ⟨⟨a, b⟩, ⟨ha, hb, Nat.le_trans hai hib⟩, hai, hib⟩
  · intro h
    obtain ⟨s, ⟨ha, hb, _⟩, hi⟩ := h
    exact ⟨s.first, s.last, ha, hb, Span.mem_iff.mp hi⟩

theorem takes_claim_iff {e : Entity} {i : Nat} :
    u.takes (.claim e) i = true ↔ ∃ r, e.range? u = some r ∧ u.Covers r i := by
  simp only [takes_iff, takenBy?, spanOf?, Option.bind_eq_some_iff, covers_iff]
  constructor
  · intro h
    obtain ⟨s, ⟨r, hr, hs⟩, hi⟩ := h
    exact ⟨r, hr, s, hs, hi⟩
  · intro h
    obtain ⟨r, hr, s, hs, hi⟩ := h
    exact ⟨s, ⟨r, hr, hs⟩, hi⟩

theorem takes_skip_iff {d : DeclId} {i : Nat} :
    u.takes (.skip d) i = true ↔ ∃ decl, u.decl? d = some decl ∧ u.Covers decl.range i := by
  simp only [takes_iff, takenBy?, declSpan?, Option.bind_eq_some_iff, covers_iff]
  constructor
  · intro h
    obtain ⟨s, ⟨decl, hd, hs⟩, hi⟩ := h
    exact ⟨decl, hd, s, hs, hi⟩
  · intro h
    obtain ⟨decl, hd, s, hs, hi⟩ := h
    exact ⟨s, ⟨decl, hd, hs⟩, hi⟩

theorem lt_size_of_takes {m : Mark} {i : Nat} (h : u.takes m i = true) : i < u.ledger.size := by
  obtain ⟨s, hs, hi⟩ := takes_iff.mp h
  cases m with
  | noFlow d e => cases hs
  | claim e =>
      obtain ⟨r, _, hr⟩ := Option.bind_eq_some_iff.mp hs
      exact Ledger.lt_size_of_span? hr hi
  | skip d =>
      obtain ⟨decl, _, hr⟩ := Option.bind_eq_some_iff.mp hs
      exact Ledger.lt_size_of_span? hr hi

theorem firstTaker?_cons (m : Mark) (ms : List Mark) (i : Nat) :
    u.firstTaker? (m :: ms) i = if u.takes m i = true then some m else u.firstTaker? ms i := by
  rw [firstTaker?, List.find?_cons]
  cases u.takes m i <;> rfl

theorem firstTaker?_append (ms ms' : List Mark) (i : Nat) :
    u.firstTaker? (ms ++ ms') i = (u.firstTaker? ms i).or (u.firstTaker? ms' i) := List.find?_append

theorem takes_of_firstTaker? {ms : List Mark} {m : Mark} {i : Nat} (h : u.firstTaker? ms i = some m) :
    u.takes m i = true := by simpa using List.find?_some h

theorem mem_of_firstTaker? {ms : List Mark} {m : Mark} {i : Nat} (h : u.firstTaker? ms i = some m) :
    m ∈ ms := List.mem_of_find?_eq_some h

theorem exists_firstTaker? {ms : List Mark} {m : Mark} {i : Nat} (hm : m ∈ ms)
    (h : u.takes m i = true) : ∃ m', u.firstTaker? ms i = some m' :=
  Option.isSome_iff_exists.mp (List.find?_isSome.mpr ⟨m, hm, h⟩)

theorem grant_claim (l : Ledger) (e : Entity) :
    u.grant l (.claim e) e = l.tokens.filter fun t => u.takes (.claim e) t.index = true ∧
      (e.access = .shared ∨ l.takenAt t.index = false) := by
  unfold grant takes takenBy?
  cases hs : u.spanOf? e with
  | none => simp [hs]
  | some s => simp [hs, Ledger.offered_eq_filter]

@[simp] theorem tokens_advance (l : Ledger) (m : Mark) : (u.advance l m).tokens = l.tokens := by
  unfold advance
  cases u.takenBy? m <;> simp

theorem takenAt_advance {l : Ledger} (hl : l.tokens = u.ledger.tokens) (m : Mark) (i : Nat) :
    (u.advance l m).takenAt i = true ↔ l.takenAt i = true ∨ u.takes m i = true := by
  have hSize : l.size = u.ledger.size := by simpa [Ledger.tokens, Ledger.size] using congrArg List.length hl
  cases hs : u.takenBy? m with
  | none => simp [advance, takes, hs]
  | some s =>
      simp only [advance, hs, Option.map_some, Option.getD_some, Ledger.takenAt_take]
      constructor
      · intro h
        exact h.imp id fun h => takes_iff.mpr ⟨s, hs, h.1⟩
      · intro h
        refine h.imp id fun h => ?_
        have hi : i ∈ s := by simpa [takes, hs] using h
        exact ⟨hi, hSize ▸ lt_size_of_takes h⟩

section Step
variable {l : Ledger} {r : SourceRange}

theorem claim_eq (hl : l.tokens = u.ledger.tokens) (access : Access) :
    l.claim r access = (u.ledger.resolve r).map fun s => (l.offered s access, l.take s) := by
  rw [Ledger.claim, Ledger.resolve_congr hl]

theorem settleAt_claim (hl : l.tokens = u.ledger.tokens) {e : Entity} (hr : e.range? u = some r) :
    (u.settleAt l r (.claim e)).2 = u.advance l (.claim e) ∧
      ∀ e', holdings [(u.settleAt l r (.claim e)).1] e' = u.grant l (.claim e) e' := by
  have hSpan : u.spanOf? e = (u.ledger.resolve r).toOption := by rw [spanOf?, hr]; rfl
  have hClaim := claim_eq (r := r) hl e.access
  cases hs : u.ledger.resolve r with
  | error err =>
      rw [hs] at hSpan hClaim
      have hSettle : u.settleAt l r (.claim e) = (.reported (err.diagnostic (e.label u) r), l) := by
        rw [settleAt, hClaim]
        rfl
      rw [hSettle]
      refine ⟨by rw [advance, takenBy?, hSpan]; rfl, fun e' => ?_⟩
      by_cases he : e = e'
      · subst he
        rw [grant, if_pos rfl, hSpan]
        rfl
      · rw [grant, if_neg (by simpa using he)]
        rfl
  | ok s =>
      rw [hs] at hSpan hClaim
      have hSettle : u.settleAt l r (.claim e) = (.granted e (l.offered s e.access), l.take s) := by
        rw [settleAt, hClaim]
        rfl
      rw [hSettle]
      refine ⟨by rw [advance, takenBy?, hSpan]; rfl, fun e' => ?_⟩
      by_cases he : e = e'
      · subst he
        rw [grant, if_pos rfl, hSpan]
        simp [holdings, Except.toOption]
      · rw [grant, if_neg (by simpa using he)]
        simp [holdings, he]

theorem settleAt_skip (hl : l.tokens = u.ledger.tokens) {d : DeclId}
    (hr : (u.decl? d).map (·.range) = some r) :
    (u.settleAt l r (.skip d)).2 = u.advance l (.skip d) ∧
      ∀ e, holdings [(u.settleAt l r (.skip d)).1] e = [] := by
  have hSpan : u.declSpan? d = (u.ledger.resolve r).toOption := by
    obtain ⟨decl, hd, rfl⟩ := Option.map_eq_some_iff.mp hr
    rw [declSpan?, hd]
    rfl
  simp only [settleAt, Ledger.discard, claim_eq hl, advance, takenBy?, hSpan]
  cases u.ledger.resolve r <;> exact ⟨rfl, fun e => rfl⟩

end Step

/-- One mark settled: its entity receives the grant, and the ledger moves on. -/
theorem settle_cons {l : Ledger} (hl : l.tokens = u.ledger.tokens) (m : Mark) (rest : List Mark)
    (e : Entity) :
    holdings (u.settle l (m :: rest)) e =
        u.grant l m e ++ holdings (u.settle (u.advance l m) rest) e ∧
      u.settledLedger l (m :: rest) = u.settledLedger (u.advance l m) rest := by
  simp only [settle, settledLedger]
  cases hr : u.rangeOf m with
  | none =>
      have hNone : u.takenBy? m = none ∧ u.grant l m e = [] := by
        cases m with
        | claim e' =>
            have hr : e'.range? u = none := hr
            have hSpan : u.spanOf? e' = none := by rw [spanOf?, hr]; rfl
            refine ⟨hSpan, ?_⟩
            unfold grant
            split
            · next he =>
                cases he
                rw [hSpan]
                rfl
            · rfl
        | skip d =>
            have hd : u.decl? d = none := Option.map_eq_none_iff.mp hr
            exact ⟨by rw [takenBy?, declSpan?, hd]; rfl, rfl⟩
        | noFlow d err => exact ⟨rfl, rfl⟩
      simp [advance, hNone]
  | some r =>
      have hStep : (u.settleAt l r m).2 = u.advance l m ∧
          holdings [(u.settleAt l r m).1] e = u.grant l m e := by
        cases m with
        | claim e' => exact ⟨(settleAt_claim hl hr).1, (settleAt_claim hl hr).2 e⟩
        | skip d => exact ⟨(settleAt_skip hl hr).1, (settleAt_skip hl hr).2 e⟩
        | noFlow d err => exact ⟨rfl, rfl⟩
      rw [← hStep.1, ← hStep.2]
      exact ⟨by simp [holdings], rfl⟩

/-- Later marks are settled against the ledger that the earlier ones left. -/
theorem settle_append (l : Ledger) (ms ms' : List Mark) :
    u.settle l (ms ++ ms') = u.settle l ms ++ u.settle (u.settledLedger l ms) ms' := by
  induction ms generalizing l with
  | nil => rfl
  | cons m ms ih =>
      rw [List.cons_append, settle, settle, settledLedger]
      cases u.rangeOf m with
      | none => exact ih l
      | some r => exact congrArg _ (ih _)

theorem takenAt_settledLedger {l : Ledger} (hl : l.tokens = u.ledger.tokens) (ms : List Mark) (i : Nat) :
    (u.settledLedger l ms).takenAt i = true ↔
      l.takenAt i = true ∨ ∃ m ∈ ms, u.takes m i = true := by
  induction ms generalizing l with
  | nil => simp [settledLedger]
  | cons m ms ih =>
      -- the entity is of no account for the ledger
      rw [(settle_cons hl m ms (.block ⟨0⟩ 0)).2, ih (by simpa using hl), takenAt_advance hl, or_assoc]
      simp

/-- An exclusive entity holds the free positions that one of its claims is the first mark to take. -/
theorem holdings_exclusive {l : Ledger} (hl : l.tokens = u.ledger.tokens) {e : Entity}
    (he : e.access = .exclusive) (ms : List Mark) :
    holdings (u.settle l ms) e = l.tokens.filter fun t =>
      l.takenAt t.index = false ∧ u.firstTaker? ms t.index = some (.claim e) := by
  induction ms generalizing l with
  | nil => simp [settle, holdings, firstTaker?]
  | cons m ms ih =>
      have hAfter : ∀ i, (u.advance l m).takenAt i = false ↔
          l.takenAt i = false ∧ u.takes m i = false := by
        intro i
        simpa using not_congr (takenAt_advance hl m i)
      rw [(settle_cons hl m ms e).1, ih (by simpa using hl), tokens_advance]
      simp only [hAfter]
      by_cases hm : m = .claim e
      · subst hm
        -- the span is used up: whatever the entity claims later, it claims in vain
        have hLater : (l.tokens.filter fun t => decide ((l.takenAt t.index = false ∧
            u.takes (.claim e) t.index = false) ∧ u.firstTaker? ms t.index = some (.claim e))) = [] := by
          refine List.filter_eq_nil_iff.mpr fun t _ h => ?_
          have h := of_decide_eq_true h
          rw [takes_of_firstTaker? h.2] at h
          cases h.1.2
        rw [hLater, List.append_nil, grant_claim]
        apply List.filter_congr
        intro t _
        refine decide_eq_decide.mpr ?_
        rw [firstTaker?_cons]
        constructor
        · intro h
          exact ⟨h.2.resolve_left (by simp [he]), if_pos h.1⟩
        · intro h
          rw [← firstTaker?_cons] at h
          exact ⟨takes_of_firstTaker? h.2, Or.inr h.1⟩
      · rw [grant, if_neg hm, List.nil_append]
        apply List.filter_congr
        intro t _
        refine decide_eq_decide.mpr ?_
        rw [and_assoc, firstTaker?_cons]
        cases u.takes m t.index <;> simp [hm]

/-- A definition that claims once holds its whole span. -/
theorem holdings_shared {l : Ledger} (hl : l.tokens = u.ledger.tokens) {e : Entity}
    (he : e.access = .shared) {ms : List Mark} (hc : ms.count (.claim e) ≤ 1) :
    holdings (u.settle l ms) e = l.tokens.filter fun t =>
      .claim e ∈ ms ∧ u.takes (.claim e) t.index = true := by
  induction ms generalizing l with
  | nil => simp [settle, holdings]
  | cons m ms ih =>
      rw [(settle_cons hl m ms e).1, ih (by simpa using hl) ?count, tokens_advance]
      case count => exact Nat.le_trans List.count_le_count_cons hc
      by_cases hm : m = .claim e
      · subst hm
        have hOnce : Mark.claim e ∉ ms := by
          rw [List.count_cons_self] at hc
          exact List.count_eq_zero.mp (by omega)
        simp [grant_claim, he, hOnce]
      · have hMem : Mark.claim e ∈ m :: ms ↔ Mark.claim e ∈ ms := by simp [Ne.symm hm]
        simp only [grant, if_neg hm, List.nil_append, hMem]

/-- Whether an entity is to hold a position: an exclusive one if its claim takes the position first, a
definition if its claim takes it at all. -/
def awarded (u : SourceUnit) (ms : List Mark) (e : Entity) (i : Nat) : Bool :=
  match e.access with
  | .exclusive => u.firstTaker? ms i = some (.claim e)
  | .shared => .claim e ∈ ms ∧ u.takes (.claim e) i = true

theorem holdings_eq_filter {ms : List Mark} {e : Entity}
    (h : e.access = .exclusive ∨ ms.count (.claim e) ≤ 1) :
    holdings (u.settle u.ledger ms) e = u.ledger.tokens.filter (u.awarded ms e ·.index) := by
  cases he : e.access with
  | exclusive =>
      rw [holdings_exclusive rfl he]
      simp [awarded, he, ledger, Ledger.takenAt_ofLexemes]
  | shared =>
      rw [holdings_shared rfl he (h.resolve_left (by simp [he]))]
      simp [awarded, he]

theorem claim_of_awarded {ms : List Mark} {e : Entity} {i : Nat} (h : u.awarded ms e i = true) :
    .claim e ∈ ms ∧ u.takes (.claim e) i = true := by
  unfold awarded at h
  split at h
  · have h := of_decide_eq_true h
    exact ⟨mem_of_firstTaker? h, takes_of_firstTaker? h⟩
  · exact of_decide_eq_true h

/-- No two exclusive entities are to hold one position. -/
theorem eq_of_awarded {ms : List Mark} {e e' : Entity} {i : Nat} (he : e.access = .exclusive)
    (he' : e'.access = .exclusive) (h : u.awarded ms e i = true) (h' : u.awarded ms e' i = true) :
    e = e' := by
  simp only [awarded, he, he', decide_eq_true_eq] at h h'
  exact Mark.claim.inj (Option.some.inj (h.symm.trans h'))

/-- A position that some mark takes is held by an entity unless a skipped function takes it. -/
theorem awarded_or_skip {ms : List Mark} {m : Mark} {i : Nat} (hm : m ∈ ms) (h : u.takes m i = true) :
    (∃ e, .claim e ∈ ms ∧ u.awarded ms e i = true) ∨
      ∃ d, u.firstTaker? ms i = some (.skip d) := by
  obtain ⟨first, hFirst⟩ := exists_firstTaker? hm h
  have hMem := mem_of_firstTaker? hFirst
  have hTakes := takes_of_firstTaker? hFirst
  cases first with
  | noFlow d e => cases hTakes
  | skip d => exact Or.inr ⟨d, hFirst⟩
  | claim e =>
      refine Or.inl ⟨e, hMem, ?_⟩
      unfold awarded
      cases e.access with
      | exclusive => exact decide_eq_true hFirst
      | shared => exact decide_eq_true ⟨hMem, hTakes⟩

theorem holdings_append (xs ys : List Outcome) (e : Entity) :
    holdings (xs ++ ys) e = holdings xs e ++ holdings ys e := List.flatMap_append

theorem reports_append (xs ys : List Outcome) : reports (xs ++ ys) = reports xs ++ reports ys :=
  List.filterMap_append

theorem holdings_settleAt_of_ne {e : Entity} {m : Mark} (h : m ≠ .claim e) (l : Ledger) (r : SourceRange) :
    holdings [(u.settleAt l r m).1] e = [] := by
  cases m with
  | claim e' =>
      have he : e' ≠ e := fun hEq => h (hEq ▸ rfl)
      rw [settleAt]
      cases l.claim r e'.access <;> simp [holdings, he]
  | skip d =>
      rw [settleAt]
      cases l.discard r <;> rfl
  | noFlow d err => rfl

theorem holdings_settle_of_not_mem {e : Entity} {ms : List Mark} (h : .claim e ∉ ms) (l : Ledger) :
    holdings (u.settle l ms) e = [] := by
  induction ms generalizing l with
  | nil => rfl
  | cons m ms ih =>
      obtain ⟨hHead, hTail⟩ := not_or.mp (mt List.mem_cons.mpr h)
      rw [settle]
      cases u.rangeOf m with
      | none => exact ih hTail l
      | some r =>
          change holdings ([(u.settleAt l r m).1] ++ u.settle (u.settleAt l r m).2 ms) e = []
          rw [holdings_append, holdings_settleAt_of_ne (Ne.symm hHead), ih hTail, List.append_nil]

theorem tokens_settledLedger {l : Ledger} (hl : l.tokens = u.ledger.tokens) (ms : List Mark) :
    (u.settledLedger l ms).tokens = u.ledger.tokens := by
  induction ms generalizing l with
  | nil => exact hl
  | cons m ms ih =>
      -- the entity is of no account for the ledger
      rw [(settle_cons hl m ms (.block ⟨0⟩ 0)).2]
      exact ih (by simpa using hl)

theorem settledLedger_append (l : Ledger) (ms ms' : List Mark) :
    u.settledLedger l (ms ++ ms') = u.settledLedger (u.settledLedger l ms) ms' := by
  induction ms generalizing l with
  | nil => rfl
  | cons m ms ih =>
      rw [List.cons_append, settledLedger, settledLedger]
      cases u.rangeOf m with
      | none => exact ih l
      | some r => exact ih _

theorem settle_singleton {m : Mark} {r : SourceRange} (hr : u.rangeOf m = some r) (l : Ledger) :
    u.settle l [m] = [(u.settleAt l r m).1] ∧ u.settledLedger l [m] = (u.settleAt l r m).2 := by
  simp only [settle, settledLedger, hr, and_self]

end UnitGraph.SourceUnit
