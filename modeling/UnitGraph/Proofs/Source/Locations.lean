import UnitGraph.Proofs.Source.History

/-!
# Ranges by location

A range names two locations, and the ledger turns these into positions of the stream. Where later tokens lie at
greater locations the positions can be left out: what a range finds, or why it finds nothing, can be read off
the locations of the tokens alone. Claims and discards agree with that reading after every history.
-/
namespace UnitGraph

/-- What a range finds among tokens, by their locations: those that it covers, provided that both its ends are
locations of tokens and it is not inverted. -/
def SourceRange.lookup (r : SourceRange) (tokens : List Token) : Except LookupError (List Token) :=
  if r.first ∉ tokens.map (·.location) then .error (.firstNotToken r.first)
  else if r.last ∉ tokens.map (·.location) then .error (.lastNotToken r.last)
  else if r.Inverted then .error (.inverted r)
  else .ok (tokens.filter (·.location ∈ r))

namespace Ledger

/-- Later tokens of the stream lie at greater locations. -/
def Ascending (l : Ledger) : Prop := l.tokens.Pairwise (·.location < ·.location)

/-- No step of some calls on an empty ledger has spent a stream position. -/
def Unspent (calls : List LedgerCall) (i : Nat) : Prop := ∀ s ∈ empty.history calls, ¬ s.Spends i

instance (calls : List LedgerCall) (i : Nat) : Decidable (Unspent calls i) :=
  decidable_of_iff _ (takenAt_afterCalls_empty calls i)

variable {l : Ledger} {r : SourceRange}

theorem slot?_eq_none_iff {location : Nat} :
    l.slot? location = none ↔ location ∉ l.tokens.map (·.location) := by
  rw [slot?, tokenAt?_eq_find?, Option.map_eq_none_iff, List.find?_eq_none]
  simp

namespace Ascending

theorem location_lt (h : l.Ascending) {t t' : Token} (ht : t ∈ l.tokens) (ht' : t' ∈ l.tokens)
    (hlt : t.index < t'.index) : t.location < t'.location := by
  obtain ⟨hi, hAt⟩ := List.getElem?_eq_some_iff.mp (getElem?_tokens_index ht)
  obtain ⟨hi', hAt'⟩ := List.getElem?_eq_some_iff.mp (getElem?_tokens_index ht')
  have := List.pairwise_iff_getElem.mp h t.index t'.index hi hi' hlt
  rwa [hAt, hAt'] at this

theorem index_le_iff (h : l.Ascending) {t t' : Token} (ht : t ∈ l.tokens) (ht' : t' ∈ l.tokens) :
    t.index ≤ t'.index ↔ t.location ≤ t'.location := by
  constructor
  · intro hle
    rcases Nat.lt_or_eq_of_le hle with hlt | hEq
    · exact Nat.le_of_lt (h.location_lt ht ht' hlt)
    · have hAt := getElem?_tokens_index ht
      rw [hEq, getElem?_tokens_index ht'] at hAt
      cases hAt
      exact Nat.le_refl _
  · intro hle
    by_contra hlt
    exact Nat.not_lt.mpr hle (h.location_lt ht' ht (Nat.not_le.mp hlt))

/-- The slot of a location is the index of the one token there. -/
theorem exists_slot (h : l.Ascending) {location : Nat} (hFound : location ∈ l.tokens.map (·.location)) :
    ∃ t ∈ l.tokens, t.location = location ∧ l.slot? location = some t.index := by
  obtain ⟨t, ht, rfl⟩ := List.mem_map.mp hFound
  have hLast : ∀ t' ∈ l.tokens, t.index < t'.index → t'.location ≠ t.location :=
    fun t' ht' hlt => Nat.ne_of_gt (h.location_lt ht ht' hlt)
  refine ⟨t, ht, rfl, ?_⟩
  rw [slot?, tokenAt?_eq_some_iff.mpr ⟨ht, rfl, hLast⟩, Option.map_some]

/-- The positions in the span of a range are those of the tokens whose locations lie in the range. -/
theorem lookup_eq (h : l.Ascending) (r : SourceRange) :
    r.lookup l.tokens = (l.resolve r).map fun s => l.tokens.filter (·.index ∈ s) := by
  rw [SourceRange.lookup]
  by_cases hFirst : r.first ∈ l.tokens.map (·.location)
  · obtain ⟨t, ht, hLocation, hSlot⟩ := h.exists_slot hFirst
    rw [if_neg (not_not_intro hFirst)]
    by_cases hLast : r.last ∈ l.tokens.map (·.location)
    · obtain ⟨t', ht', hLocation', hSlot'⟩ := h.exists_slot hLast
      rw [if_neg (not_not_intro hLast)]
      have hOrder : t.index ≤ t'.index ↔ ¬ r.Inverted := by
        rw [h.index_le_iff ht ht', hLocation, hLocation', SourceRange.Inverted, Nat.not_lt]
      by_cases hInverted : r.Inverted
      · have hle : ¬ t.index ≤ t'.index := fun hle => hOrder.mp hle hInverted
        simp only [if_pos hInverted, resolve, hSlot, hSlot', if_neg hle, Except.map]
      · simp only [if_neg hInverted, resolve, hSlot, hSlot', if_pos (hOrder.mpr hInverted), Except.map]
        congr 1
        apply List.filter_congr
        intro x hx
        rw [decide_eq_decide, SourceRange.mem_iff, Span.mem_iff, ← hLocation, ← hLocation',
          h.index_le_iff ht hx, h.index_le_iff hx ht']
    · simp only [if_pos hLast, resolve, hSlot, slot?_eq_none_iff.mpr hLast, Except.map]
  · simp only [if_pos hFirst, resolve, slot?_eq_none_iff.mpr hFirst, Except.map]

theorem claim_eq (h : l.Ascending) (r : SourceRange) (access : Access) :
    (l.claim r access).map Prod.fst =
      (r.lookup l.tokens).map (·.filter fun t => access = .shared ∨ l.takenAt t.index = false) := by
  rw [claim, h.lookup_eq]
  cases l.resolve r with
  | error e => rfl
  | ok s =>
      simp only [Except.map, offered_eq_filter, List.filter_filter, Bool.decide_and]
      congr 1
      exact List.filter_congr fun t _ => Bool.and_comm _ _

end Ascending

theorem discard_eq (l : Ledger) (r : SourceRange) :
    (l.discard r).map Prod.fst = ((l.claim r .exclusive).map Prod.fst).map (·.length) := by
  rw [discard]
  cases l.claim r .exclusive <;> rfl

theorem tokens_afterCalls_eq_mapIdx (calls : List LedgerCall) :
    (empty.afterCalls calls).tokens = (LedgerCall.lexemes calls).mapIdx Token.ofLexeme := by
  rw [tokens_afterCalls_empty, LedgerStep.stream, map_call_history]

theorem ascending_afterCalls {calls : List LedgerCall}
    (h : (LedgerCall.lexemes calls).Pairwise (·.location < ·.location)) :
    (empty.afterCalls calls).Ascending := by
  rw [Ascending, tokens_afterCalls_eq_mapIdx, List.pairwise_iff_getElem]
  intro i j hi hj hlt
  simp only [List.getElem_mapIdx, Token.location_ofLexeme]
  exact List.pairwise_iff_getElem.mp h i j _ _ hlt

/-- Ranges mean locations, after every history of a ledger whose lexemes ascend. -/
theorem claims_by_location (calls : List LedgerCall) (r : SourceRange)
    (hSorted : (LedgerCall.lexemes calls).Pairwise (·.location < ·.location)) :
    let found := r.lookup ((LedgerCall.lexemes calls).mapIdx Token.ofLexeme)
    ((empty.afterCalls calls).claim r .shared).map Prod.fst = found ∧
    ((empty.afterCalls calls).claim r .exclusive).map Prod.fst =
      found.map (·.filter fun t => Unspent calls t.index) ∧
    ((empty.afterCalls calls).discard r).map Prod.fst =
      found.map fun ts => (ts.filter fun t => Unspent calls t.index).length := by
  have hUnspent : ∀ t : Token, (empty.afterCalls calls).takenAt t.index = false ↔ Unspent calls t.index :=
    fun t => takenAt_afterCalls_empty calls t.index
  have hClaim := (ascending_afterCalls hSorted).claim_eq r
  simp only [tokens_afterCalls_eq_mapIdx, hUnspent] at hClaim
  generalize r.lookup ((LedgerCall.lexemes calls).mapIdx Token.ofLexeme) = found at hClaim ⊢
  have hShared : found.map (·.filter fun t => Access.shared = .shared ∨ Unspent calls t.index) = found := by
    cases found <;> simp [Except.map]
  have hExclusive : (fun ts : List Token => ts.filter fun t => Access.exclusive = .shared ∨ Unspent calls t.index) =
      fun ts => ts.filter fun t => Unspent calls t.index := by
    simp
  refine ⟨(hClaim .shared).trans hShared, ?_, ?_⟩
  · rw [hClaim, hExclusive]
  · rw [discard_eq, hClaim, hExclusive]
    cases found <;> rfl

/-- Two tokens handed out, one discarded and one added later: the range finds all five, and two are unspent. -/
theorem claims_by_location_after_discard :
    let calls := [.add ⟨"kw_int", "int", 0⟩, .add ⟨"identifier", "foo", 4⟩, .add ⟨"l_paren", "(", 8⟩,
      .claim ⟨0, 4⟩ .shared, .add ⟨"r_paren", ")", 10⟩, .discard ⟨8, 8⟩, .claim ⟨1, 8⟩ .exclusive,
      .add ⟨"semi", ";", 12⟩]
    (LedgerCall.lexemes calls).Pairwise (·.location < ·.location) ∧
    (((empty.afterCalls calls).claim ⟨0, 12⟩ .shared).map Prod.fst).map (·.map (·.name)) =
      .ok ["int", "foo", "(", ")", ";"] ∧
    ((empty.afterCalls calls).claim ⟨0, 12⟩ .exclusive).map Prod.fst =
      .ok [⟨3, ")", "r_paren", 10⟩, ⟨4, ";", "semi", 12⟩] ∧
    ((empty.afterCalls calls).discard ⟨12, 4⟩).map Prod.fst = .error (.inverted ⟨12, 4⟩) := by
  intro calls
  have hSorted : (LedgerCall.lexemes calls).Pairwise (·.location < ·.location) := by decide
  obtain ⟨hShared, hExclusive, -⟩ := claims_by_location calls ⟨0, 12⟩ hSorted
  obtain ⟨-, -, hDiscard⟩ := claims_by_location calls ⟨12, 4⟩ hSorted
  refine ⟨hSorted, ?_, hExclusive.trans rfl, hDiscard.trans rfl⟩
  rw [hShared]
  rfl

end Ledger

end UnitGraph
