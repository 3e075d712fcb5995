import Mathlib.Data.List.Induction
import UnitGraph.Source.Ledger

/-!
# Positions, slots and spans of a ledger

Position and index of an entry agree, so that a span selects a stretch of the stream. What a range resolves
to depends on the tokens alone and never on which of them have been taken. Taking a span takes exactly its
positions.
-/
namespace UnitGraph.Ledger

/-- Whether the token at a stream position has been taken. -/
def takenAt (l : Ledger) (i : Nat) : Bool := ((l.entries[i]?).map (·.taken)).getD false

/-- The slots of a range, if it is resolvable. -/
def span? (l : Ledger) (r : SourceRange) : Option Span := (l.resolve r).toOption

theorem index_getElem? {l : Ledger} {i : Nat} {e : LedgerEntry} (h : l.entries[i]? = some e) :
    e.token.index = i := by
  have hi : (l.entries.map (·.token.index))[i]? = some e.token.index := by simp [h]
  rw [l.numbered] at hi
  obtain ⟨hlt, hi⟩ := List.getElem?_eq_some_iff.mp hi
  simpa using hi.symm

theorem getElem?_index {l : Ledger} {e : LedgerEntry} (h : e ∈ l.entries) :
    l.entries[e.token.index]? = some e := by
  obtain ⟨i, hi⟩ := List.getElem?_of_mem h
  rw [index_getElem? hi, hi]

theorem getElem?_tokens_index {l : Ledger} {t : Token} (h : t ∈ l.tokens) :
    l.tokens[t.index]? = some t := by
  obtain ⟨e, he, rfl⟩ := List.mem_map.mp h
  simp [tokens, getElem?_index he]

theorem mem_tokens_of_lt {l : Ledger} {i : Nat} (h : i < l.size) : ∃ t ∈ l.tokens, t.index = i := by
  have hi : l.entries[i]? = some l.entries[i] := List.getElem?_eq_getElem h
  exact ⟨l.entries[i].token, List.mem_map.mpr ⟨_, List.getElem_mem h, rfl⟩, index_getElem? hi⟩

theorem index_lt_size {l : Ledger} {t : Token} (h : t ∈ l.tokens) : t.index < l.size := by
  obtain ⟨hlt, _⟩ := List.getElem?_eq_some_iff.mp (getElem?_tokens_index h)
  simpa [tokens, size] using hlt

theorem map_index_tokens (l : Ledger) : l.tokens.map (·.index) = List.range l.size := by
  rw [tokens, List.map_map]
  exact l.numbered

theorem pairwise_tokens (l : Ledger) : l.tokens.Pairwise (·.index < ·.index) := by
  have h : (l.tokens.map (·.index)).Pairwise (· < ·) := by
    rw [map_index_tokens]
    exact List.pairwise_lt_range
  exact List.pairwise_map.mp h

theorem index_of_getElem?_tokens {l : Ledger} {i : Nat} {t : Token} (h : l.tokens[i]? = some t) :
    t.index = i := by
  rw [tokens, List.getElem?_map, Option.map_eq_some_iff] at h
  obtain ⟨e, he, rfl⟩ := h
  exact index_getElem? he

/-- The tokens between two stream positions are a stretch of the stream. -/
theorem filter_tokens_between (l : Ledger) (a b : Nat) :
    (l.tokens.filter fun t => a ≤ t.index ∧ t.index ≤ b) = (l.tokens.drop a).take (b + 1 - a) := by
  have hBefore : ∀ t ∈ l.tokens.take a, t.index < a := by
    intro t ht
    obtain ⟨i, hi⟩ := List.getElem?_of_mem ht
    obtain ⟨hlt, _⟩ := List.getElem?_eq_some_iff.mp hi
    rw [List.length_take] at hlt
    rw [List.getElem?_take_of_lt (by omega)] at hi
    have := index_of_getElem?_tokens hi
    omega
  have hBetween : ∀ t ∈ (l.tokens.drop a).take (b + 1 - a), a ≤ t.index ∧ t.index ≤ b := by
    intro t ht
    obtain ⟨i, hi⟩ := List.getElem?_of_mem ht
    obtain ⟨hlt, _⟩ := List.getElem?_eq_some_iff.mp hi
    rw [List.length_take] at hlt
    rw [List.getElem?_take_of_lt (by omega), List.getElem?_drop] at hi
    have := index_of_getElem?_tokens hi
    omega
  have hAfter : ∀ t ∈ (l.tokens.drop a).drop (b + 1 - a), ¬ (a ≤ t.index ∧ t.index ≤ b) := by
    intro t ht
    obtain ⟨i, hi⟩ := List.getElem?_of_mem ht
    rw [List.getElem?_drop, List.getElem?_drop] at hi
    have := index_of_getElem?_tokens hi
    omega
  conv => lhs; rw [← List.take_append_drop a l.tokens, ← List.take_append_drop (b + 1 - a) (l.tokens.drop a)]
  rw [List.filter_append, List.filter_append, List.filter_eq_nil_iff.mpr, List.filter_eq_self.mpr,
    List.filter_eq_nil_iff.mpr, List.nil_append, List.append_nil]
  · intro t ht
    simpa using hAfter t ht
  · intro t ht
    simpa using hBetween t ht
  · intro t ht h
    have := hBefore t ht
    have := of_decide_eq_true h
    omega

theorem tokenAt?_eq_find? (l : Ledger) (location : Nat) :
    l.tokenAt? location = l.tokens.reverse.find? (·.location == location) := by
  rw [tokenAt?, entryAt?, tokens, ← List.map_reverse, List.find?_map]
  rfl

/-- The token that a location stands for: it lies there, and no later one does. -/
theorem tokenAt?_eq_some_iff {l : Ledger} {location : Nat} {t : Token} :
    l.tokenAt? location = some t ↔ t ∈ l.tokens ∧ t.location = location ∧
      ∀ t' ∈ l.tokens, t.index < t'.index → t'.location ≠ location := by
  have hLast : ∀ {t}, l.tokenAt? location = some t → t ∈ l.tokens ∧ t.location = location ∧
      ∀ t' ∈ l.tokens, t.index < t'.index → t'.location ≠ location := by
    intro t h
    rw [tokenAt?_eq_find?, List.find?_eq_some_iff_append] at h
    obtain ⟨hLocation, later, earlier, hSplit, hLater⟩ := h
    have hMem : ∀ t', t' ∈ l.tokens ↔ t' ∈ later ++ t :: earlier := fun t' => by
      rw [← hSplit, List.mem_reverse]
    have hSorted : (later ++ t :: earlier).Pairwise (fun x y => y.index < x.index) :=
      hSplit ▸ List.pairwise_reverse.mpr l.pairwise_tokens
    refine ⟨(hMem t).mpr (by simp), by simpa using hLocation, ?_⟩
    intro t' ht' hlt
    rcases List.mem_append.mp ((hMem t').mp ht') with hLate | hRest
    · simpa using hLater t' hLate
    · have hTail := (List.pairwise_cons.mp (List.pairwise_append.mp hSorted).2.1).1
      rcases List.mem_cons.mp hRest with rfl | hEarly
      · exact absurd hlt (Nat.lt_irrefl _)
      · exact absurd hlt (Nat.lt_asymm (hTail t' hEarly))
  constructor
  · exact hLast
  · intro h
    obtain ⟨hMem, hLocation, hNone⟩ := h
    cases hFound : l.tokenAt? location with
    | none =>
        rw [tokenAt?_eq_find?, List.find?_eq_none] at hFound
        exact absurd hLocation (by simpa using hFound t (List.mem_reverse.mpr hMem))
    | some t' =>
        obtain ⟨hMem', hLocation', hNone'⟩ := hLast hFound
        have hIndex : t'.index = t.index := by
          rcases Nat.lt_trichotomy t'.index t.index with hlt | hEq | hlt
          · exact absurd hLocation (hNone' t hMem hlt)
          · exact hEq
          · exact absurd hLocation' (hNone t' hMem' hlt)
        have hAt := getElem?_tokens_index hMem'
        rw [hIndex, getElem?_tokens_index hMem] at hAt
        exact hAt.symm

theorem slot?_congr {l m : Ledger} (h : l.tokens = m.tokens) (location : Nat) :
    l.slot? location = m.slot? location := by
  rw [slot?, slot?, tokenAt?_eq_find?, tokenAt?_eq_find?, h]

theorem resolve_congr {l m : Ledger} (h : l.tokens = m.tokens) (r : SourceRange) :
    l.resolve r = m.resolve r := by
  rw [resolve, resolve, slot?_congr h, slot?_congr h]

theorem slot?_lt_size {l : Ledger} {location i : Nat} (h : l.slot? location = some i) :
    i < l.size := by
  rw [slot?, tokenAt?_eq_find?, Option.map_eq_some_iff] at h
  obtain ⟨t, ht, rfl⟩ := h
  exact index_lt_size (List.mem_reverse.mp (List.mem_of_find?_eq_some ht))

theorem resolve_eq_ok_iff {l : Ledger} {r : SourceRange} {s : Span} :
    l.resolve r = .ok s ↔
      l.slot? r.first = some s.first ∧ l.slot? r.last = some s.last ∧ s.first ≤ s.last := by
  unfold resolve
  cases hf : l.slot? r.first with
  | none => simp
  | some i =>
      cases hl : l.slot? r.last with
      | none => simp
      | some j =>
          by_cases hij : i ≤ j
          · simp only [hij, if_true, Except.ok.injEq, Option.some.injEq]
            constructor
            · intro h
              subst h
              exact ⟨rfl, rfl, hij⟩
            · intro h
              rw [h.1, h.2.1]
          · simp only [hij, if_false, Option.some.injEq, false_iff, reduceCtorEq]
            intro h
            omega

theorem span?_eq_some_iff {l : Ledger} {r : SourceRange} {s : Span} :
    l.span? r = some s ↔ l.resolve r = .ok s := by
  unfold span?
  cases l.resolve r <;> simp [Except.toOption]

theorem lt_size_of_span? {l : Ledger} {r : SourceRange} {s : Span} (h : l.span? r = some s)
    {i : Nat} (hi : i ∈ s) : i < l.size := by
  have hl := slot?_lt_size (resolve_eq_ok_iff.mp (span?_eq_some_iff.mp h)).2.1
  have := Span.mem_iff.mp hi
  omega

theorem takenAt_take (l : Ledger) (s : Span) (i : Nat) :
    (l.take s).takenAt i = true ↔ l.takenAt i = true ∨ (i ∈ s ∧ i < l.size) := by
  simp only [takenAt, take, List.getElem?_map]
  cases h : l.entries[i]? with
  | none =>
      have hi := List.getElem?_eq_none_iff.mp h
      simp only [size, Option.map_none, Option.getD_none]
      constructor
      · intro ht
        cases ht
      · rintro (ht | ⟨_, hlt⟩)
        · cases ht
        · omega
  | some e =>
      have hi := index_getElem? h
      obtain ⟨hlt, _⟩ := List.getElem?_eq_some_iff.mp h
      by_cases hs : i ∈ s <;> simp [hi, hs, size, hlt]

theorem offered_eq_filter (l : Ledger) (s : Span) (access : Access) :
    l.offered s access = l.tokens.filter fun t =>
      t.index ∈ s ∧ (access = .shared ∨ l.takenAt t.index = false) := by
  rw [offered, tokens, List.filter_map]
  congr 1
  apply List.filter_congr
  intro e he
  simp [takenAt, getElem?_index he]

theorem free_eq_filter (l : Ledger) : l.free = l.tokens.filter fun t => l.takenAt t.index = false := by
  rw [free, tokens, List.filter_map]
  congr 1
  apply List.filter_congr
  intro e he
  simp [takenAt, getElem?_index he]

theorem mem_free_iff {l : Ledger} {t : Token} : t ∈ l.free ↔ t ∈ l.tokens ∧ l.takenAt t.index = false := by
  rw [free_eq_filter, List.mem_filter, decide_eq_true_eq]

/-- A lexeme that is added has not been taken. -/
@[simp] theorem takenAt_add (l : Ledger) (x : Lexeme) (i : Nat) : (l.add x).takenAt i = l.takenAt i := by
  rw [takenAt, takenAt, add]
  rcases Nat.lt_trichotomy i l.entries.length with hlt | rfl | hgt
  · rw [List.getElem?_append_left hlt]
  · simp
  · rw [List.getElem?_eq_none (by simp; omega), List.getElem?_eq_none (Nat.le_of_lt hgt)]

theorem tokens_ofLexemes (xs : List Lexeme) :
    (ofLexemes xs).tokens = xs.mapIdx Token.ofLexeme := by
  induction xs using List.reverseRecOn with
  | nil => rfl
  | append_singleton xs x ih =>
      have hSize : (ofLexemes xs).size = xs.length := by
        have := congrArg List.length ih
        simpa [tokens, size] using this
      rw [ofLexemes, List.foldl_append, List.foldl_cons, List.foldl_nil, ← ofLexemes, tokens_add, ih,
        hSize, List.mapIdx_append]
      simp

theorem takenAt_ofLexemes (xs : List Lexeme) (i : Nat) : (ofLexemes xs).takenAt i = false := by
  have hFree : ∀ e ∈ (ofLexemes xs).entries, e.taken = false := by
    induction xs using List.reverseRecOn with
    | nil => intro e he; cases he
    | append_singleton xs x ih =>
        intro e he
        rw [ofLexemes, List.foldl_append, List.foldl_cons, List.foldl_nil, ← ofLexemes, add] at he
        rcases List.mem_append.mp he with he | he
        · exact ih e he
        · rw [List.mem_singleton.mp he]
  unfold takenAt
  cases h : (ofLexemes xs).entries[i]? with
  | none => rfl
  | some e => exact hFree e (List.mem_of_getElem? h)

end UnitGraph.Ledger
