import Mathlib.Data.List.Basic
import UnitGraph.Proofs.Source.Ledger

/-!
# Histories of a ledger

Lexemes are added, ranges are claimed and discarded in any order, also at locations that repeat or are not in
order. A step spends a stream position if it hands out the token there or discards a range that covers the
position. The positions taken are those that some step has spent. Main statement: an exclusive claim receives
what its range covers and no earlier step has spent, so exclusive claims receive nothing in common, and
whatever has not been spent is free.
-/
namespace UnitGraph

/-- What a ledger can be asked to do. -/
inductive LedgerCall where
  | add (x : Lexeme)
  | claim (r : SourceRange) (access : Access)
  | discard (r : SourceRange)
  deriving DecidableEq, Repr

inductive LedgerAnswer where
  | added
  | received (tokens : List Token)
  | discarded (count : Nat)
  | refused (e : LookupError)
  deriving DecidableEq, Repr

/-- A call with its answer, and the ledger before and after it. -/
structure LedgerStep where
  before : Ledger
  call : LedgerCall
  answer : LedgerAnswer
  after : Ledger
  deriving DecidableEq, Repr

namespace Ledger

/-- A stream position lies in the slots of a range, as the ledger stands. -/
def Covers (l : Ledger) (r : SourceRange) (i : Nat) : Prop :=
  ∃ a b, l.slot? r.first = some a ∧ l.slot? r.last = some b ∧ a ≤ i ∧ i ≤ b

def serve (l : Ledger) : LedgerCall → LedgerAnswer × Ledger
  | .add x => (.added, l.add x)
  | .claim r access =>
      match l.claim r access with
      | .ok (tokens, rest) => (.received tokens, rest)
      | .error e => (.refused e, l)
  | .discard r =>
      match l.discard r with
      | .ok (count, rest) => (.discarded count, rest)
      | .error e => (.refused e, l)

def step (l : Ledger) (c : LedgerCall) : LedgerStep := ⟨l, c, (l.serve c).1, (l.serve c).2⟩

/-- The steps of some calls, each on the ledger that the one before it left. -/
def history : Ledger → List LedgerCall → List LedgerStep
  | _, [] => []
  | l, c :: calls => l.step c :: history (l.step c).after calls

/-- The ledger after some calls. -/
def afterCalls (l : Ledger) (calls : List LedgerCall) : Ledger := calls.foldl (fun l c => (l.step c).after) l

end Ledger

/-- The lexemes that some calls add, in order. -/
def LedgerCall.lexemes (calls : List LedgerCall) : List Lexeme :=
  calls.filterMap fun | .add x => some x | .claim .. | .discard _ => none

namespace LedgerStep

/-- The step hands out the token at a stream position, or discards a range that covers the position. -/
def Spends (s : LedgerStep) (i : Nat) : Prop :=
  (∃ ts, s.answer = .received ts ∧ ∃ t ∈ ts, t.index = i) ∨
    ∃ r n, s.call = .discard r ∧ s.answer = .discarded n ∧ s.before.Covers r i

/-- The tokens added by some steps, each with its place in the stream. -/
def stream (steps : List LedgerStep) : List Token :=
  (LedgerCall.lexemes (steps.map (·.call))).mapIdx Token.ofLexeme

/-- What a step does after some others: a claim receives tokens of the stream that its range covers, in stream
order, an exclusive one those that no earlier step has spent, and no other token is held back; a discard
answers with the number of tokens that are no longer free; only a range without slots is refused, and that
changes nothing. -/
structure Exact (earlier : List LedgerStep) (s : LedgerStep) : Prop where
  ordered : ∀ ts, s.answer = .received ts → ts.Pairwise (·.index < ·.index)
  genuine : ∀ ts, s.answer = .received ts → ∀ t ∈ ts, (stream earlier)[t.index]? = some t
  covered : ∀ r access ts, s.call = .claim r access → s.answer = .received ts →
    ∀ t ∈ ts, s.before.Covers r t.index
  fresh : ∀ r ts, s.call = .claim r .exclusive → s.answer = .received ts →
    ∀ t ∈ ts, ∀ s' ∈ earlier, ¬ s'.Spends t.index
  complete : ∀ r access ts, s.call = .claim r access → s.answer = .received ts →
    ∀ t ∈ stream earlier, s.before.Covers r t.index →
      (access = .exclusive → ∀ s' ∈ earlier, ¬ s'.Spends t.index) → t ∈ ts
  counted : ∀ n, s.answer = .discarded n →
    s.after.free.Sublist s.before.free ∧ s.before.free.length = s.after.free.length + n
  refused : ∀ e, s.answer = .refused e →
    ∃ r, (s.call = .discard r ∨ ∃ access, s.call = .claim r access) ∧ ∀ i, ¬ s.before.Covers r i
  unchanged : ∀ e, s.answer = .refused e → s.after = s.before

end LedgerStep

namespace Ledger

variable {l : Ledger} {r : SourceRange} {i : Nat}

theorem covers_iff {s : Span} (hs : l.resolve r = .ok s) : l.Covers r i ↔ i ∈ s := by
  obtain ⟨hFirst, hLast, -⟩ := resolve_eq_ok_iff.mp hs
  constructor
  · rintro ⟨a, b, ha, hb, hi⟩
    cases hFirst.symm.trans ha
    cases hLast.symm.trans hb
    exact hi
  · intro hi
    exact ⟨s.first, s.last, hFirst, hLast, hi⟩

theorem not_covers {e : LookupError} (h : l.resolve r = .error e) (i : Nat) : ¬ l.Covers r i := by
  intro hCovers
  obtain ⟨a, b, ha, hb, hai, hib⟩ := hCovers
  cases h.symm.trans (resolve_eq_ok_iff (s := ⟨a, b⟩).mpr ⟨ha, hb, Nat.le_trans hai hib⟩)

theorem mem_offered_iff {s : Span} {access : Access} {t : Token} : t ∈ l.offered s access ↔
    t ∈ l.tokens ∧ t.index ∈ s ∧ (access = .shared ∨ l.takenAt t.index = false) := by
  rw [offered_eq_filter, List.mem_filter, decide_eq_true_eq]

/-- The ways in which a call can go. -/
theorem step_cases (l : Ledger) (c : LedgerCall) :
    (∃ x, c = .add x ∧ l.step c = ⟨l, c, .added, l.add x⟩) ∨
    (∃ r access s, c = .claim r access ∧ l.resolve r = .ok s ∧
      l.step c = ⟨l, c, .received (l.offered s access), l.take s⟩) ∨
    (∃ r s, c = .discard r ∧ l.resolve r = .ok s ∧
      l.step c = ⟨l, c, .discarded (l.offered s .exclusive).length, l.take s⟩) ∨
    ∃ r e, (c = .discard r ∨ ∃ access, c = .claim r access) ∧ l.resolve r = .error e ∧
      l.step c = ⟨l, c, .refused e, l⟩ := by
  cases c with
  | add x => exact .inl ⟨x, rfl, rfl⟩
  | claim r access =>
      cases hs : l.resolve r with
      | error e =>
          refine .inr (.inr (.inr ⟨r, e, .inr ⟨access, rfl⟩, hs, ?_⟩))
          simp [step, serve, claim, hs, Except.map]
      | ok s => exact .inr (.inl ⟨r, access, s, rfl, hs, by simp [step, serve, claim, hs, Except.map]⟩)
  | discard r =>
      cases hs : l.resolve r with
      | error e =>
          refine .inr (.inr (.inr ⟨r, e, .inl rfl, hs, ?_⟩))
          simp [step, serve, discard, claim, hs, Except.map]
      | ok s => exact .inr (.inr (.inl ⟨r, s, rfl, hs, by simp [step, serve, discard, claim, hs, Except.map]⟩))

theorem tokens_step (l : Ledger) (c : LedgerCall) : (l.step c).after.tokens =
    l.tokens ++ (LedgerCall.lexemes [c]).map (Token.ofLexeme l.size) := by
  obtain ⟨x, rfl, hStep⟩ | ⟨r, access, s, rfl, -, hStep⟩ | ⟨r, s, rfl, -, hStep⟩ |
      ⟨r, e, hCall, -, hStep⟩ := l.step_cases c
  · rw [hStep, tokens_add]
    rfl
  · rw [hStep, tokens_take]
    exact (List.append_nil _).symm
  · rw [hStep, tokens_take]
    exact (List.append_nil _).symm
  · have hNone : LedgerCall.lexemes [c] = [] := by
      obtain rfl | ⟨access, rfl⟩ := hCall <;> rfl
    rw [hStep, hNone]
    exact (List.append_nil _).symm

/-- A step takes the positions that it spends, and no other. -/
theorem takenAt_step (l : Ledger) (c : LedgerCall) (i : Nat) :
    (l.step c).after.takenAt i = true ↔ l.takenAt i = true ∨ (l.step c).Spends i := by
  obtain ⟨x, rfl, hStep⟩ | ⟨r, access, s, rfl, hs, hStep⟩ | ⟨r, s, rfl, hs, hStep⟩ |
      ⟨r, e, -, -, hStep⟩ := l.step_cases c
  · simp [hStep, LedgerStep.Spends]
  · have hSpends : (l.step (.claim r access)).Spends i ↔ ∃ t ∈ l.offered s access, t.index = i := by
      simp [hStep, LedgerStep.Spends]
    rw [hSpends, hStep, takenAt_take]
    constructor
    · rintro (hTaken | ⟨hi, hlt⟩)
      · exact .inl hTaken
      · -- what the claim passes over has been taken before
        cases hTaken : l.takenAt i with
        | true => exact .inl rfl
        | false =>
            obtain ⟨t, ht, rfl⟩ := mem_tokens_of_lt hlt
            exact .inr ⟨t, mem_offered_iff.mpr ⟨ht, hi, .inr hTaken⟩, rfl⟩
    · rintro (hTaken | ⟨t, ht, rfl⟩)
      · exact .inl hTaken
      · obtain ⟨hMem, hi, -⟩ := mem_offered_iff.mp ht
        exact .inr ⟨hi, index_lt_size hMem⟩
  · have hSpends : (l.step (.discard r)).Spends i ↔ i ∈ s := by
      simp [hStep, LedgerStep.Spends, covers_iff hs]
    rw [hSpends, hStep, takenAt_take]
    exact or_congr_right (and_iff_left_of_imp fun hi => lt_size_of_span? (span?_eq_some_iff.mpr hs) hi)
  · simp [hStep, LedgerStep.Spends]

/-- The free tokens lose those of a span that were free. -/
theorem free_take (l : Ledger) (s : Span) : (l.take s).free = l.free.filter (·.index ∉ s) := by
  rw [free_eq_filter, free_eq_filter, tokens_take, List.filter_filter]
  apply List.filter_congr
  intro t ht
  have hFree : (l.take s).takenAt t.index = false ↔ t.index ∉ s ∧ l.takenAt t.index = false := by
    rw [← Bool.not_eq_true, takenAt_take, and_iff_left (index_lt_size ht), not_or, Bool.not_eq_true, and_comm]
  simp [hFree]

theorem length_free_take (l : Ledger) (s : Span) :
    l.free.length = (l.take s).free.length + (l.offered s .exclusive).length := by
  have hOffered : l.offered s .exclusive = l.free.filter (·.index ∈ s) := by
    rw [offered_eq_filter, free_eq_filter, List.filter_filter]
    exact List.filter_congr fun t _ => by simp
  have hParts := List.length_eq_length_filter_add (l := l.free) (decide <| ·.index ∈ s)
  rw [hOffered, free_take, hParts, Nat.add_comm]
  simp only [decide_not]

@[simp] theorem afterCalls_cons (l : Ledger) (c : LedgerCall) (calls : List LedgerCall) :
    l.afterCalls (c :: calls) = (l.step c).after.afterCalls calls := rfl

theorem history_append (l : Ledger) (calls calls' : List LedgerCall) :
    l.history (calls ++ calls') = l.history calls ++ (l.afterCalls calls).history calls' := by
  induction calls generalizing l with
  | nil => rfl
  | cons c calls ih => simp [history, ih]

@[simp] theorem map_call_history (l : Ledger) (calls : List LedgerCall) :
    (l.history calls).map (·.call) = calls := by
  induction calls generalizing l with
  | nil => rfl
  | cons c calls ih =>
      rw [history, List.map_cons, ih]
      rfl

/-- Whatever stands in a history is the step of a call on the ledger that the earlier calls left. -/
theorem exists_call_of_history {calls : List LedgerCall} {earlier later : List LedgerStep} {s : LedgerStep}
    (h : l.history calls = earlier ++ s :: later) :
    ∃ before c after, calls = before ++ c :: after ∧ earlier = l.history before ∧
      s = (l.afterCalls before).step c := by
  have hCalls : calls = earlier.map (·.call) ++ s.call :: later.map (·.call) := by
    have := congrArg (List.map (·.call)) h
    simpa using this
  refine ⟨_, _, _, hCalls, ?_⟩
  rw [hCalls, history_append] at h
  have hLength : (l.history (earlier.map (·.call))).length = earlier.length := by
    rw [← List.length_map (·.call), map_call_history, List.length_map]
  obtain ⟨hEarlier, hRest⟩ := List.append_inj h hLength
  exact ⟨hEarlier.symm, (List.cons.inj hRest).1.symm⟩

theorem tokens_afterCalls (l : Ledger) (calls : List LedgerCall) : (l.afterCalls calls).tokens =
    l.tokens ++ (LedgerCall.lexemes calls).mapIdx fun i x => Token.ofLexeme (l.size + i) x := by
  induction calls generalizing l with
  | nil => exact (List.append_nil _).symm
  | cons c calls ih =>
      have hTokens := l.tokens_step c
      have hSize : (l.step c).after.size = l.size + (LedgerCall.lexemes [c]).length := by
        simpa [tokens, size] using congrArg List.length hTokens
      rw [afterCalls_cons, ih, hTokens, hSize, List.append_assoc]
      cases c with
      | add x => simp [LedgerCall.lexemes, Nat.add_assoc, Nat.add_comm 1]
      | claim r access => simp [LedgerCall.lexemes]
      | discard r => simp [LedgerCall.lexemes]

/-- The positions taken are those that some step has spent. -/
theorem takenAt_afterCalls (l : Ledger) (calls : List LedgerCall) (i : Nat) :
    (l.afterCalls calls).takenAt i = true ↔ l.takenAt i = true ∨ ∃ s ∈ l.history calls, s.Spends i := by
  induction calls generalizing l with
  | nil => simp [afterCalls, history]
  | cons c calls ih => simp [ih, takenAt_step, history, or_assoc]

theorem tokens_afterCalls_empty (calls : List LedgerCall) :
    (empty.afterCalls calls).tokens = LedgerStep.stream (empty.history calls) := by
  rw [tokens_afterCalls, LedgerStep.stream, map_call_history]
  simp [empty, tokens, size]

theorem takenAt_afterCalls_empty (calls : List LedgerCall) (i : Nat) :
    (empty.afterCalls calls).takenAt i = false ↔ ∀ s ∈ empty.history calls, ¬ s.Spends i := by
  have hTaken := empty.takenAt_afterCalls calls i
  have hNone : empty.takenAt i = false := rfl
  simp only [hNone, Bool.false_eq_true, false_or] at hTaken
  rw [← Bool.not_eq_true, hTaken]
  simp only [not_exists, not_and]

theorem exact_step (calls : List LedgerCall) (c : LedgerCall) :
    ((empty.afterCalls calls).step c).Exact (empty.history calls) := by
  have hTokens := tokens_afterCalls_empty calls
  have hTaken := takenAt_afterCalls_empty calls
  generalize empty.afterCalls calls = l at hTokens hTaken ⊢
  obtain ⟨x, rfl, hStep⟩ | ⟨r, access, s, rfl, hs, hStep⟩ | ⟨r, s, rfl, -, hStep⟩ |
      ⟨r, e, hCall, hs, hStep⟩ := l.step_cases c
  · rw [hStep]
    constructor <;> nofun
  · rw [hStep]
    constructor
    case ordered =>
      rintro _ ⟨⟩
      rw [offered_eq_filter]
      exact l.pairwise_tokens.filter _
    case genuine =>
      rintro _ ⟨⟩ t ht
      rw [← hTokens]
      exact getElem?_tokens_index (mem_offered_iff.mp ht).1
    case covered =>
      rintro _ _ _ ⟨⟩ ⟨⟩ t ht
      exact (covers_iff hs).mpr (mem_offered_iff.mp ht).2.1
    case fresh =>
      rintro _ _ ⟨⟩ ⟨⟩ t ht
      exact (hTaken _).mp ((mem_offered_iff.mp ht).2.2.resolve_left nofun)
    case complete =>
      rintro _ _ _ ⟨⟩ ⟨⟩ t ht hCovers hFree
      rw [← hTokens] at ht
      refine mem_offered_iff.mpr ⟨ht, (covers_iff hs).mp hCovers, ?_⟩
      cases access with
      | shared => exact .inl rfl
      | exclusive => exact .inr ((hTaken _).mpr (hFree rfl))
    all_goals nofun
  · rw [hStep]
    constructor
    case counted =>
      rintro _ ⟨⟩
      refine ⟨?_, l.length_free_take s⟩
      rw [free_take]
      exact List.filter_sublist
    all_goals nofun
  · rw [hStep]
    constructor
    case refused => exact fun _ _ => ⟨r, hCall, not_covers hs⟩
    case unchanged => exact fun _ _ => rfl
    all_goals nofun

/-- For every sequence of calls on an empty ledger. -/
theorem history_exact (calls : List LedgerCall) :
    (∀ earlier s later, empty.history calls = earlier ++ s :: later → s.Exact earlier) ∧
    (∀ earlier s between s' later, empty.history calls = earlier ++ s :: between ++ s' :: later →
      ∀ r r' ts ts', s.call = .claim r .exclusive → s.answer = .received ts →
        s'.call = .claim r' .exclusive → s'.answer = .received ts' →
          ∀ t ∈ ts, ∀ t' ∈ ts', t.index ≠ t'.index) ∧
    (empty.afterCalls calls).free.Pairwise (·.index < ·.index) ∧
    ∀ t, t ∈ (empty.afterCalls calls).free ↔
      t ∈ LedgerStep.stream (empty.history calls) ∧ ∀ s ∈ empty.history calls, ¬ s.Spends t.index := by
  have hExact : ∀ earlier s later, empty.history calls = earlier ++ s :: later → s.Exact earlier := by
    intro earlier s later h
    obtain ⟨before, c, after, -, rfl, rfl⟩ := exists_call_of_history h
    exact exact_step before c
  refine ⟨hExact, ?_, ?_, ?_⟩
  · intro earlier s between s' later h r r' ts ts' hCall hAnswer hCall' hAnswer' t ht t' ht' hIndex
    -- the earlier of the two has spent what it received
    have hSpends : s.Spends t'.index := .inl ⟨ts, hAnswer, t, ht, hIndex⟩
    exact (hExact _ _ _ h).fresh r' ts' hCall' hAnswer' t' ht' s (by simp) hSpends
  · rw [free_eq_filter]
    exact (pairwise_tokens _).filter _
  · intro t
    rw [mem_free_iff, tokens_afterCalls_empty, takenAt_afterCalls_empty]

/-- Two tokens at one location: a range that begins there begins at the later of them. -/
example : (empty.history [.add ⟨"id", "a", 5⟩, .add ⟨"id", "b", 3⟩, .add ⟨"id", "c", 5⟩,
      .add ⟨"id", "d", 9⟩, .claim ⟨3, 5⟩ .exclusive, .claim ⟨5, 9⟩ .shared, .discard ⟨3, 9⟩,
      .claim ⟨5, 3⟩ .exclusive]).map (·.answer) =
    [.added, .added, .added, .added, .received [⟨1, "b", "id", 3⟩, ⟨2, "c", "id", 5⟩],
      .received [⟨2, "c", "id", 5⟩, ⟨3, "d", "id", 9⟩], .discarded 0, .refused (.inverted ⟨5, 3⟩)] := by
  decide

end Ledger

end UnitGraph
