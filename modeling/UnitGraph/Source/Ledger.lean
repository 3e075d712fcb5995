import UnitGraph.Source.Token

/-!
# The token ledger

The ledger lists the tokens of one stream in order and records which of them have been taken. A claim
names a source range; the ledger turns it into a span of stream positions, hands out the tokens of that
span and marks the whole span as taken. An exclusive claim receives only tokens that nobody took before,
a shared claim receives all of them. A claim whose range cannot be resolved changes nothing.
-/
namespace UnitGraph

/-- An inclusive run of stream positions. -/
structure Span where
  first : Nat
  last : Nat
  deriving DecidableEq, Repr

namespace Span

instance : Membership Nat Span := ⟨fun s i => s.first ≤ i ∧ i ≤ s.last⟩

theorem mem_iff {s : Span} {i : Nat} : i ∈ s ↔ s.first ≤ i ∧ i ≤ s.last := Iff.rfl

instance (s : Span) (i : Nat) : Decidable (i ∈ s) :=
  inferInstanceAs (Decidable (s.first ≤ i ∧ i ≤ s.last))

end Span

/-- Why a source range names no span of the stream. -/
inductive LookupError where
  | firstNotToken (location : Nat)
  | lastNotToken (location : Nat)
  | inverted (range : SourceRange)
  deriving DecidableEq, Repr

def LookupError.message : LookupError → String
  | .firstNotToken l => s!"range begin {l} is not a token location"
  | .lastNotToken l => s!"range end {l} is not a token location"
  | .inverted r => s!"range {r} ends before it begins"

/-- Whether a claim wants only tokens that are still free or every token of its span. -/
inductive Access where
  | exclusive
  | shared
  deriving DecidableEq, Repr

/-- One line of the ledger. -/
structure LedgerEntry where
  token : Token
  taken : Bool
  deriving DecidableEq, Repr

/-- Tokens in stream order, each with the mark whether it has been taken; every token carries its own
position as its index. -/
structure Ledger where
  entries : List LedgerEntry
  numbered : entries.map (·.token.index) = List.range entries.length := by rfl
  deriving DecidableEq, Repr

namespace Ledger

def empty : Ledger := { entries := [] }

def size (l : Ledger) : Nat := l.entries.length

def tokens (l : Ledger) : List Token := l.entries.map (·.token)

/-- The lexeme becomes the last token of the stream, not taken. -/
def add (l : Ledger) (x : Lexeme) : Ledger where
  entries := l.entries ++ [⟨Token.ofLexeme l.size x, false⟩]
  numbered := by simp [List.range_succ, l.numbered, size]

def ofLexemes (xs : List Lexeme) : Ledger := xs.foldl add empty

/-- The last token of the stream at a location, taken or not. -/
def entryAt? (l : Ledger) (location : Nat) : Option LedgerEntry :=
  l.entries.reverse.find? (·.token.location == location)

def tokenAt? (l : Ledger) (location : Nat) : Option Token := (l.entryAt? location).map (·.token)

/-- The stream position that a location stands for: that of the last token there. -/
def slot? (l : Ledger) (location : Nat) : Option Nat := (l.tokenAt? location).map (·.index)

/-- Whether the token that a location stands for has been taken. -/
def isTaken (l : Ledger) (location : Nat) : Bool := ((l.entryAt? location).map (·.taken)).getD false

/-- The span of a range: its ends must be token locations, in stream order. A bad beginning is reported
before a bad end. -/
def resolve (l : Ledger) (r : SourceRange) : Except LookupError Span :=
  match l.slot? r.first, l.slot? r.last with
  | none, _ => .error (.firstNotToken r.first)
  | some _, none => .error (.lastNotToken r.last)
  | some i, some j => if i ≤ j then .ok ⟨i, j⟩ else .error (.inverted r)

/-- The tokens of a span that a claim receives. -/
def offered (l : Ledger) (s : Span) (access : Access) : List Token :=
  (l.entries.filter fun e => e.token.index ∈ s ∧ (access = .shared ∨ e.taken = false)).map (·.token)

/-- The ledger after every token of a span has been taken. -/
def take (l : Ledger) (s : Span) : Ledger where
  entries := l.entries.map fun e => if e.token.index ∈ s then { e with taken := true } else e
  numbered := by
    rw [List.map_map, List.length_map, ← l.numbered]
    apply List.map_congr_left
    intro e _
    simp only [Function.comp_apply]
    split <;> rfl

/-- The tokens received and the ledger afterwards. -/
def claim (l : Ledger) (r : SourceRange) (access : Access) : Except LookupError (List Token × Ledger) :=
  (l.resolve r).map fun s => (l.offered s access, l.take s)

/-- Takes the free tokens of a range for nobody; their number is returned. -/
def discard (l : Ledger) (r : SourceRange) : Except LookupError (Nat × Ledger) :=
  (l.claim r .exclusive).map fun (tokens, rest) => (tokens.length, rest)

/-- The tokens that nobody has taken, in stream order. -/
def free (l : Ledger) : List Token := (l.entries.filter (·.taken = false)).map (·.token)

@[simp] theorem size_add (l : Ledger) (x : Lexeme) : (l.add x).size = l.size + 1 := by
  simp [add, size]

@[simp] theorem tokens_add (l : Ledger) (x : Lexeme) :
    (l.add x).tokens = l.tokens ++ [Token.ofLexeme l.size x] := by
  simp [add, tokens]

@[simp] theorem tokens_take (l : Ledger) (s : Span) : (l.take s).tokens = l.tokens := by
  rw [tokens, tokens, take, List.map_map]
  apply List.map_congr_left
  intro e _
  simp only [Function.comp_apply]
  split <;> rfl

@[simp] theorem size_take (l : Ledger) (s : Span) : (l.take s).size = l.size := by
  simp [take, size]

theorem tokens_claim {l rest : Ledger} {r : SourceRange} {access : Access} {ts : List Token}
    (h : l.claim r access = .ok (ts, rest)) : rest.tokens = l.tokens := by
  unfold claim at h
  cases hs : l.resolve r with
  | error e => simp [hs, Except.map] at h
  | ok s =>
      simp only [hs, Except.map, Except.ok.injEq, Prod.mk.injEq] at h
      rw [← h.2, tokens_take]

end Ledger

end UnitGraph
