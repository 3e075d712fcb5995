import UnitGraph.Diagnostic
import UnitGraph.Extraction.Entity

/-!
# Settling claims

The marks of an extraction are settled one after the other against the ledger. A claim gives its entity
tokens, a skipped function has its tokens taken for nobody, and a range that cannot be resolved leaves the
ledger alone and is reported.
-/
namespace UnitGraph

inductive Outcome where
  | granted (e : Entity) (tokens : List Token)
  | drained (count : Nat)
  | reported (d : Diagnostic)
  deriving DecidableEq, Repr

/-- A range without tokens is reported under the label of its owner. -/
def LookupError.diagnostic (label : String) (r : SourceRange) (e : LookupError) : Diagnostic :=
  ⟨.tokenLookup, s!"\x60{label}\x60: {e.message}", some r⟩

/-- A function without flow blocks is reported under its name. -/
def FlowError.diagnostic (name : String) (r : SourceRange) (e : FlowError) : Diagnostic :=
  ⟨match e with
    | .unsupported _ => .flowUnsupported
    | .malformed _ | .dangling .. => .flowMalformed,
    s!"{name}: {e.message}", some r⟩

namespace SourceUnit

def rangeOf (u : SourceUnit) : Mark → Option SourceRange
  | .claim e => e.range? u
  | .skip d | .noFlow d _ => (u.decl? d).map (·.range)

/-- The outcome of a mark about a range, and the ledger afterwards. -/
def settleAt (u : SourceUnit) (l : Ledger) (r : SourceRange) : Mark → Outcome × Ledger
  | .claim e =>
      match l.claim r e.access with
      | .ok (tokens, rest) => (.granted e tokens, rest)
      | .error err => (.reported (err.diagnostic (e.label u) r), l)
  | .skip d =>
      match l.discard r with
      | .ok (count, rest) => (.drained count, rest)
      | .error err => (.reported (err.diagnostic (u.nameOf d) r), l)
  | .noFlow d err => (.reported (err.diagnostic (u.nameOf d) r), l)

/-- The outcomes of all marks in order; a mark about nothing in the unit has none. -/
def settle (u : SourceUnit) : Ledger → List Mark → List Outcome
  | _, [] => []
  | l, m :: rest =>
      match u.rangeOf m with
      | none => u.settle l rest
      | some r => (u.settleAt l r m).1 :: u.settle (u.settleAt l r m).2 rest

/-- The ledger of the unit's lexemes before any claim. -/
def ledger (u : SourceUnit) : Ledger := Ledger.ofLexemes u.lexemes

end SourceUnit

/-- All tokens that an entity was granted, in the order of its claims. -/
def holdings (outcomes : List Outcome) (e : Entity) : List Token :=
  outcomes.flatMap fun
    | .granted holder tokens => if holder = e then tokens else []
    | _ => []

def reports (outcomes : List Outcome) : List Diagnostic :=
  outcomes.filterMap fun
    | .reported d => some d
    | _ => none

end UnitGraph
