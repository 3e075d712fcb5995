import UnitGraph.Extraction.Settlement
import UnitGraph.Extraction.Frontend

/-!
# Token sequences

The flat view of a unit: each defined function with the tokens of its range, in stream order. Functions
take their tokens in the order of the top level, and functions without a definition give theirs away.
-/
namespace UnitGraph

structure FunctionSequence where
  name : String
  tokens : List Token
  deriving DecidableEq, Repr

def FunctionSequence.text (s : FunctionSequence) : String := Token.spellings s.tokens

structure SequenceSet where
  functions : List FunctionSequence
  diagnostics : List Diagnostic
  deriving DecidableEq, Repr

inductive SequenceEvent where
  | extraction (functions : Nat)
  | function (name : String)
  | token (t : Token)
  deriving DecidableEq, Repr

namespace SequenceSet

def function? (s : SequenceSet) (name : String) : Option FunctionSequence :=
  s.functions.find? (·.name = name)

/-- The set itself, then every function followed by its tokens. -/
def events (s : SequenceSet) : List SequenceEvent :=
  .extraction s.functions.length ::
    s.functions.flatMap fun f => .function f.name :: f.tokens.map .token

end SequenceSet

namespace SourceUnit

/-- The mark of a declaration at top level: a defined function claims, one without definition is skipped. -/
def sequenceMark? (u : SourceUnit) (site : Nat) (d : DeclId) : Option Mark :=
  (u.decl? d).bind fun decl =>
    match decl.kind with
    | .function .. => if decl.definition?.isSome then some (.claim (.function site d)) else some (.skip d)
    | _ => none

def sequenceMarks (u : SourceUnit) : List Mark :=
  u.topLevel.zipIdx.filterMap fun (d, site) => u.sequenceMark? site d

def sequences (u : SourceUnit) : SequenceSet :=
  let outcomes := u.settle u.ledger u.sequenceMarks
  { functions := u.sequenceMarks.filterMap fun
      | .claim e => some ⟨e.label u, holdings outcomes e⟩
      | _ => none
    diagnostics := reports outcomes }

end SourceUnit

def Frontend.sequencesOfSource (f : Frontend) (source : String) : Except ExtractionError SequenceSet :=
  (f.unit source).map (·.sequences)

def Frontend.sequencesOfSources (f : Frontend) (sources : List String) :
    List (Except ExtractionError SequenceSet) :=
  sources.map f.sequencesOfSource

end UnitGraph
