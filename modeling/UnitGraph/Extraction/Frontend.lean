import UnitGraph.Unit.FlowGraph

/-!
# Frontends

A frontend reads source text: it parses a source into a source unit and, on request, builds the flow
graph of a function body. Nothing else in the library looks at source text.
-/
namespace UnitGraph

/-- The source was rejected; the lines are the frontend's own report. -/
structure ParseFailure where
  report : List String
  deriving DecidableEq, Repr

/-- The report on one line, with its lines separated by semicolons. -/
def ParseFailure.message (f : ParseFailure) : String :=
  "frontend failed: " ++ String.intercalate "; " f.report

inductive ExtractionError where
  | frontend (failure : ParseFailure)
  deriving DecidableEq, Repr

def ExtractionError.message : ExtractionError → String
  | .frontend f => "Frontend error: " ++ f.message

/-- The answer of a frontend that builds no flow graphs. -/
def noFlowGraph : Except FlowError FlowGraph :=
  .error (.unsupported "frontend does not build control-flow graphs")

/-- A parser of sources and a builder of flow graphs for the functions of a unit. -/
structure Frontend where
  parse : String → Except ParseFailure SourceUnit
  flowGraph : SourceUnit → DeclId → Except FlowError FlowGraph := fun _ _ => noFlowGraph

/-- Optional parts of a graph: nodes for the records declared at top level, and control-flow blocks. -/
structure ExtractionOptions where
  visitRecords : Bool := true
  flowBlocks : Bool := false
  deriving DecidableEq, Repr

def Frontend.unit (f : Frontend) (source : String) : Except ExtractionError SourceUnit :=
  (f.parse source).mapError .frontend

end UnitGraph
