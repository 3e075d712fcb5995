import UnitGraph.Extraction.CodeGraph
import UnitGraph.Extraction.Sequences
import UnitGraph.Files.Source

/-!
# Corpora

The extractions of all source files below a directory. A file that cannot be loaded or extracted is set
aside with its error and does not affect the others.
-/
namespace UnitGraph

inductive SampleError where
  | load (error : LoadError)
  | extract (error : ExtractionError)
  deriving DecidableEq, Repr

def SampleError.message : SampleError → String
  | .load e => e.message
  | .extract e => e.message

/-- Extractions and failures by the path of the file, both in the order in which the files were found. -/
structure Corpus (α : Type) where
  samples : List (String × α)
  failures : List (String × SampleError)
  deriving DecidableEq, Repr

namespace Corpus

variable {α : Type}

def size (c : Corpus α) : Nat := c.samples.length

/-- The extraction of the file at a path; paths are compared by their components. -/
def sample? (c : Corpus α) (path : String) : Option α :=
  (c.samples.find? fun s => Path.components s.1 = Path.components path).map (·.2)

def ofResults (results : List (String × Except SampleError α)) : Corpus α where
  samples := results.filterMap fun (path, result) => result.toOption.map (path, ·)
  failures := results.filterMap fun (path, result) =>
    match result with
    | .ok _ => none
    | .error e => some (path, e)

end Corpus

namespace FileTree

variable {α : Type}

def extractFile (t : FileTree) (extract : String → Except ExtractionError α) (path : String) :
    Except SampleError α := do
  let source ← (t.loadSource path).mapError .load
  (extract source).mapError .extract

def corpus (t : FileTree) (extract : String → Except ExtractionError α) (path : String) :
    Except LoadError (Corpus α) := do
  let paths ← t.collectSources path
  return .ofResults (paths.map fun p => (p, t.extractFile extract p))

end FileTree

def Frontend.loadGraphs (f : Frontend) (options : ExtractionOptions) (t : FileTree) (path : String) :
    Except LoadError (Corpus CodeGraph) :=
  t.corpus (f.codeGraphOfSource options) path

def Frontend.loadSequences (f : Frontend) (t : FileTree) (path : String) :
    Except LoadError (Corpus SequenceSet) :=
  t.corpus f.sequencesOfSource path

def Frontend.loadGraphFile (f : Frontend) (options : ExtractionOptions) (t : FileTree) (path : String) :
    Except SampleError CodeGraph :=
  t.extractFile (f.codeGraphOfSource options) path

end UnitGraph
