import UnitGraph.Files.Tree
import UnitGraph.Text.Utf8

/-!
# Source files

Finding the source files below a directory, and loading one of them. A source file is recognised by its
extension.
-/
namespace UnitGraph

inductive LoadError where
  | directoryNotFound (path : String)
  | read (path : String) (error : FileError)
  | unsupportedExtension (path : String)
  deriving DecidableEq, Repr

def LoadError.message : LoadError → String
  | .directoryNotFound path => "Directory not found: " ++ path
  | .read path error => s!"Failed to read {path}: {error.message}"
  | .unsupportedExtension path => "Unsupported file extension: " ++ path

def sourceExtensions : List String := ["c"]

def isSourcePath (path : String) : Bool := (Path.extension? path).any (· ∈ sourceExtensions)

def validateSourcePath (path : String) : Except LoadError Unit :=
  if isSourcePath path then .ok () else .error (.unsupportedExtension path)

/-- Order of names by their characters, which is also the order of their bytes. -/
def nameBefore {α : Type} (x y : String × α) : Bool := decide (x.1 ≤ y.1)

namespace FileTree

mutual

/-- The source files at or below a path: those of a directory are listed in the order of its names,
whether a name belongs to a file or to a directory. -/
def sourcesAt (path : String) : FileTree → List String
  | file _ => if isSourcePath path then [path] else []
  | directory es => ((sourcesOfEntries path es).mergeSort nameBefore).flatMap (·.2)

def sourcesOfEntries (path : String) : List (String × FileTree) → List (String × List String)
  | [] => []
  | (name, t) :: es => (name, sourcesAt (Path.join path name) t) :: sourcesOfEntries path es

end

def collectSources (t : FileTree) (path : String) : Except LoadError (List String) :=
  match t.resolve path with
  | .ok (directory es) => .ok (sourcesAt path (directory es))
  | _ => .error (.directoryNotFound path)

/-- The text of a source file; bytes that are no text are replaced. -/
def loadSource (t : FileTree) (path : String) : Except LoadError String := do
  validateSourcePath path
  match t.read path with
  | .ok bytes => .ok (Text.decodeUtf8 bytes)
  | .error e => .error (.read path e)

end FileTree

end UnitGraph
