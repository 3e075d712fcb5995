import UnitGraph.Document.Export
import UnitGraph.Files.Tree

/-!
# Writing exports

A code graph is written to a file in the format that the extension of its path names.
-/
namespace UnitGraph

inductive ExportError where
  | unsupportedFormat (path : String)
  | file (error : FileError)
  deriving DecidableEq, Repr

def ExportError.message : ExportError → String
  | .unsupportedFormat path => "Unsupported format: " ++ path
  | .file e => "IO error: " ++ e.message

def ExportFormat.ofPath? (path : String) : Option ExportFormat :=
  (Path.extension? path).bind ExportFormat.ofExtension?

def FileTree.exportGraph (t : FileTree) (path : String) (g : CodeGraph) :
    Except ExportError FileTree :=
  match ExportFormat.ofPath? path with
  | none => .error (.unsupportedFormat path)
  | some format => (t.write path (format.write g).toUTF8.toList).mapError .file

end UnitGraph
