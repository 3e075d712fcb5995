import UnitGraph.Document.Json
import UnitGraph.Document.Yaml
import UnitGraph.Extraction.Sequences
import UnitGraph.Graph.Arena
import UnitGraph.Labelled.Graph

/-!
# Exports

The documents that stand for code graphs, token sequences and labelled graphs, and the formats in which
they are written.
-/
namespace UnitGraph

/-- Something that is written as a document. -/
class ToDocument (α : Type) where
  toDocument : α → Document

export ToDocument (toDocument)

namespace Document

instance : ToDocument String := ⟨.text⟩
instance : ToDocument Nat := ⟨.number⟩
instance : ToDocument Bool := ⟨.bool⟩
instance : ToDocument NodeId := ⟨fun id => .number id.index⟩

instance {α : Type} [ToDocument α] : ToDocument (List α) := ⟨fun xs => .list (xs.map toDocument)⟩

/-- An absent value is written as null. -/
instance {α : Type} [ToDocument α] : ToDocument (Option α) :=
  ⟨fun
    | some x => toDocument x
    | none => .null⟩

instance : ToDocument SourceRange :=
  ⟨fun r => .record [("begin", toDocument r.first), ("end", toDocument r.last)]⟩

instance : ToDocument Token :=
  ⟨fun t => .record
    [("index", toDocument t.index), ("name", toDocument t.name), ("kind", toDocument t.kind),
      ("location", toDocument t.location)]⟩

/-- The name of a severity in a document. -/
def severityName : Severity → String
  | .error => "Error"
  | .warning => "Warning"

instance : ToDocument Diagnostic :=
  ⟨fun d => .record
    [("severity", toDocument (severityName d.severity)), ("code", toDocument d.code.text),
      ("message", toDocument d.message), ("range", toDocument d.range)]⟩

/-- The fields of a node after its kind. -/
def nodeFields : Node → List (String × Document)
  | .decl n =>
      [("name", toDocument n.name), ("ty", toDocument n.type), ("kind", toDocument n.kind),
        ("tokens", toDocument n.tokens), ("name_token", toDocument n.nameToken),
        ("record_type", toDocument n.record), ("referenced_typedef", toDocument n.typedef)]
  | .stmt n =>
      [("name", toDocument n.name), ("tokens", toDocument n.tokens),
        ("ast_relations", toDocument n.children), ("ref_relations", toDocument n.references)]
  | .record n =>
      [("name", toDocument n.name), ("is_typedef", toDocument n.isTypedef),
        ("tokens", toDocument n.tokens), ("referenced_records", toDocument n.records),
        ("referenced_enums", toDocument n.enums), ("referenced_typedefs", toDocument n.typedefs)]
  | .enum n => [("name", toDocument n.name), ("tokens", toDocument n.tokens)]
  | .typedef n =>
      [("name", toDocument n.name), ("underlying", toDocument n.underlying),
        ("tokens", toDocument n.tokens), ("name_token", toDocument n.nameToken)]
  | .block n =>
      [("name", toDocument n.name), ("statements", toDocument n.statements),
        ("successors", toDocument n.successors)]
  | .function n =>
      [("name", toDocument n.name), ("ty", toDocument n.type), ("tokens", toDocument n.tokens),
        ("args", toDocument n.args), ("entry_stmt", toDocument n.entry),
        ("cfg_blocks", toDocument n.blocks)]

instance : ToDocument Node := ⟨fun n => .record (("node", toDocument n.kindName) :: nodeFields n)⟩

instance : ToDocument CodeGraph :=
  ⟨fun g => .record
    [("arena", .record [("nodes", toDocument g.arena.nodes.toList)]),
      ("functions", toDocument g.functions), ("records", toDocument g.records),
      ("diagnostics", toDocument g.diagnostics)]⟩

instance : ToDocument FunctionSequence :=
  ⟨fun s => .record [("name", toDocument s.name), ("tokens", toDocument s.tokens)]⟩

instance : ToDocument SequenceSet :=
  ⟨fun s => .record
    [("functions", toDocument s.functions), ("diagnostics", toDocument s.diagnostics)]⟩

/-- A labelled node under its position; the stream position is left out where there is none. -/
def labelledNode (position : Nat) (n : LabelledNode) : Document :=
  .record
    ([("id", toDocument position), ("label", toDocument n.label)] ++
      (n.order.map fun i => ("seq_order", toDocument i)).toList)

instance : ToDocument (Nat × Nat × EdgeKind) :=
  ⟨fun (source, target, kind) => .record
    [("source", toDocument source), ("target", toDocument target), ("kind", toDocument kind.name)]⟩

instance : ToDocument LabelledGraph :=
  ⟨fun g => .record
    [("directed", toDocument true), ("multigraph", toDocument true),
      ("nodes", .list (g.nodes.zipIdx.map fun (n, i) => labelledNode i n)),
      ("links", toDocument g.positionedEdges)]⟩

end Document

/-- The formats of an export. -/
inductive ExportFormat where
  | json
  | yaml
  deriving DecidableEq, Repr

namespace ExportFormat

def name : ExportFormat → String
  | json => "JSON"
  | yaml => "YAML"

/-- The file extensions of a format. -/
def extensions : ExportFormat → List String
  | json => ["json"]
  | yaml => ["yaml", "yml"]

def all : List ExportFormat := [json, yaml]

/-- The extensions of all formats. -/
def supportedExtensions : List String := all.flatMap extensions

/-- The text of a document in a format. -/
def render : ExportFormat → Document → String
  | json => Document.json
  | yaml => Document.yaml

/-- The text of a value in a format. -/
def write {α : Type} [ToDocument α] (format : ExportFormat) (x : α) : String :=
  format.render (toDocument x)

/-- The format that lists an extension, in whatever case the extension is written. -/
def ofExtension? (extension : String) : Option ExportFormat :=
  all.find? fun format => extension.toLower ∈ format.extensions

end ExportFormat

end UnitGraph
