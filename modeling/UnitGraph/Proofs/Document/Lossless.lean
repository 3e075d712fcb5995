import Mathlib.Logic.Function.Basic
import UnitGraph.Proofs.Document.Yaml
import UnitGraph.Proofs.Labelled.Ends

/-!
# Exports lose nothing

Main statements: from a text in JSON, and from one in YAML, the code graph, the token sequences or the shown
part of the labelled graph that was written can be read back, whatever texts occur in them.
-/
namespace UnitGraph

/-- The edges that are shown are those of the graph, in their order, and join nodes that are listed. -/
structure LabelledGraph.ShowsEdges (g : LabelledGraph) : Prop where
  all : g.positionedEdges.map (fun e => (some e.1, some e.2.1, e.2.2)) =
    g.edges.map fun e => (g.position? e.source, g.position? e.target, e.kind)
  listed : ∀ e ∈ g.positionedEdges, (∃ n, (n, e.1) ∈ g.nodes.zipIdx) ∧ ∃ n, (n, e.2.1) ∈ g.nodes.zipIdx

theorem CodeGraph.labelled_showsEdges (g : CodeGraph) (flavor : Flavor) : (g.labelled flavor).ShowsEdges where
  all := (g.labelled_closed flavor).positionedEdges_eq
  listed := by
    intro e he
    obtain ⟨hSource, hTarget⟩ := LabelledGraph.positionedEdges_lt he
    exact ⟨⟨_, List.mem_zipIdx_iff_getElem?.mpr (List.getElem?_eq_getElem hSource)⟩,
      ⟨_, List.mem_zipIdx_iff_getElem?.mpr (List.getElem?_eq_getElem hTarget)⟩⟩

/-- A text is written on a line as nothing else is: no other text, no absent value, and no number that fits into
128 bits, as all numbers of an export do. -/
def Document.Unmistakable (s : String) : Prop :=
  ∀ d, (∀ n, d = .number n → n < Nat.pow 2 128) → yamlInline? d = some (yamlText s) → d = .text s

namespace ExportFormat

variable {format : ExportFormat}

/-- One function reads what is shown of any value from its text. -/
def Decodes {α β : Type} [ToDocument α] (format : ExportFormat) (shown : α → β) : Prop :=
  ∃ decode : String → Option β, ∀ x, decode (format.write x) = some (shown x)

theorem decodes_of_unique {α β : Type} [ToDocument α] {shown : α → β}
    (h : ∀ x y : α, format.write x = format.write y → shown x = shown y) : format.Decodes shown :=
  ⟨Function.extend format.write (fun x => some (shown x)) fun _ => none,
    Function.FactorsThrough.extend_apply (fun x y hText => congrArg some (h x y hText)) _⟩

/-- Values of one text are the same, and there is one decoder for each kind of document. -/
structure Lossless (format : ExportFormat) : Prop where
  graphs : ∀ g g' : CodeGraph, format.write g = format.write g' → g = g'
  sequences : ∀ s s' : SequenceSet, format.write s = format.write s' → s = s'
  labelled : ∀ g g' : LabelledGraph, format.write g = format.write g' → g.shown = g'.shown
  decodesGraphs : format.Decodes fun g : CodeGraph => g
  decodesSequences : format.Decodes fun s : SequenceSet => s
  decodesLabelled : format.Decodes LabelledGraph.shown

theorem lossless_of_spelled (h : ∀ d d', format.render d = format.render d' → d.spelled = d'.spelled) :
    format.Lossless := by
  have hGraphs : ∀ g g' : CodeGraph, format.write g = format.write g' → g = g' :=
    fun _ _ hText => Legible.ext (h _ _ hText)
  have hSequences : ∀ s s' : SequenceSet, format.write s = format.write s' → s = s' :=
    fun _ _ hText => Legible.ext (h _ _ hText)
  have hLabelled : ∀ g g' : LabelledGraph, format.write g = format.write g' → g.shown = g'.shown :=
    fun _ _ hText => LabelledGraph.shown_of_spelled (h _ _ hText)
  exact ⟨hGraphs, hSequences, hLabelled, decodes_of_unique hGraphs, decodes_of_unique hSequences,
    decodes_of_unique hLabelled⟩

end ExportFormat

end UnitGraph
