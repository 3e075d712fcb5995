import UnitGraph.Document.Export
import UnitGraph.Proofs.Text.Digits

/-!
# What a document says

A document has been read once its spelling is known, in which a number and the text of its digits are the
same: no part of a document could be either. Main statement: code graphs, token sequences and all they are
made of are told apart by the spelling of their documents.
-/
namespace UnitGraph

open Document

namespace Document

mutual

/-- A document with every number as the text of its digits. -/
def spelled : Document → Document
  | .null => .null
  | .bool b => .bool b
  | .number n => .text (String.ofList (Nat.toDigits 10 n))
  | .text s => .text s
  | .list ds => .list (spelledItems ds)
  | .record fs => .record (spelledFields fs)

def spelledItems : List Document → List Document
  | [] => []
  | d :: ds => d.spelled :: spelledItems ds

def spelledFields : List (String × Document) → List (String × Document)
  | [] => []
  | (k, d) :: fs => (k, d.spelled) :: spelledFields fs

end

theorem spelledItems_eq_map (ds : List Document) : spelledItems ds = ds.map spelled := by
  induction ds with
  | nil => rfl
  | cons d ds ih => rw [spelledItems, ih, List.map_cons]

theorem spelled_record_iff {fs gs : List (String × Document)} :
    (record fs).spelled = (record gs).spelled ↔ spelledFields fs = spelledFields gs := by
  simp [spelled]

/-- Records of the same keys are told apart field by field. -/
theorem spelledFields_cons_iff {k : String} {d d' : Document} {fs gs : List (String × Document)} :
    spelledFields ((k, d) :: fs) = spelledFields ((k, d') :: gs) ↔
      d.spelled = d'.spelled ∧ spelledFields fs = spelledFields gs := by
  simp [spelledFields]

theorem spelled_eq_null {d : Document} : d.spelled = .null ↔ d = .null := by
  cases d <;> simp [spelled]

end Document

/-- Values are told apart by the spelling of their documents. -/
class Legible (α : Type) [ToDocument α] : Prop where
  ext : ∀ {x y : α}, (toDocument x).spelled = (toDocument y).spelled → x = y

/-- No value is written as an absent one. -/
class NeverNull (α : Type) [ToDocument α] : Prop where
  ne_null : ∀ x : α, toDocument x ≠ .null

theorem legible_iff {α : Type} [ToDocument α] [Legible α] {x y : α} :
    (toDocument x).spelled = (toDocument y).spelled ↔ x = y :=
  ⟨Legible.ext, fun h => h ▸ rfl⟩

namespace Document

instance : Legible String := ⟨fun h => by cases h; rfl⟩

instance : Legible Nat :=
  ⟨fun h => Text.toDigits_injective (String.ofList_injective (Document.text.inj h))⟩

instance : Legible Bool := ⟨fun h => by cases h; rfl⟩

instance : Legible NodeId := ⟨fun {x y} h => by
  have hIndex : x.index = y.index := legible_iff.mp h
  cases x
  cases y
  exact congrArg _ hIndex⟩

instance {α : Type} [ToDocument α] [Legible α] : Legible (List α) := ⟨fun {xs ys} h => by
  have hItems : spelledItems (xs.map toDocument) = spelledItems (ys.map toDocument) := Document.list.inj h
  rw [spelledItems_eq_map, spelledItems_eq_map, List.map_map, List.map_map] at hItems
  exact List.map_injective_iff.mpr (fun _ _ => Legible.ext) hItems⟩

instance {α : Type} [ToDocument α] [Legible α] [NeverNull α] : Legible (Option α) := ⟨fun {x y} h => by
  cases x with
  | none =>
      cases y with
      | none => rfl
      | some y => exact absurd (spelled_eq_null.mp h.symm) (NeverNull.ne_null y)
  | some x =>
      cases y with
      | none => exact absurd (spelled_eq_null.mp h) (NeverNull.ne_null x)
      | some y => exact congrArg some (Legible.ext h)⟩

instance : NeverNull NodeId := ⟨fun _ h => by cases h⟩
instance : NeverNull SourceRange := ⟨fun _ h => by cases h⟩
instance : NeverNull Token := ⟨fun _ h => by cases h⟩

instance : Legible SourceRange := ⟨fun {x y} h => by
  change (Document.record [_, _]).spelled = (Document.record [_, _]).spelled at h
  simp only [spelled_record_iff, spelledFields_cons_iff, legible_iff] at h
  cases x
  cases y
  simp_all⟩

instance : Legible Token := ⟨fun {x y} h => by
  change (Document.record [_, _, _, _]).spelled = (Document.record [_, _, _, _]).spelled at h
  simp only [spelled_record_iff, spelledFields_cons_iff, legible_iff] at h
  cases x
  cases y
  simp_all⟩

theorem codeText_injective : Function.Injective DiagnosticCode.text := by
  intro x y h
  cases x <;> cases y <;> first | rfl | exact absurd h (by decide)

/-- The severity follows from the code. -/
instance : Legible Diagnostic := ⟨fun {x y} h => by
  change (Document.record [_, _, _, _]).spelled = (Document.record [_, _, _, _]).spelled at h
  simp only [spelled_record_iff, spelledFields_cons_iff, legible_iff, codeText_injective.eq_iff] at h
  cases x
  cases y
  simp_all⟩

/-- The kind comes first and says which fields follow. -/
instance : Legible Node := ⟨fun {n m} h => by
  change (Document.record (_ :: _)).spelled = (Document.record (_ :: _)).spelled at h
  rw [spelled_record_iff, spelledFields_cons_iff, legible_iff] at h
  obtain ⟨hKind, hFields⟩ := h
  cases n <;> cases m <;> simp [Node.kindName] at hKind
  all_goals
    rename_i n m
    simp only [nodeFields, spelledFields_cons_iff, legible_iff] at hFields
    cases n
    cases m
    simp_all⟩

instance : Legible CodeGraph := ⟨fun {x y} h => by
  change (Document.record [(_, .record [_]), _, _, _]).spelled =
    (Document.record [(_, .record [_]), _, _, _]).spelled at h
  simp only [spelled_record_iff, spelledFields_cons_iff, legible_iff, Array.toList_inj] at h
  obtain ⟨⟨⟩, _⟩ := x
  cases y
  simp_all⟩

instance : Legible FunctionSequence := ⟨fun {x y} h => by
  change (Document.record [_, _]).spelled = (Document.record [_, _]).spelled at h
  simp only [spelled_record_iff, spelledFields_cons_iff, legible_iff] at h
  cases x
  cases y
  simp_all⟩

instance : Legible SequenceSet := ⟨fun {x y} h => by
  change (Document.record [_, _]).spelled = (Document.record [_, _]).spelled at h
  simp only [spelled_record_iff, spelledFields_cons_iff, legible_iff] at h
  cases x
  cases y
  simp_all⟩

theorem edgeName_injective : Function.Injective EdgeKind.name := by
  intro x y h
  cases x <;> cases y <;> first | rfl | exact absurd h (by decide)

instance : Legible (Nat × Nat × EdgeKind) := ⟨fun {x y} h => by
  obtain ⟨source, target, kind⟩ := x
  obtain ⟨source', target', kind'⟩ := y
  change (Document.record [_, _, _]).spelled = (Document.record [_, _, _]).spelled at h
  simp only [spelled_record_iff, spelledFields_cons_iff, legible_iff, edgeName_injective.eq_iff] at h
  obtain ⟨rfl, rfl, rfl, -⟩ := h
  rfl⟩

/-- The stream position is there or left out. -/
theorem labelledNode_unique {i j : Nat} {n m : LabelledNode}
    (h : (labelledNode i n).spelled = (labelledNode j m).spelled) : n.label = m.label ∧ n.order = m.order := by
  simp only [labelledNode, List.cons_append, List.nil_append, spelled_record_iff, spelledFields_cons_iff,
    legible_iff] at h
  obtain ⟨-, hLabel, hOrder⟩ := h
  refine ⟨hLabel, ?_⟩
  cases hn : n.order with
  | none =>
      cases hm : m.order with
      | none => rfl
      | some order => simp [hn, hm, spelledFields] at hOrder
  | some order =>
      cases hm : m.order with
      | none => simp [hn, hm, spelledFields] at hOrder
      | some order' => simpa [hn, hm, spelledFields_cons_iff, legible_iff] using hOrder

theorem labelledNodes_unique {ns ms : List LabelledNode} {i j : Nat}
    (h : spelledItems ((ns.zipIdx i).map fun (n, i) => labelledNode i n) =
      spelledItems ((ms.zipIdx j).map fun (n, i) => labelledNode i n)) :
    ns.map (fun n => (n.label, n.order)) = ms.map fun n => (n.label, n.order) := by
  induction ns generalizing ms i j with
  | nil =>
      cases ms with
      | nil => rfl
      | cons m ms => simp [spelledItems] at h
  | cons n ns ih =>
      cases ms with
      | nil => simp [spelledItems] at h
      | cons m ms =>
          simp only [List.zipIdx_cons, List.map_cons, spelledItems, List.cons.injEq] at h
          obtain ⟨hLabel, hOrder⟩ := labelledNode_unique h.1
          rw [List.map_cons, List.map_cons, ih h.2, hLabel, hOrder]

end Document

/-- What the document of a labelled graph shows: labels and stream positions in the order of the nodes, and the
edges in their order. -/
def LabelledGraph.shown (g : LabelledGraph) : List (String × Option Nat) × List (Nat × Nat × EdgeKind) :=
  (g.nodes.map fun n => (n.label, n.order), g.positionedEdges)

theorem LabelledGraph.shown_of_spelled {g g' : LabelledGraph}
    (h : (toDocument g).spelled = (toDocument g').spelled) : g.shown = g'.shown := by
  change (Document.record [_, _, (_, .list _), _]).spelled =
    (Document.record [_, _, (_, .list _), _]).spelled at h
  simp only [spelled_record_iff, spelledFields_cons_iff, legible_iff] at h
  obtain ⟨-, -, hNodes, hEdges, -⟩ := h
  exact Prod.ext (labelledNodes_unique (Document.list.inj hNodes)) hEdges

end UnitGraph
