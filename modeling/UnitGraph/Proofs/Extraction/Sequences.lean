import UnitGraph.Extraction.Sequences
import UnitGraph.Proofs.Extraction.Nodes
import UnitGraph.Proofs.Traversal.Order

/-!
# The sequences of a unit

The marks behind the sequences are those of the functions at top level: a defined function claims where it
stands, any other function is skipped. The sequences follow the defined functions of the top level, and each
holds what its claim is the first to take. An extraction leaves the same marks in the same order, among
others, so a token of a sequence is held by one of its nodes.
-/
namespace UnitGraph

open Traversal

namespace SourceUnit

variable {u : SourceUnit}

theorem sequenceMark?_eq_some_iff {site : Nat} {d : DeclId} {m : Mark} :
    u.sequenceMark? site d = some m ↔
      (u.definition? d).isSome ∧ m = .claim (.function site d) ∨ u.Skipped d ∧ m = .skip d := by
  cases hd : u.decl? d with
  | none => simp [sequenceMark?, definition?, Skipped, declKind?, hd]
  | some decl =>
      cases hk : decl.kind with
      | function params body =>
          have hMark (x : Mark) : some x = some m ↔ m = x := by simp [eq_comm]
          cases hDef : decl.definition? <;>
            simp [sequenceMark?, definition?, Skipped, declKind?, hd, hk, hDef, hMark]
      | _ => simp [sequenceMark?, definition?, Skipped, declKind?, Decl.definition?, hd, hk]

/-- A defined function claims; whatever else stands at top level is skipped or of no account. -/
theorem sequenceMark?_cases (u : SourceUnit) (site : Nat) (d : DeclId) :
    (u.definition? d).isSome ∧ u.sequenceMark? site d = some (.claim (.function site d)) ∨
      u.definition? d = none ∧ (u.sequenceMark? site d = some (.skip d) ∨ u.sequenceMark? site d = none) := by
  cases hDef : u.definition? d with
  | some definition => exact Or.inl ⟨rfl, sequenceMark?_eq_some_iff.mpr (Or.inl ⟨by rw [hDef]; rfl, rfl⟩)⟩
  | none =>
      refine Or.inr ⟨rfl, ?_⟩
      cases hMark : u.sequenceMark? site d with
      | none => exact Or.inr rfl
      | some m =>
          rcases sequenceMark?_eq_some_iff.mp hMark with ⟨hSome, _⟩ | ⟨_, rfl⟩
          · simp [hDef] at hSome
          · exact Or.inl rfl

theorem mem_sequenceMarks {m : Mark} : m ∈ u.sequenceMarks ↔ ∃ site d, u.topLevel[site]? = some d ∧
    ((u.definition? d).isSome ∧ m = .claim (.function site d) ∨ u.Skipped d ∧ m = .skip d) := by
  rw [sequenceMarks, List.mem_filterMap]
  constructor
  · intro h
    obtain ⟨⟨d, site⟩, hd, hm⟩ := h
    exact ⟨site, d, List.mem_zipIdx_iff_getElem?.mp hd, sequenceMark?_eq_some_iff.mp hm⟩
  · intro h
    obtain ⟨site, d, hd, hm⟩ := h
    exact ⟨(d, site), List.mem_zipIdx_iff_getElem?.mpr hd, sequenceMark?_eq_some_iff.mpr hm⟩

/-- The sequence of the function that stands at a position of the top level. -/
def sequenceAt (u : SourceUnit) (site : Nat) (d : DeclId) : FunctionSequence :=
  ⟨u.nameOf d, u.ledger.tokens.filter (u.awarded u.sequenceMarks (.function site d) ·.index)⟩

/-- The first mark to take a position is also the first among some that it is one of. -/
theorem firstTaker?_filter {ms : List Mark} {m : Mark} {i : Nat} {p : Mark → Bool}
    (h : u.firstTaker? ms i = some m) (hm : p m = true) : u.firstTaker? (ms.filter p) i = some m := by
  obtain ⟨hTakes, before, after, rfl, hBefore⟩ := List.find?_eq_some_iff_append.mp h
  refine List.find?_eq_some_iff_append.mpr ⟨hTakes, before.filter p, after.filter p, ?_, ?_⟩
  · rw [List.filter_append, List.filter_cons_of_pos hm]
  · exact fun m' hm' => hBefore m' (List.mem_filter.mp hm').1

end SourceUnit

theorem SourceUnit.functions_sequences (u : SourceUnit) : u.sequences.functions =
    u.topLevel.zipIdx.filterMap fun x => (u.definition? x.1).map fun _ => u.sequenceAt x.2 x.1 := by
  simp only [sequences, sequenceMarks, List.filterMap_filterMap]
  congr 1
  funext x
  obtain ⟨d, site⟩ := x
  rcases u.sequenceMark?_cases site d with ⟨hDef, hMark⟩ | ⟨hDef, hMark | hMark⟩
  · obtain ⟨definition, hDef⟩ := Option.isSome_iff_exists.mp hDef
    simp only [hMark, hDef, Option.bind_some, Option.map_some, sequenceAt]
    rw [← sequenceMarks, holdings_eq_filter (Or.inl rfl)]
    rfl
  · rw [hMark, hDef]
    rfl
  · rw [hMark, hDef]
    rfl

theorem Job.functions_sequences (j : Job) : j.unit.sequences.functions =
    j.topFunctions.map fun (site, d) => j.unit.sequenceAt site d := by
  rw [SourceUnit.functions_sequences, topFunctions, List.map_filterMap]
  refine List.filterMap_congr fun x _ => ?_
  rw [Option.map_map]
  rfl

/-- The marks that give tokens to sequences: the claims of functions, and skipped functions. -/
def Mark.ofSequence : Mark → Bool
  | .claim (.function ..) | .skip _ => true
  | _ => false

namespace Job

variable {j : Job}

theorem filter_itemMarks_siteAgenda (j : Job) (site : Nat) (d : DeclId) :
    (itemMarks (j.siteAgenda site d)).filter Mark.ofSequence = (j.unit.sequenceMark? site d).toList := by
  have hNone : j.unit.definition? d = none → ¬ j.unit.Skipped d → j.unit.sequenceMark? site d = none := by
    intro hDef hSkip
    refine Option.eq_none_iff_forall_ne_some.mpr fun m hm => ?_
    rcases SourceUnit.sequenceMark?_eq_some_iff.mp hm with ⟨hSome, _⟩ | ⟨hSkipped, _⟩
    · simp [hDef] at hSome
    · exact hSkip hSkipped
  obtain ⟨params, body, hDef, hs⟩ | ⟨hSkip, hs⟩ | ⟨hRecord, hs⟩ | ⟨hDef, hSkip, _, hs⟩ :=
    j.siteAgenda_cases site d
  · have hMark : j.unit.sequenceMark? site d = some (.claim (.function site d)) :=
      SourceUnit.sequenceMark?_eq_some_iff.mpr (Or.inl ⟨by simp [hDef], rfl⟩)
    have hParams : (params.map fun p => Mark.claim (.decl p)).filter Mark.ofSequence = [] := by
      simp [List.filter_eq_nil_iff, Mark.ofSequence]
    have hFlow : (itemMarks (j.flowAgenda d)).filter Mark.ofSequence = [] := by
      refine List.filter_eq_nil_iff.mpr fun m hm => ?_
      obtain ⟨_, e, _, rfl⟩ := mem_itemMarks_flowAgenda.mp hm
      simp [Mark.ofSequence]
    rw [hs, itemMarks_functionAgenda, List.filter_append, List.filter_append, hParams, hFlow, hMark]
    rfl
  · have hMark : j.unit.sequenceMark? site d = some (.skip d) :=
      SourceUnit.sequenceMark?_eq_some_iff.mpr (Or.inr ⟨hSkip, rfl⟩)
    rw [hs, hMark]
    rfl
  · rw [hs, hNone (definition?_of_isRecord hRecord) (not_skipped_of_isRecord hRecord)]
    split <;> rfl
  · rw [hs, hNone hDef hSkip]
    rfl

theorem filter_itemMarks_program (j : Job) :
    (itemMarks j.program).filter Mark.ofSequence = j.unit.sequenceMarks := by
  rw [program, itemMarks_flatMap, List.filter_flatMap, SourceUnit.sequenceMarks,
    List.filterMap_eq_flatMap_toList]
  simp only [filter_itemMarks_siteAgenda]

/-- The marks of an extraction contain those of the sequences, in the same order. -/
theorem filter_marks_events (j : Job) : (marks j.events).filter Mark.ofSequence = j.unit.sequenceMarks := by
  have hOwn : ∀ e, ∀ m ∈ itemMarks (j.agenda e), Mark.ofSequence m = false := by
    intro e m hm
    rw [itemMarks_agenda] at hm
    split at hm
    · next hOwn =>
        cases List.mem_singleton.mp hm
        cases e <;> first | rfl | cases hOwn
    · cases hm
  exact (filter_marks_run j.closed_pool hOwn requested_program_pool).trans j.filter_itemMarks_program

/-- A token of a sequence is held by a node of the extraction. -/
theorem exists_node_of_sequence {site : Nat} {d : DeclId} {t : Token}
    (ht : t ∈ (j.unit.sequenceAt site d).tokens) : ∃ x, t ∈ j.codeGraph.arena.tokensOf x := by
  obtain ⟨hMem, hAwarded⟩ := List.mem_filter.mp ht
  have hFirst : j.unit.firstTaker? j.unit.sequenceMarks t.index = some (.claim (.function site d)) := by
    simpa [SourceUnit.awarded, Entity.access] using hAwarded
  rw [← j.filter_marks_events] at hFirst
  have hClaim := (List.mem_filter.mp (SourceUnit.mem_of_firstTaker? hFirst)).1
  obtain ⟨e, he, hAward⟩ | ⟨d', hSkip⟩ :=
    SourceUnit.awarded_or_skip hClaim (SourceUnit.takes_of_firstTaker? hFirst)
  · have hNode := registry_idOf (claim_mem_marks_iff.mp he).mem_entities
    exact ⟨_, (mem_tokensOf_iff hNode).mpr ⟨hMem, hAward⟩⟩
  · -- a skipped function that takes the token first would do so among the sequences, too
    cases hFirst.symm.trans (SourceUnit.firstTaker?_filter hSkip rfl)

end Job

end UnitGraph
