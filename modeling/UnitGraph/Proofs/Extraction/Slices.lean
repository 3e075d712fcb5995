import Mathlib.Data.List.Forall2
import UnitGraph.Proofs.Extraction.Agreement
import UnitGraph.Proofs.Extraction.Diagnostics

/-!
# First come, first served

The functions of the top level take their tokens one after the other, whether they are defined or not. Main
statement: the sequence of a defined function holds the positions that its range covers and no earlier
function covers, so functions that lie apart have the whole stretch of the stream that they span, and every
range that cannot be resolved is reported once.
-/
namespace UnitGraph

/-- A list with one entry for each of some places, in the order of the places. -/
def OnePerPlace {α : Type} (place : Nat → Prop) (entry : Nat → α → Prop) (l : List α) : Prop :=
  ∃ sites : List Nat, sites.Pairwise (· < ·) ∧ (∀ site, site ∈ sites ↔ place site) ∧
    List.Forall₂ entry sites l

section Placed
variable {α β : Type}

/-- What some elements of a list give rise to, each with its place. -/
def placed (g : α → Nat → Option β) (l : List α) : List (Nat × β) :=
  l.zipIdx.filterMap fun x => (g x.1 x.2).map fun b => (x.2, b)

theorem mem_placed {g : α → Nat → Option β} {l : List α} {site : Nat} {b : β} :
    (site, b) ∈ placed g l ↔ ∃ a, l[site]? = some a ∧ g a site = some b := by
  simp [placed, List.mem_filterMap, List.mem_zipIdx_iff_getElem?, and_comm]

theorem pairwise_placed (g : α → Nat → Option β) (l : List α) : (placed g l).Pairwise (·.1 < ·.1) := by
  refine (pairwise_zipIdx l).filterMap _ ?_
  intro x x' hlt y hy y' hy'
  obtain ⟨b, -, rfl⟩ := Option.map_eq_some_iff.mp hy
  obtain ⟨b', -, rfl⟩ := Option.map_eq_some_iff.mp hy'
  exact hlt

theorem onePerPlace_filterMap {place : Nat → Prop} {entry : Nat → β → Prop} (l : List α) (g : α → Nat → Option β)
    (hPlace : ∀ site, place site ↔ ∃ a, l[site]? = some a ∧ (g a site).isSome)
    (hEntry : ∀ site a b, l[site]? = some a → g a site = some b → entry site b) :
    OnePerPlace place entry (l.zipIdx.filterMap fun x => g x.1 x.2) := by
  have hEntries : (l.zipIdx.filterMap fun x => g x.1 x.2) = (placed g l).map Prod.snd := by
    simp [placed, List.map_filterMap, Function.comp_def]
  refine ⟨(placed g l).map Prod.fst, List.pairwise_map.mpr (pairwise_placed g l), ?_, ?_⟩
  · intro site
    simp only [hPlace, List.mem_map, Prod.exists, exists_and_right, exists_eq_right, mem_placed,
      Option.isSome_iff_exists]
    exact exists_comm.trans (by simp only [exists_and_left])
  · rw [hEntries, List.forall₂_map_left_iff, List.forall₂_map_right_iff, List.forall₂_same]
    intro x hx
    obtain ⟨a, ha, hb⟩ := mem_placed.mp hx
    exact hEntry x.1 a x.2 ha hb

end Placed

namespace SourceUnit

/-- A function with a body, and with an identifier for its name, stands at a position of the top level. -/
def DefinedAt (u : SourceUnit) (site : Nat) (f : Decl) : Prop :=
  ∃ d params body, u.topLevel[site]? = some d ∧ u.decl? d = some f ∧ f.kind = .function params (some body) ∧
    f.name.isIdentifier = true

/-- The function at a position of the top level covers a stream position, and no function before it does. -/
def CoversFirst (u : SourceUnit) (site : Nat) (f : Decl) (i : Nat) : Prop :=
  u.Covers f.range i ∧ ∀ site' f', site' < site → u.FunctionAt site' f' → ¬ u.Covers f'.range i

/-- The sequence of the function at a position of the top level: what it is the first to cover, in stream
order. That is the stretch of the stream from its first slot to its last, if it lies apart from the functions
before it. -/
structure SequenceOf (u : SourceUnit) (site : Nat) (f : Decl) (q : FunctionSequence) : Prop where
  name : q.name = f.name.text
  mem_tokens : ∀ t, t ∈ q.tokens ↔ t ∈ u.lexemes.mapIdx Token.ofLexeme ∧ u.CoversFirst site f t.index
  ordered : q.tokens.Pairwise (·.index < ·.index)
  slice : (∀ site' f', site' < site → u.FunctionAt site' f' → u.Apart f.range f'.range) →
    ∀ a b, u.ledger.slot? f.range.first = some a → u.ledger.slot? f.range.last = some b →
      q.tokens = ((u.lexemes.mapIdx Token.ofLexeme).drop a).take (b + 1 - a)

variable {u : SourceUnit} {site : Nat} {d : DeclId} {f : Decl} {m : Mark} {i : Nat}

theorem definition?_isSome_iff (hf : u.decl? d = some f) : (u.definition? d).isSome ↔
    ∃ params body, f.kind = .function params (some body) ∧ f.name.isIdentifier = true := by
  rw [definition?, hf, Option.bind_some, Decl.definition?]
  split
  · next params body hk => cases f.name.isIdentifier <;> simp [hk]
  · next hk => simpa using fun params body h => absurd h (hk params body)

theorem rangeFault?_isSome_iff (r : SourceRange) : (u.rangeFault? r).isSome ↔ ¬ u.Resolvable r := by
  rw [Resolvable, rangeFault?]
  cases u.ledger.slot? r.first with
  | none => simp
  | some a =>
      cases u.ledger.slot? r.last with
      | none => simp
      | some b => by_cases h : b < a <;> simp [h]

/-- The functions of the top level are the declarations that leave a mark. -/
theorem functionAt_iff : u.FunctionAt site f ↔
    ∃ d m, u.topLevel[site]? = some d ∧ u.decl? d = some f ∧ u.sequenceMark? site d = some m := by
  constructor
  · rintro ⟨d, params, body, hd, hf, hk⟩
    cases hDef : f.definition? with
    | some definition => exact ⟨d, .claim (.function site d), hd, hf, by simp [sequenceMark?, hf, hk, hDef]⟩
    | none => exact ⟨d, .skip d, hd, hf, by simp [sequenceMark?, hf, hk, hDef]⟩
  · rintro ⟨d, m, hd, hf, hm⟩
    rw [sequenceMark?, hf, Option.bind_some] at hm
    split at hm
    · next params body hk => exact ⟨d, params, body, hd, hf, hk⟩
    · cases hm

theorem takes_sequenceMark (hf : u.decl? d = some f) (hm : u.sequenceMark? site d = some m) :
    u.takes m i = true ↔ u.Covers f.range i := by
  rcases sequenceMark?_eq_some_iff.mp hm with ⟨-, rfl⟩ | ⟨-, rfl⟩
  · simp [takes_claim_iff, Entity.range?, hf]
  · simp [takes_skip_iff, hf]

theorem report?_sequenceMark (hf : u.decl? d = some f) (hm : u.sequenceMark? site d = some m) :
    u.report? m = (u.rangeFault? f.range).map fun reason =>
      ⟨.tokenLookup, s!"\x60{f.name.text}\x60: {reason}", some f.range⟩ := by
  rcases sequenceMark?_eq_some_iff.mp hm with ⟨-, rfl⟩ | ⟨-, rfl⟩
  · simp [report?, lookupFault?, Entity.range?, Entity.label, nameOf, hf]
  · simp [report?, lookupFault?, Entity.range?, Entity.label, nameOf, hf]

/-- The marks of the sequences, split at the function at a position of the top level. -/
theorem sequenceMarks_split (hd : u.topLevel[site]? = some d) (hm : u.sequenceMark? site d = some m) :
    ∃ before after, u.sequenceMarks = before ++ m :: after ∧
      ∀ m', m' ∈ before ↔ ∃ site' d', site' < site ∧ u.topLevel[site']? = some d' ∧
        u.sequenceMark? site' d' = some m' := by
  obtain ⟨hlt, rfl⟩ := List.getElem?_eq_some_iff.mp hd
  have hSplit : u.topLevel = u.topLevel.take site ++ u.topLevel[site] :: u.topLevel.drop (site + 1) := by
    rw [List.getElem_cons_drop, List.take_append_drop]
  have hLength : (u.topLevel.take site).length = site := List.length_take_of_le (Nat.le_of_lt hlt)
  refine ⟨(u.topLevel.take site).zipIdx.filterMap fun x => u.sequenceMark? x.2 x.1,
    ((u.topLevel.drop (site + 1)).zipIdx (site + 1)).filterMap fun x => u.sequenceMark? x.2 x.1, ?_, ?_⟩
  · rw [sequenceMarks]
    conv => lhs; rw [hSplit]
    rw [List.zipIdx_append, List.filterMap_append, List.zipIdx_cons, hLength, Nat.zero_add]
    exact congrArg _ (List.filterMap_cons_some hm)
  · intro m'
    simp only [List.mem_filterMap, Prod.exists, List.mem_zipIdx_iff_getElem?, List.getElem?_take]
    constructor
    · rintro ⟨d', site', hd', hm'⟩
      split at hd'
      · next hlt' => exact ⟨site', d', hlt', hd', hm'⟩
      · cases hd'
    · rintro ⟨site', d', hlt', hd', hm'⟩
      exact ⟨d', site', by rw [if_pos hlt']; exact hd', hm'⟩

/-- A mark is the first to take a position if it takes it and none of those before it does. -/
theorem firstTaker?_split {before after : List Mark} (hm : m ∉ before) :
    u.firstTaker? (before ++ m :: after) i = some m ↔
      u.takes m i = true ∧ ∀ m' ∈ before, u.takes m' i ≠ true := by
  constructor
  · intro h
    refine ⟨takes_of_firstTaker? h, fun m' hm' hTakes => ?_⟩
    obtain ⟨first, hFirst⟩ := exists_firstTaker? hm' hTakes
    rw [firstTaker?_append, hFirst] at h
    cases h
    exact hm (mem_of_firstTaker? hFirst)
  · intro h
    refine List.find?_eq_some_iff_append.mpr ⟨h.1, before, after, rfl, fun m' hm' => ?_⟩
    simpa using h.2 m' hm'

theorem awarded_function_iff (hd : u.topLevel[site]? = some d) (hf : u.decl? d = some f)
    (hDef : (u.definition? d).isSome) :
    u.awarded u.sequenceMarks (.function site d) i = true ↔ u.CoversFirst site f i := by
  have hm : u.sequenceMark? site d = some (.claim (.function site d)) :=
    sequenceMark?_eq_some_iff.mpr (.inl ⟨hDef, rfl⟩)
  obtain ⟨before, after, hMarks, hBefore⟩ := sequenceMarks_split hd hm
  -- a function that stands in several places claims once for each of them, under different names
  have hNotMem : .claim (.function site d) ∉ before := by
    intro hMem
    obtain ⟨site', d', hlt, -, hm'⟩ := (hBefore _).mp hMem
    rcases sequenceMark?_eq_some_iff.mp hm' with ⟨-, hEq⟩ | ⟨-, hEq⟩
    · cases hEq
      exact absurd hlt (Nat.lt_irrefl _)
    · cases hEq
  have hEarlier : (∀ m' ∈ before, u.takes m' i ≠ true) ↔
      ∀ site' f', site' < site → u.FunctionAt site' f' → ¬ u.Covers f'.range i := by
    constructor
    · intro h site' f' hlt hf' hCovers
      obtain ⟨d', m', hd', hf', hm'⟩ := functionAt_iff.mp hf'
      exact h m' ((hBefore m').mpr ⟨site', d', hlt, hd', hm'⟩) ((takes_sequenceMark hf' hm').mpr hCovers)
    · intro h m' hMem hTakes
      obtain ⟨site', d', hlt, hd', hm'⟩ := (hBefore m').mp hMem
      obtain ⟨f', hf', -⟩ := Option.bind_eq_some_iff.mp hm'
      have hAt := functionAt_iff.mpr ⟨d', m', hd', hf', hm'⟩
      exact h site' f' hlt hAt ((takes_sequenceMark hf' hm').mp hTakes)
  have hAward : u.awarded u.sequenceMarks (.function site d) i = true ↔
      u.firstTaker? (before ++ .claim (.function site d) :: after) i = some (.claim (.function site d)) := by
    simp [awarded, Entity.access, hMarks]
  rw [hAward, firstTaker?_split hNotMem, takes_sequenceMark hf hm, hEarlier, CoversFirst]

/-- The sequence at a defined function holds what the function is the first to cover. -/
theorem sequenceOf_sequenceAt (hd : u.topLevel[site]? = some d) (hf : u.decl? d = some f)
    (hDef : (u.definition? d).isSome) : u.SequenceOf site f (u.sequenceAt site d) where
  name := by simp [sequenceAt, nameOf, hf]
  mem_tokens t := by rw [sequenceAt, List.mem_filter, awarded_function_iff hd hf hDef, ledger, Ledger.tokens_ofLexemes]
  ordered := u.ledger.pairwise_tokens.filter _
  slice := by
    intro hApart a b ha hb
    refine tokens_slice ha hb fun t _ => (awarded_function_iff hd hf hDef).trans (and_iff_left_of_imp ?_)
    intro hCovers site' f' hlt hAt
    exact hApart site' f' hlt hAt _ hCovers

theorem onePerPlace_functions (u : SourceUnit) : OnePerPlace (fun site => ∃ f, u.DefinedAt site f)
    (fun site q => ∃ f, u.DefinedAt site f ∧ u.SequenceOf site f q) u.sequences.functions := by
  have hDefinedAt : ∀ {site d}, u.topLevel[site]? = some d → (u.definition? d).isSome →
      ∃ f, u.decl? d = some f ∧ u.DefinedAt site f := by
    intro site d hd hDef
    obtain ⟨_, h⟩ := Option.isSome_iff_exists.mp hDef
    obtain ⟨f, hf, -⟩ := Option.bind_eq_some_iff.mp h
    obtain ⟨params, body, hk, hName⟩ := (definition?_isSome_iff hf).mp hDef
    exact ⟨f, hf, d, params, body, hd, hf, hk, hName⟩
  rw [functions_sequences]
  refine onePerPlace_filterMap u.topLevel (fun d site => (u.definition? d).map fun _ => u.sequenceAt site d) ?_ ?_
  · intro site
    simp only [Option.isSome_map]
    constructor
    · rintro ⟨f, d, params, body, hd, hf, hk⟩
      exact ⟨d, hd, (definition?_isSome_iff hf).mpr ⟨params, body, hk⟩⟩
    · rintro ⟨d, hd, hDef⟩
      obtain ⟨f, -, hAt⟩ := hDefinedAt hd hDef
      exact ⟨f, hAt⟩
  · intro site d q hd hq
    obtain ⟨definition, h, rfl⟩ := Option.map_eq_some_iff.mp hq
    have hDef : (u.definition? d).isSome := by rw [h]; rfl
    obtain ⟨f, hf, hAt⟩ := hDefinedAt hd hDef
    exact ⟨f, hAt, sequenceOf_sequenceAt hd hf hDef⟩

theorem disjoint_functions (u : SourceUnit) :
    u.sequences.functions.Pairwise fun q q' => ∀ t ∈ q.tokens, ∀ t' ∈ q'.tokens, t.index ≠ t'.index := by
  rw [functions_sequences]
  refine (pairwise_zipIdx u.topLevel).filterMap _ ?_
  rintro ⟨d, site⟩ ⟨d', site'⟩ hlt q hq q' hq' t ht t' ht' hIndex
  obtain ⟨-, -, rfl⟩ := Option.map_eq_some_iff.mp hq
  obtain ⟨-, -, rfl⟩ := Option.map_eq_some_iff.mp hq'
  have hAward := (List.mem_filter.mp ht).2
  have hAward' := (List.mem_filter.mp ht').2
  rw [← hIndex] at hAward'
  cases eq_of_awarded rfl rfl hAward hAward'
  exact Nat.lt_irrefl _ hlt

theorem onePerPlace_diagnostics (u : SourceUnit) :
    OnePerPlace (fun site => ∃ f, u.FunctionAt site f ∧ ¬ u.Resolvable f.range)
      (fun site report => ∃ f reason, u.FunctionAt site f ∧ u.rangeFault? f.range = some reason ∧
        report = ⟨.tokenLookup, s!"\x60{f.name.text}\x60: {reason}", some f.range⟩) u.sequences.diagnostics := by
  have hDiagnostics : u.sequences.diagnostics =
      u.topLevel.zipIdx.filterMap fun x => (u.sequenceMark? x.2 x.1).bind u.report? := by
    rw [diagnostics_sequences, sequenceMarks, List.filterMap_filterMap]
  rw [hDiagnostics]
  refine onePerPlace_filterMap u.topLevel (fun d site => (u.sequenceMark? site d).bind u.report?) ?_ ?_
  · intro site
    constructor
    · rintro ⟨f, hAt, hFault⟩
      obtain ⟨d, m, hd, hf, hm⟩ := functionAt_iff.mp hAt
      refine ⟨d, hd, ?_⟩
      rw [hm, Option.bind_some, report?_sequenceMark hf hm, Option.isSome_map]
      exact (rangeFault?_isSome_iff _).mpr hFault
    · rintro ⟨d, hd, hReport⟩
      obtain ⟨m, hm⟩ := Option.isSome_iff_exists.mp (Option.isSome_of_isSome_bind hReport)
      obtain ⟨f, hf, -⟩ := Option.bind_eq_some_iff.mp hm
      rw [hm, Option.bind_some, report?_sequenceMark hf hm, Option.isSome_map] at hReport
      exact ⟨f, functionAt_iff.mpr ⟨d, m, hd, hf, hm⟩, (rangeFault?_isSome_iff _).mp hReport⟩
  · intro site d report hd hReport
    obtain ⟨m, hm, hReport⟩ := Option.bind_eq_some_iff.mp hReport
    obtain ⟨f, hf, -⟩ := Option.bind_eq_some_iff.mp hm
    rw [report?_sequenceMark hf hm] at hReport
    obtain ⟨reason, hFault, rfl⟩ := Option.map_eq_some_iff.mp hReport
    exact ⟨f, reason, functionAt_iff.mpr ⟨d, m, hd, hf, hm⟩, hFault, rfl⟩

/-- For every unit. -/
theorem sequences_first_come (u : SourceUnit) :
    OnePerPlace (fun site => ∃ f, u.DefinedAt site f)
      (fun site q => ∃ f, u.DefinedAt site f ∧ u.SequenceOf site f q) u.sequences.functions ∧
    (u.sequences.functions.Pairwise fun q q' => ∀ t ∈ q.tokens, ∀ t' ∈ q'.tokens, t.index ≠ t'.index) ∧
    OnePerPlace (fun site => ∃ f, u.FunctionAt site f ∧ ¬ u.Resolvable f.range)
      (fun site report => ∃ f reason, u.FunctionAt site f ∧ u.rangeFault? f.range = some reason ∧
        report = ⟨.tokenLookup, s!"\x60{f.name.text}\x60: {reason}", some f.range⟩) u.sequences.diagnostics :=
  ⟨u.onePerPlace_functions, u.disjoint_functions, u.onePerPlace_diagnostics⟩

end SourceUnit

end UnitGraph
