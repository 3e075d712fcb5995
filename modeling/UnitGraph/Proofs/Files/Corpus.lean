import Mathlib.Data.List.Perm.Basic
import UnitGraph.Files.Corpus
import UnitGraph.Proofs.Files.Sources

/-!
# Corpora keep their files apart

Main statement: every source file found below a directory has exactly one entry in the corpus, as a sample or
as a failure, in the order in which the files were found; the entry is what loading that file alone gives, so
it depends on no other file.
-/
namespace UnitGraph

namespace Corpus

variable {α : Type} {paths : List String} {result : String → Except SampleError α}

/-- The entries of a corpus share out some paths: each path is that of one sample or of one failure, both in
the order of the paths. Paths are told apart by their components. -/
structure SharesOut (c : Corpus α) (paths : List String) : Prop where
  distinct : (paths.map Path.components).Nodup
  all : (c.samples.map (·.1) ++ c.failures.map (·.1)).Perm paths
  samples : (c.samples.map (·.1)).Sublist paths
  failures : (c.failures.map (·.1)).Sublist paths

/-- The corpus of some files, given what each of them alone results in. -/
def ofFiles (paths : List String) (result : String → Except SampleError α) : Corpus α :=
  ofResults (paths.map fun p => (p, result p))

theorem mem_samples_iff {p : String} {x : α} :
    (p, x) ∈ (ofFiles paths result).samples ↔ p ∈ paths ∧ result p = .ok x := by
  simp only [ofFiles, ofResults, List.filterMap_map, List.mem_filterMap, Function.comp_apply]
  constructor
  · intro h
    obtain ⟨q, hq, hEntry⟩ := h
    cases hResult : result q with
    | ok y =>
        simp only [hResult, Except.toOption, Option.map_some, Option.some.injEq, Prod.mk.injEq] at hEntry
        obtain ⟨rfl, rfl⟩ := hEntry
        exact ⟨hq, hResult⟩
    | error e => simp [hResult, Except.toOption] at hEntry
  · intro h
    exact ⟨p, h.1, by simp [h.2, Except.toOption]⟩

theorem mem_failures_iff {p : String} {e : SampleError} :
    (p, e) ∈ (ofFiles paths result).failures ↔ p ∈ paths ∧ result p = .error e := by
  simp only [ofFiles, ofResults, List.filterMap_map, List.mem_filterMap, Function.comp_apply]
  constructor
  · intro h
    obtain ⟨q, hq, hEntry⟩ := h
    cases hResult : result q with
    | ok x => simp [hResult] at hEntry
    | error e' =>
        simp only [hResult, Option.some.injEq, Prod.mk.injEq] at hEntry
        obtain ⟨rfl, rfl⟩ := hEntry
        exact ⟨hq, hResult⟩
  · intro h
    exact ⟨p, h.1, by simp [h.2]⟩

theorem samples_ofFiles (paths : List String) (result : String → Except SampleError α) :
    (ofFiles paths result).samples.map (·.1) = paths.filter fun p => (result p).isOk := by
  simp only [ofFiles, ofResults, List.filterMap_map]
  induction paths with
  | nil => rfl
  | cons p paths ih =>
      cases hResult : result p <;>
        simpa [hResult, Except.toOption, Except.isOk, Except.toBool] using ih

theorem failures_ofFiles (paths : List String) (result : String → Except SampleError α) :
    (ofFiles paths result).failures.map (·.1) = paths.filter fun p => !(result p).isOk := by
  simp only [ofFiles, ofResults, List.filterMap_map]
  induction paths with
  | nil => rfl
  | cons p paths ih =>
      cases hResult : result p <;>
        simpa [hResult, Except.isOk, Except.toBool] using ih

theorem sharesOut_ofFiles (h : (paths.map Path.components).Nodup) :
    (ofFiles paths result).SharesOut paths where
  distinct := h
  all := by
    rw [samples_ofFiles, failures_ofFiles]
    exact List.filter_append_perm _ paths
  samples := by
    rw [samples_ofFiles]
    exact List.filter_sublist
  failures := by
    rw [failures_ofFiles]
    exact List.filter_sublist

/-- Looking up the path of a file gives its sample, since no other file has a path of the same components. -/
theorem sample?_ofFiles (h : (paths.map Path.components).Nodup) {p : String} (hp : p ∈ paths) {x : α} :
    (ofFiles paths result).sample? p = some x ↔ result p = .ok x := by
  have hSame : ∀ s ∈ (ofFiles paths result).samples, Path.components s.1 = Path.components p → s.1 = p :=
    fun s hs hEq => List.inj_on_of_nodup_map h (mem_samples_iff.mp hs).1 hp hEq
  rw [sample?, Option.map_eq_some_iff]
  constructor
  · intro hFound
    obtain ⟨s, hs, rfl⟩ := hFound
    have hMem := List.mem_of_find?_eq_some hs
    have hPath := hSame s hMem (by simpa using List.find?_some hs)
    exact hPath ▸ (mem_samples_iff.mp hMem).2
  · intro hResult
    cases hFind : (ofFiles paths result).samples.find? fun s => Path.components s.1 = Path.components p with
    | none =>
        have hMem : (p, x) ∈ (ofFiles paths result).samples := mem_samples_iff.mpr ⟨hp, hResult⟩
        simpa using List.find?_eq_none.mp hFind _ hMem
    | some s =>
        have hMem := List.mem_of_find?_eq_some hFind
        have hPath := hSame s hMem (by simpa using List.find?_some hFind)
        have hValue := (mem_samples_iff.mp hMem).2
        rw [hPath, hResult] at hValue
        cases hValue
        exact ⟨s, rfl, rfl⟩

end Corpus

namespace FileTree

variable {α : Type} {t t' : FileTree} {dir : String} {es : List (String × FileTree)}
  {extract : String → Except ExtractionError α}

theorem corpus_of_collectSources {paths : List String} (h : t.collectSources dir = .ok paths) :
    t.corpus extract dir = .ok (.ofFiles paths (t.extractFile extract)) := by
  rw [corpus, h]
  rfl

theorem extractFile_congr {path : String} (h : t'.read path = t.read path) :
    t'.extractFile extract path = t.extractFile extract path := by
  rw [extractFile, extractFile, loadSource, loadSource, h]

theorem components_found_nodup (ht : t.WellFormed) (h : t.resolve dir = .ok (.directory es)) :
    ((sourcesAt dir (.directory es)).map Path.components).Nodup :=
  components_sourcesAt_nodup (ht.resolve h) (ne_empty_of_resolve h)

end FileTree

open FileTree

/-- A directory with two source files, one of which has the bytes given, and a file that is none. -/
def folderOfTwo (bytes : List UInt8) : FileTree :=
  .directory [("b.c", .file bytes), ("notes.txt", .file []), ("a.c", .file [])]

def treeOfTwo (bytes : List UInt8) : FileTree := .directory [("src", folderOfTwo bytes)]

theorem wellFormed_treeOfTwo (bytes : List UInt8) : (treeOfTwo bytes).WellFormed := by
  have hNames : Path.IsName "src" ∧ Path.IsName "b.c" ∧ Path.IsName "notes.txt" ∧ Path.IsName "a.c" := by decide
  refine .directory (by simp) (by simp [hNames]) fun e he => ?_
  rw [List.mem_singleton.mp he]
  refine .directory (by simp) (by simp [hNames]) fun e he => ?_
  simp only [List.mem_cons, List.not_mem_nil, or_false] at he
  obtain rfl | rfl | rfl := he <;> exact .file _

theorem collectSources_treeOfTwo (bytes : List UInt8) :
    (treeOfTwo bytes).collectSources "src" = .ok ["src/a.c", "src/b.c"] := by
  have hJoin : Path.join "src" "a.c" = "src/a.c" ∧ Path.join "src" "b.c" = "src/b.c" ∧
      Path.join "src" "notes.txt" = "src/notes.txt" := by decide
  have hSource : isSourcePath "src/a.c" = true ∧ isSourcePath "src/b.c" = true ∧
      isSourcePath "src/notes.txt" = false := by decide
  have hResolve : (treeOfTwo bytes).resolve "src" = .ok (folderOfTwo bytes) := rfl
  rw [folderOfTwo] at hResolve
  rw [collectSources_of_directory hResolve, sourcesAt, sourcesOfEntries_eq_map]
  simp [List.mergeSort, List.MergeSort.Internal.splitInTwo, nameBefore, sourcesAt, hJoin, hSource]

def emptyOnly : Frontend where
  parse source := if source = "" then .ok .empty else .error ⟨["1:1: no declaration"]⟩

end UnitGraph
