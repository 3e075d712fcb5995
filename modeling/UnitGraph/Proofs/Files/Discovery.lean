import UnitGraph.Proofs.Files.Sources
import UnitGraph.Proofs.Registry
import UnitGraph.Proofs.Text.ByteOrder

/-!
# Discovery of source files

Paths are compared component by component, names by their bytes. Main statement: below a directory exactly the
regular files whose name ends in the extension of a source are found, each once and in the order of their paths,
although the files and directories of one directory are sorted together by their names alone.
-/
namespace UnitGraph

theorem lex_append_left {α : Type} {r : α → α → Prop} {l l' : List α} (k : List α) (h : List.Lex r l l') :
    List.Lex r (k ++ l) (k ++ l') := by
  induction k with
  | nil => exact h
  | cons a k ih => exact .cons ih

namespace PathComponent

/-- The top comes before what leads nowhere, then what leads up, then names. -/
def rank : PathComponent → Nat
  | root => 0
  | current => 1
  | parent => 2
  | normal _ => 3

/-- The order of components; names are ordered by their bytes. -/
def Before : PathComponent → PathComponent → Prop
  | normal a, normal b => Text.utf8Bytes a < Text.utf8Bytes b
  | x, y => x.rank < y.rank

instance : DecidableRel Before := fun x y => by
  unfold Before
  split <;> infer_instance

theorem before_normal {a b : String} : Before (.normal a) (.normal b) ↔ a < b := Text.utf8Bytes_lt_iff

end PathComponent

namespace Path

variable {base name : String} {names : List String}

/-- One path comes before another, component by component. -/
def Before (p q : String) : Prop := List.Lex PathComponent.Before (components p) (components q)

instance : DecidableRel Before := fun p q =>
  inferInstanceAs (Decidable (List.Lex PathComponent.Before (components p) (components q)))

/-- A path continued by names, one after another. -/
def extend (base : String) (names : List String) : String := names.foldl join base

theorem components_extend (hBase : base ≠ "") (h : ∀ n ∈ names, IsName n) :
    components (extend base names) = components base ++ names.map .normal := by
  induction names generalizing base with
  | nil => simp [extend]
  | cons n names ih =>
      have hName := h n List.mem_cons_self
      have hRest := ih (join_ne_empty hBase hName) fun m hm => h m (List.mem_cons_of_mem n hm)
      rw [components_join hBase hName, List.append_assoc] at hRest
      exact hRest

/-- A name of a source: something, a dot and the extension. -/
def IsSourceName (name : String) : Prop := ∃ stem, stem ≠ "" ∧ name = stem ++ ".c"

theorem extensionOfName?_eq_some_iff : extensionOfName? name = some "c" ↔ IsSourceName name := by
  constructor
  · intro h
    simp only [extensionOfName?, Option.ite_none_right_eq_some, Option.some.injEq, List.length_reverse] at h
    obtain ⟨hLength, hAfter⟩ := h
    have hChars := congrArg String.toList hAfter
    rw [String.toList_ofList, List.reverse_eq_iff] at hChars
    -- behind the extension, backwards, stand the dot and at least one character more
    have hSplit := List.takeWhile_append_dropWhile (p := (· ≠ '.')) (l := name.toList.reverse)
    have hHead := List.head?_dropWhile_not (· ≠ '.') name.toList.reverse
    rw [hChars, List.length_reverse] at hLength
    rw [hChars] at hSplit
    have hReverse : name.toList.reverse.length = name.toList.length := List.length_reverse
    rw [← hReverse, ← hSplit] at hLength
    cases hDrop : name.toList.reverse.dropWhile (· ≠ '.') with
    | nil =>
        rw [hDrop] at hLength
        simp at hLength
    | cons d rest =>
        rw [hDrop] at hSplit hHead hLength
        have hDot : d = '.' := by simpa using hHead
        have hName := congrArg List.reverse hSplit
        rw [List.reverse_reverse, hDot] at hName
        refine ⟨String.ofList rest.reverse, ?_, ?_⟩
        · rw [← String.toList_inj.ne, String.toList_ofList]
          intro hNil
          simp [List.reverse_eq_nil_iff.mp hNil] at hLength
        · rw [← String.toList_inj, ← hName]
          simp
  · intro h
    obtain ⟨stem, hStem, rfl⟩ := h
    have hNonempty : stem.toList ≠ [] := fun hNil => hStem (String.toList_eq_nil_iff.mp hNil)
    have hLength := List.length_pos_iff.mpr hNonempty
    simp [extensionOfName?, hLength]

theorem isSourcePath_extend (hBase : base ≠ "") (h : ∀ n ∈ names, IsName n) (hLast : names.getLast? = some name) :
    isSourcePath (extend base names) = true ↔ IsSourceName name := by
  obtain ⟨init, rfl⟩ := List.getLast?_eq_some_iff.mp hLast
  have hFile : fileName? (extend base (init ++ [name])) = some name := by
    simp [fileName?, components_extend hBase h]
  rw [← extensionOfName?_eq_some_iff, isSourcePath, extension?, hFile, Option.bind_some]
  cases extensionOfName? name <;> simp [sourceExtensions]

end Path

namespace FileTree

/-- A source lies at a place of the tree: a regular file, by its name. -/
def SourceAt (t : FileTree) (place : List String) : Prop :=
  (∃ bytes, t.descend? place = some (.file bytes)) ∧ ∃ name, place.getLast? = some name ∧ Path.IsSourceName name

variable {t found : FileTree} {path dir p : String} {place : List String} {es : List (String × FileTree)}

theorem WellFormed.isName_of_mem (h : t.WellFormed) (hFound : t.descend? place = some found) :
    ∀ n ∈ place, Path.IsName n := by
  induction place generalizing t with
  | nil => exact fun n hn => absurd hn List.not_mem_nil
  | cons name place ih =>
      obtain ⟨below, hBelow, hRest⟩ := Option.bind_eq_some_iff.mp hFound
      cases h with
      | file bytes => cases hBelow
      | directory hDistinct hNames hEntries =>
          have hMem := (lookup_eq_some_iff_mem hDistinct).mp hBelow
          exact List.forall_mem_cons.mpr ⟨hNames _ hMem, ih (hEntries _ hMem) hRest⟩

/-- What is found at or below a path are the files there whose path is that of a source. -/
theorem mem_sourcesAt_iff (h : t.WellFormed) : p ∈ sourcesAt path t ↔
    ∃ place bytes, t.descend? place = some (.file bytes) ∧ isSourcePath (Path.extend path place) = true ∧
      p = Path.extend path place := by
  induction h generalizing path with
  | file content =>
      have hPlace : ∀ place bytes, (file content).descend? place = some (.file bytes) → place = [] := by
        intro place bytes hFound
        cases place with
        | nil => rfl
        | cons n ns => cases hFound
      rw [sourcesAt]
      constructor
      · intro hp
        split at hp
        · next hSource => exact ⟨[], content, rfl, hSource, List.mem_singleton.mp hp⟩
        · cases hp
      · intro h
        obtain ⟨place, bytes, hFound, hSource, rfl⟩ := h
        obtain rfl := hPlace place bytes hFound
        exact List.mem_ite_nil_right.mpr ⟨hSource, List.mem_singleton_self path⟩
  | @directory es hDistinct _ _ ih =>
      rw [(sourcesAt_directory_perm path es).mem_iff, List.mem_flatMap]
      constructor
      · intro h
        obtain ⟨e, he, hp⟩ := h
        obtain ⟨place, bytes, hFound, hSource, rfl⟩ := (ih e he).mp hp
        refine ⟨e.1 :: place, bytes, ?_, hSource, rfl⟩
        rw [descend?, entries, (lookup_eq_some_iff_mem hDistinct).mpr he, Option.bind_some, hFound]
      · intro h
        obtain ⟨place, bytes, hFound, hSource, rfl⟩ := h
        cases place with
        | nil => cases hFound
        | cons name place =>
            obtain ⟨below, hBelow, hRest⟩ := Option.bind_eq_some_iff.mp hFound
            have hMem := (lookup_eq_some_iff_mem hDistinct).mp hBelow
            exact ⟨_, hMem, (ih _ hMem).mpr ⟨place, bytes, hRest, hSource, rfl⟩⟩

/-- Sources below a directory, by their places. -/
theorem mem_sourcesAt_directory_iff (h : (directory es).WellFormed) (hPath : path ≠ "") :
    p ∈ sourcesAt path (.directory es) ↔
      ∃ place, (directory es).SourceAt place ∧ p = Path.extend path place := by
  rw [mem_sourcesAt_iff h]
  constructor
  · intro hp
    obtain ⟨place, bytes, hFound, hSource, rfl⟩ := hp
    cases hLast : place.getLast? with
    | none =>
        rw [List.getLast?_eq_none_iff.mp hLast] at hFound
        cases hFound
    | some name =>
        have hName := (Path.isSourcePath_extend hPath (h.isName_of_mem hFound) hLast).mp hSource
        exact ⟨place, ⟨⟨bytes, hFound⟩, name, hLast, hName⟩, rfl⟩
  · intro hp
    obtain ⟨place, ⟨⟨bytes, hFound⟩, name, hLast, hName⟩, rfl⟩ := hp
    exact ⟨place, bytes, hFound, (Path.isSourcePath_extend hPath (h.isName_of_mem hFound) hLast).mpr hName, rfl⟩

/-- The entries of a directory with what is found below them, in the order of their names. -/
theorem pairwise_sorted (h : (es.map (·.1)).Nodup) :
    ((sourcesOfEntries path es).mergeSort nameBefore).Pairwise (·.1 < ·.1) := by
  have hPerm := List.mergeSort_perm (sourcesOfEntries path es) nameBefore
  have hKeys : (((sourcesOfEntries path es).mergeSort nameBefore).map (·.1)).Nodup := by
    rw [(hPerm.map _).nodup_iff, sourcesOfEntries_eq_map, List.map_map]
    exact h
  have hSorted : ((sourcesOfEntries path es).mergeSort nameBefore).Pairwise fun x y => nameBefore x y = true := by
    refine List.pairwise_mergeSort ?_ ?_ _
    · intro x y z hxy hyz
      exact decide_eq_true (String.le_trans (of_decide_eq_true hxy) (of_decide_eq_true hyz))
    · intro x y
      simpa [nameBefore] using String.le_total x.1 y.1
  refine (hSorted.and (List.pairwise_map.mp hKeys)).imp fun {x y} hxy => ?_
  by_contra hNot
  exact hxy.2 (String.le_antisymm (of_decide_eq_true hxy.1) (String.not_lt.mp hNot))

/-- What is found below an entry has the components of the directory, the name of the entry, and more. -/
theorem components_below {name : String} (h : t.WellFormed) (hPath : path ≠ "") (hName : Path.IsName name)
    (hp : p ∈ sourcesAt (Path.join path name) t) :
    ∃ cs, Path.components p = Path.components path ++ .normal name :: cs := by
  obtain ⟨cs, hcs⟩ := components_of_mem_sourcesAt h (Path.join_ne_empty hPath hName) hp
  rw [Path.components_join hPath hName, List.append_assoc] at hcs
  exact ⟨cs, hcs.symm⟩

/-- The paths found are in order: the first name in which two of them differ is that of entries of one
directory, and those were sorted. -/
theorem pairwise_sourcesAt (h : t.WellFormed) (hPath : path ≠ "") :
    (sourcesAt path t).Pairwise Path.Before := by
  induction h generalizing path with
  | file bytes =>
      rw [sourcesAt]
      split
      · exact List.pairwise_singleton _ _
      · exact .nil
  | @directory es hDistinct hNames hBelow ih =>
      have hPerm := List.mergeSort_perm (sourcesOfEntries path es) nameBefore
      have hFound : ∀ x ∈ (sourcesOfEntries path es).mergeSort nameBefore,
          ∃ e ∈ es, x = (e.1, sourcesAt (Path.join path e.1) e.2) := by
        intro x hx
        rw [hPerm.mem_iff, sourcesOfEntries_eq_map, List.mem_map] at hx
        obtain ⟨e, he, rfl⟩ := hx
        exact ⟨e, he, rfl⟩
      rw [sourcesAt, List.pairwise_flatMap]
      constructor
      · intro x hx
        obtain ⟨e, he, rfl⟩ := hFound x hx
        exact ih e he (Path.join_ne_empty hPath (hNames e he))
      · refine (pairwise_sorted hDistinct).imp_of_mem fun {x y} hx hy hLt p hp q hq => ?_
        obtain ⟨e, he, rfl⟩ := hFound x hx
        obtain ⟨e', he', rfl⟩ := hFound y hy
        obtain ⟨cs, hcs⟩ := components_below (hBelow e he) hPath (hNames e he) hp
        obtain ⟨cs', hcs'⟩ := components_below (hBelow e' he') hPath (hNames e' he') hq
        rw [Path.Before, hcs, hcs']
        exact lex_append_left _ (.rel (PathComponent.before_normal.mpr hLt))

end FileTree

open FileTree

/-- For every directory of every tree. -/
theorem FileTree.collectSources_complete {t : FileTree} (ht : t.WellFormed) {dir : String}
    {es : List (String × FileTree)} (hDir : t.resolve dir = .ok (.directory es)) :
    ∃ paths, t.collectSources dir = .ok paths ∧
      (∀ place, (directory es).SourceAt place → paths.count (Path.extend dir place) = 1 ∧
        Path.components (Path.extend dir place) = Path.components dir ++ place.map .normal) ∧
      (∀ p ∈ paths, ∃ place, (directory es).SourceAt place ∧ p = Path.extend dir place) ∧
      paths.Pairwise Path.Before := by
  have hFound := ht.resolve hDir
  have hPath := ne_empty_of_resolve hDir
  refine ⟨_, collectSources_of_directory hDir, fun place hPlace => ⟨?_, ?_⟩, fun p hp => ?_,
    pairwise_sourcesAt hFound hPath⟩
  · have hMem := (mem_sourcesAt_directory_iff hFound hPath).mpr ⟨place, hPlace, rfl⟩
    exact List.count_eq_one_of_mem (List.Nodup.of_map _ (components_sourcesAt_nodup hFound hPath)) hMem
  · obtain ⟨⟨bytes, hFile⟩, -⟩ := hPlace
    exact Path.components_extend hPath (hFound.isName_of_mem hFile)
  · exact (mem_sourcesAt_directory_iff hFound hPath).mp hp

/-- A folder in which a file and a directory have names that begin alike. -/
def nestedFolder : FileTree :=
  .directory [("a.c", .file []), ("x.c", .directory []),
    ("a", .directory [("d.C", .file []), (".c", .file []), ("b.c", .file [])])]

def nestedTree : FileTree := .directory [("src", nestedFolder)]

theorem wellFormed_nestedTree : nestedTree.WellFormed := by
  have hNames : ∀ n ∈ ["src", "a.c", "x.c", "a", "d.C", ".c", "b.c"], Path.IsName n := by decide
  have hEmpty : (FileTree.directory []).WellFormed := .directory (by simp) (by simp) (by simp)
  have hInner : (FileTree.directory [("d.C", .file []), (".c", .file []), ("b.c", .file [])]).WellFormed := by
    refine .directory (by simp) (by simpa using ⟨hNames _ (by simp), hNames _ (by simp), hNames _ (by simp)⟩) ?_
    simpa using FileTree.WellFormed.file []
  refine .directory (by simp) (by simpa using hNames _ (by simp)) ?_
  refine List.forall_mem_singleton.mpr (.directory (by simp) ?_ ?_)
  · simpa using ⟨hNames _ (by simp), hNames _ (by simp), hNames _ (by simp)⟩
  · simpa using ⟨FileTree.WellFormed.file [], hEmpty, hInner⟩

/-- The order of the paths as texts would be another one. -/
theorem FileTree.collectSources_complete_nested :
    nestedTree.WellFormed ∧ nestedTree.resolve "src" = .ok nestedFolder ∧
      (∃ paths, nestedTree.collectSources "src" = .ok paths ∧ paths.count "src/a/b.c" = 1 ∧
        paths.count "src/a.c" = 1 ∧ paths.Pairwise Path.Before) ∧
      Path.Before "src/a/b.c" "src/a.c" ∧ "src/a.c" < "src/a/b.c" := by
  have hFolder : nestedTree.resolve "src" = .ok nestedFolder := rfl
  obtain ⟨paths, hPaths, hFound, -, hOrder⟩ := FileTree.collectSources_complete wellFormed_nestedTree hFolder
  have hInner : nestedFolder.SourceAt ["a", "b.c"] := ⟨⟨[], rfl⟩, "b.c", rfl, "b", by decide, by decide⟩
  have hOuter : nestedFolder.SourceAt ["a.c"] := ⟨⟨[], rfl⟩, "a.c", rfl, "a", by decide, by decide⟩
  have hExtend : Path.extend "src" ["a", "b.c"] = "src/a/b.c" ∧ Path.extend "src" ["a.c"] = "src/a.c" := by decide
  have hFirst := (hFound _ hInner).1
  have hSecond := (hFound _ hOuter).1
  rw [hExtend.1] at hFirst
  rw [hExtend.2] at hSecond
  exact ⟨wellFormed_nestedTree, hFolder, ⟨paths, hPaths, hFirst, hSecond, hOrder⟩, by decide, by decide⟩

end UnitGraph
