import Mathlib.Data.List.Nodup
import UnitGraph.Files.Source
import UnitGraph.Proofs.Files.Path

/-!
# Source files of a tree

Every directory gives its entries names of their own. Main statements: the source files found below a
directory have paths that lead to different places, and which paths are found and where they lead depends on
the names in the tree alone, not on what the files contain.
-/
namespace UnitGraph.FileTree

/-- Every directory has entries with different names, and each name leads one level down. -/
inductive WellFormed : FileTree → Prop
  | file (bytes : List UInt8) : WellFormed (.file bytes)
  | directory {es : List (String × FileTree)} : (es.map (·.1)).Nodup → (∀ e ∈ es, Path.IsName e.1) →
      (∀ e ∈ es, WellFormed e.2) → WellFormed (.directory es)

theorem WellFormed.descend? {t found : FileTree} (h : t.WellFormed) {place : List String}
    (hFound : t.descend? place = some found) : found.WellFormed := by
  induction place generalizing t with
  | nil =>
      cases hFound
      exact h
  | cons name place ih =>
      obtain ⟨below, hBelow, hRest⟩ := Option.bind_eq_some_iff.mp hFound
      cases h with
      | file bytes => cases hBelow
      | directory _ _ hEntries =>
          obtain ⟨before, after, rfl, _⟩ := List.lookup_eq_some_iff.mp hBelow
          exact ih (hEntries (name, below) (by simp)) hRest

theorem WellFormed.resolve {t found : FileTree} (h : t.WellFormed) {path : String}
    (hFound : t.resolve path = .ok found) : found.WellFormed := by
  unfold FileTree.resolve at hFound
  cases hLocate : t.locate path with
  | error e => simp [hLocate, bind, Except.bind] at hFound
  | ok place =>
      cases hPlace : t.descend? place with
      | none => simp [hLocate, hPlace, bind, Except.bind] at hFound
      | some there =>
          simp only [hLocate, hPlace, bind, Except.bind, Except.ok.injEq] at hFound
          exact hFound ▸ h.descend? hPlace

section Sources
variable {path : String} {t : FileTree} {es : List (String × FileTree)}

theorem ne_empty_of_resolve {found : FileTree} (h : t.resolve path = .ok found) : path ≠ "" := by
  rintro rfl
  cases h

theorem collectSources_of_directory (h : t.resolve path = .ok (.directory es)) :
    t.collectSources path = .ok (sourcesAt path (.directory es)) := by
  rw [collectSources, h]

theorem sourcesOfEntries_eq_map (path : String) (es : List (String × FileTree)) :
    sourcesOfEntries path es = es.map fun e => (e.1, sourcesAt (Path.join path e.1) e.2) := by
  induction es with
  | nil => rfl
  | cons e es ih => rw [sourcesOfEntries, ih, List.map_cons]

theorem sourcesAt_directory_perm (path : String) (es : List (String × FileTree)) :
    (sourcesAt path (.directory es)).Perm (es.flatMap fun e => sourcesAt (Path.join path e.1) e.2) := by
  rw [sourcesAt, sourcesOfEntries_eq_map]
  refine ((List.mergeSort_perm _ _).flatMap_right _).trans ?_
  rw [List.flatMap_map]

theorem components_of_mem_sourcesAt (h : t.WellFormed) (hPath : path ≠ "") {p : String}
    (hp : p ∈ sourcesAt path t) : Path.components path <+: Path.components p := by
  induction h generalizing path with
  | file bytes =>
      rw [sourcesAt] at hp
      split at hp
      · cases List.mem_singleton.mp hp
        exact List.prefix_rfl
      · cases hp
  | directory _ hNames _ ih =>
      obtain ⟨e, he, hp⟩ := List.mem_flatMap.mp ((sourcesAt_directory_perm _ _).mem_iff.mp hp)
      have hBelow := ih e he (Path.join_ne_empty hPath (hNames e he)) hp
      rw [Path.components_join hPath (hNames e he)] at hBelow
      exact (List.prefix_append ..).trans hBelow

/-- No two of the paths found lead to the same place. -/
theorem components_sourcesAt_nodup (h : t.WellFormed) (hPath : path ≠ "") :
    ((sourcesAt path t).map Path.components).Nodup := by
  induction h generalizing path with
  | file bytes =>
      rw [sourcesAt]
      split <;> simp
  | @directory es hDistinct hNames hBelow ih =>
      rw [((sourcesAt_directory_perm path es).map _).nodup_iff, List.map_flatMap, List.nodup_flatMap]
      refine ⟨fun e he => ih e he (Path.join_ne_empty hPath (hNames e he)), ?_⟩
      refine (List.pairwise_map.mp hDistinct).imp_of_mem fun {e e'} he he' hNe => ?_
      -- below different names of one directory the components differ right behind those of the directory
      intro cs hcs hcs'
      obtain ⟨p, hp, rfl⟩ := List.mem_map.mp hcs
      obtain ⟨p', hp', hSame⟩ := List.mem_map.mp hcs'
      have hFirst := components_of_mem_sourcesAt (hBelow e he) (Path.join_ne_empty hPath (hNames e he)) hp
      have hSecond := components_of_mem_sourcesAt (hBelow e' he') (Path.join_ne_empty hPath (hNames e' he')) hp'
      rw [Path.components_join hPath (hNames e he)] at hFirst
      rw [Path.components_join hPath (hNames e' he'), hSame] at hSecond
      have hNext := (List.prefix_of_prefix_length_le hFirst hSecond (by simp)).eq_of_length (by simp)
      simp [hNe] at hNext

end Sources

section Outline

mutual

/-- A tree with the content of all files left out. -/
def outline : FileTree → FileTree
  | file _ => file []
  | directory es => directory (outlineEntries es)

def outlineEntries : List (String × FileTree) → List (String × FileTree)
  | [] => []
  | (name, t) :: es => (name, outline t) :: outlineEntries es

end

theorem lookup_outlineEntries (es : List (String × FileTree)) (name : String) :
    (outlineEntries es).lookup name = (es.lookup name).map outline := by
  induction es with
  | nil => rfl
  | cons e es ih =>
      rw [outlineEntries, List.lookup_cons, List.lookup_cons, ih]
      split <;> rfl

theorem entries_outline (t : FileTree) : t.outline.entries = outlineEntries t.entries := by
  cases t with
  | file bytes => rfl
  | directory es => rw [outline, entries, entries]

theorem descend?_outline (t : FileTree) (place : List String) :
    t.outline.descend? place = (t.descend? place).map outline := by
  induction place generalizing t with
  | nil => rfl
  | cons name place ih =>
      rw [descend?, descend?, entries_outline, lookup_outlineEntries]
      cases t.entries.lookup name with
      | none => rfl
      | some below => exact ih below

theorem step_outline (t : FileTree) : t.outline.step = t.step := by
  funext place segment
  rw [step, step, descend?_outline]
  cases t.descend? place with
  | none => rfl
  | some below =>
      cases below with
      | file bytes => rfl
      | directory es => simp only [Option.map_some, outline, lookup_outlineEntries, Option.isSome_map]

theorem locate_outline (t : FileTree) (path : String) : t.outline.locate path = t.locate path := by
  rw [locate, locate, step_outline]

mutual

theorem sourcesAt_outline (path : String) : ∀ t : FileTree, sourcesAt path t.outline = sourcesAt path t
  | .file _ => by rw [outline, sourcesAt, sourcesAt]
  | .directory es => by rw [outline, sourcesAt, sourcesAt, sourcesOfEntries_outline path es]

theorem sourcesOfEntries_outline (path : String) : ∀ es : List (String × FileTree),
    sourcesOfEntries path (outlineEntries es) = sourcesOfEntries path es
  | [] => rfl
  | (name, t) :: es => by
      rw [outlineEntries, sourcesOfEntries, sourcesOfEntries, sourcesAt_outline _ t,
        sourcesOfEntries_outline path es]

end

theorem resolve_outline (t : FileTree) (path : String) :
    t.outline.resolve path = (t.resolve path).map outline := by
  rw [resolve, resolve, locate_outline]
  cases t.locate path with
  | error e => rfl
  | ok place =>
      simp only [bind, Except.bind, descend?_outline]
      cases t.descend? place <;> rfl

theorem collectSources_outline (t : FileTree) (path : String) :
    t.outline.collectSources path = t.collectSources path := by
  rw [collectSources, collectSources, resolve_outline]
  cases t.resolve path with
  | error e => rfl
  | ok found =>
      cases found with
      | file bytes => rfl
      | directory es =>
          have hSources := sourcesAt_outline path (.directory es)
          rw [outline] at hSources
          simp only [Except.map, outline, hSources]

/-- Two trees that are the same but for what the file at one place contains. -/
structure DiffersAt (place : List String) (t t' : FileTree) : Prop where
  outline : t.outline = t'.outline
  content : ∀ other, other ≠ place → ∀ bytes,
    t.descend? other = some (.file bytes) ↔ t'.descend? other = some (.file bytes)

variable {place : List String} {t t' : FileTree}

theorem DiffersAt.file (bytes bytes' : List UInt8) : DiffersAt [] (.file bytes) (.file bytes') where
  outline := rfl
  content := by
    intro other hOther content
    cases other with
    | nil => exact absurd rfl hOther
    | cons n ns => rfl

/-- A difference below an entry, which is put first, is one below its directory. -/
theorem DiffersAt.cons (h : DiffersAt place t t') (name : String) (es : List (String × FileTree)) :
    DiffersAt (name :: place) (.directory ((name, t) :: es)) (.directory ((name, t') :: es)) where
  outline := by rw [FileTree.outline, FileTree.outline, outlineEntries, outlineEntries, h.outline]
  content := by
    intro other hOther content
    cases other with
    | nil => simp [descend?]
    | cons n ns =>
        rw [descend?, descend?, entries, entries, List.lookup_cons, List.lookup_cons]
        cases hName : n == name with
        | true =>
            refine h.content ns (fun hPlace => hOther ?_) content
            rw [hPlace, beq_iff_eq.mp hName]
        | false => rfl

theorem DiffersAt.collectSources_eq (h : DiffersAt place t t') (path : String) :
    t'.collectSources path = t.collectSources path := by
  rw [← collectSources_outline, ← h.outline, collectSources_outline]

theorem DiffersAt.locate_eq (h : DiffersAt place t t') (path : String) : t'.locate path = t.locate path := by
  rw [← locate_outline, ← h.outline, locate_outline]

/-- Files elsewhere are read the same. -/
theorem DiffersAt.read_eq (h : DiffersAt place t t') {path : String} (hPath : t.locate path ≠ .ok place) :
    t'.read path = t.read path := by
  rw [read, read, resolve, resolve, h.locate_eq]
  cases hLocate : t.locate path with
  | error e => rfl
  | ok other =>
      have hOther : other ≠ place := fun hEq => hPath (hEq ▸ hLocate)
      have hOutline : (t.descend? other).map FileTree.outline = (t'.descend? other).map FileTree.outline := by
        rw [← descend?_outline, ← descend?_outline, h.outline]
      have hContent := h.content other hOther
      simp only [bind, Except.bind]
      cases hFound : t.descend? other with
      | none =>
          rw [hFound, Option.map_none, eq_comm, Option.map_eq_none_iff] at hOutline
          rw [hOutline]
      | some found =>
          cases found with
          | file bytes => rw [(hContent bytes).mp hFound]
          | directory es =>
              rw [hFound, Option.map_some, eq_comm, Option.map_eq_some_iff] at hOutline
              obtain ⟨found', hFound', hOutline⟩ := hOutline
              rw [hFound']
              cases found' with
              | file bytes => cases hOutline
              | directory es' => rfl

end Outline

end UnitGraph.FileTree
