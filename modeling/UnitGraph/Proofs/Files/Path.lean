import UnitGraph.Files.Path

/-!
# Components of a continued path

A name of a directory entry is a text that leads one level down. Main statement: a path continued by such a
name has the components of the path and the name after them, however the path ends.
-/
namespace UnitGraph.Path

/-- A text that names an entry of a directory. -/
structure IsName (name : String) : Prop where
  component : component? name = some (.normal name)
  noSlash : '/' ∉ name.toList

variable {base name : String}

instance : Decidable (IsName name) :=
  decidable_of_iff (component? name = some (.normal name) ∧ '/' ∉ name.toList)
    ⟨fun h => ⟨h.1, h.2⟩, fun h => ⟨h.component, h.noSlash⟩⟩

theorem IsName.toList_ne_nil (h : IsName name) : name.toList ≠ [] := by
  intro hNil
  have hEmpty : name = "" := String.toList_eq_nil_iff.mp hNil
  have hComponent := h.component
  rw [hEmpty] at hComponent
  cases hComponent

theorem IsName.not_isAbsolute (h : IsName name) : isAbsolute name = false := by
  cases hChars : name.toList with
  | nil => exact absurd hChars h.toList_ne_nil
  | cons c cs =>
      have hc : c ≠ '/' := by
        rintro rfl
        exact h.noSlash (hChars ▸ List.mem_cons_self)
      simp [isAbsolute, hChars, hc]

theorem join_ne_empty (hBase : base ≠ "") (h : IsName name) : join base name ≠ "" := by
  have hName : name ≠ "" := fun hEmpty => h.toList_ne_nil (String.toList_eq_nil_iff.mpr hEmpty)
  unfold join
  split
  · exact hName
  · split <;> simp [hBase]

section Slash
variable {cs ds es : List Char}

theorem segments_ne_nil (path : String) : segments path ≠ [] := by
  simp [segments, List.splitOn, List.splitOnP_ne_nil]

theorem segments_slash (h : '/' ∉ ds) :
    segments (String.ofList (cs ++ '/' :: ds)) = segments (String.ofList cs) ++ [String.ofList ds] := by
  have hTail : ds.splitOnP (· == '/') = [ds] := by
    refine List.splitOnP_eq_singleton fun c hc => ?_
    simp only [beq_eq_false_iff_ne, ne_eq]
    rintro rfl
    exact h hc
  simp only [segments, String.toList_ofList, List.splitOn]
  rw [List.splitOnP_append_cons _ _ (by simp), hTail]
  simp

theorem head?_segments_slash (h : '/' ∉ ds) :
    (segments (String.ofList (cs ++ '/' :: ds))).head? = (segments (String.ofList cs)).head? := by
  rw [segments_slash h, List.head?_append, Option.or_of_isSome]
  exact List.isSome_head?.mpr (segments_ne_nil _)

theorem isAbsolute_slash :
    isAbsolute (String.ofList (cs ++ '/' :: ds)) = isAbsolute (String.ofList (cs ++ '/' :: es)) := by
  cases cs <;> simp [isAbsolute]

theorem isAbsolute_slash_of_ne_nil (h : cs ≠ []) :
    isAbsolute (String.ofList (cs ++ '/' :: ds)) = isAbsolute (String.ofList cs) := by
  cases cs with
  | nil => exact absurd rfl h
  | cons c cs => simp [isAbsolute]

end Slash

theorem components_append {path : String} {added : List PathComponent}
    (hAbsolute : isAbsolute path = isAbsolute base) (hHead : (segments path).head? = (segments base).head?)
    (hSegments : (segments path).filterMap component? = (segments base).filterMap component? ++ added) :
    components path = components base ++ added := by
  rw [components, components, hAbsolute, hHead, hSegments, List.append_assoc]

theorem components_join (hBase : base ≠ "") (h : IsName name) :
    components (join base name) = components base ++ [.normal name] := by
  have hRelative : ¬ (isAbsolute name = true ∨ base = "") := by simp [h.not_isAbsolute, hBase]
  rw [join, if_neg hRelative]
  split
  · next hLast =>
      -- the slash at the end is the one before the name
      obtain ⟨cs, hcs⟩ := List.getLast?_eq_some_iff.mp hLast
      have hBaseChars : base = String.ofList (cs ++ '/' :: []) := by rw [← hcs, String.ofList_toList]
      have hJoined : base ++ name = String.ofList (cs ++ '/' :: name.toList) := by
        rw [← String.toList_inj, String.toList_append, hcs]
        simp
      rw [hJoined, hBaseChars]
      refine components_append isAbsolute_slash ?_ ?_
      · rw [head?_segments_slash h.noSlash, head?_segments_slash List.not_mem_nil]
      · rw [segments_slash h.noSlash, segments_slash List.not_mem_nil]
        have hEmpty : component? (String.ofList []) = none := rfl
        simp [h.component, hEmpty]
  · have hBaseChars : base = String.ofList base.toList := String.ofList_toList.symm
    have hJoined : base ++ "/" ++ name = String.ofList (base.toList ++ '/' :: name.toList) := by
      rw [← String.toList_inj]
      simp
    have hNonempty : base.toList ≠ [] := fun hNil => hBase (String.toList_eq_nil_iff.mp hNil)
    rw [hJoined]
    refine components_append ?_ ?_ ?_
    · rw [isAbsolute_slash_of_ne_nil hNonempty, ← hBaseChars]
    · rw [head?_segments_slash h.noSlash, ← hBaseChars]
    · rw [segments_slash h.noSlash, ← hBaseChars]
      simp [h.component]

end UnitGraph.Path
