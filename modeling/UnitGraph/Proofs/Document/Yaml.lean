import UnitGraph.Proofs.Document.Scalars

/-!
# YAML can be read back

Lines that belong to the value of a field are indented or begin with a dash; no key and no scalar begins like
that, so the lines of a field, and those of an item, end where the next one begins. Main statement: documents of
one YAML text have one spelling.
-/
namespace UnitGraph.Document

open Text

section Lines
variable {lines lines' rest rest' : List (List Char)}

theorem lines_unique (h : ∀ line ∈ lines, '\n' ∉ line) (h' : ∀ line ∈ lines', '\n' ∉ line)
    (hText : lines.flatMap (· ++ ['\n']) = lines'.flatMap (· ++ ['\n'])) : lines = lines' := by
  induction lines generalizing lines' with
  | nil =>
      cases lines' with
      | nil => rfl
      | cons line' lines' => simp at hText
  | cons line lines ih =>
      cases lines' with
      | nil => simp at hText
      | cons line' lines' =>
          obtain ⟨hLine, hLines⟩ := List.forall_mem_cons.mp h
          obtain ⟨hLine', hLines'⟩ := List.forall_mem_cons.mp h'
          simp only [List.flatMap_cons, List.append_assoc, List.cons_append, List.nil_append] at hText
          obtain ⟨rfl, hRest⟩ := run_unique (fun c hc => ne_of_mem_of_not_mem hc hLine)
            (fun c hc => ne_of_mem_of_not_mem hc hLine') (stops_cons (by simp) _) (stops_cons (by simp) _) hText
          rw [ih hLines hLines' (List.cons.inj hRest).2]

theorem indented_injective : Function.Injective indented :=
  List.map_injective_iff.mpr fun _ _ h => (List.cons.inj (List.cons.inj h).2).2

/-- Lines moved to the right are told from what is not. -/
theorem indented_unique (hRest : Stops (·.head? = some ' ') rest) (hRest' : Stops (·.head? = some ' ') rest')
    (h : indented lines ++ rest = indented lines' ++ rest') : lines = lines' ∧ rest = rest' := by
  have hSpace : ∀ lines, ∀ line ∈ indented lines, line.head? = some ' ' := by
    intro lines line hLine
    obtain ⟨line, -, rfl⟩ := List.mem_map.mp hLine
    rfl
  obtain ⟨hLines, hRests⟩ := run_unique (hSpace lines) (hSpace lines') hRest hRest' h
  exact ⟨indented_injective hLines, hRests⟩

/-- An item ends where the next one begins. -/
theorem dashed_unique (hLines : lines ≠ []) (hLines' : lines' ≠ []) (hRest : Stops (·.head? = some ' ') rest)
    (hRest' : Stops (·.head? = some ' ') rest') (h : dashed lines ++ rest = dashed lines' ++ rest') :
    lines = lines' ∧ rest = rest' := by
  obtain ⟨line, lines, rfl⟩ := List.exists_cons_of_ne_nil hLines
  obtain ⟨line', lines', rfl⟩ := List.exists_cons_of_ne_nil hLines'
  simp only [dashed, List.cons_append, List.cons.injEq, true_and] at h
  obtain ⟨rfl, hBelow⟩ := h
  obtain ⟨rfl, hRests⟩ := indented_unique hRest hRest' hBelow
  exact ⟨rfl, hRests⟩

theorem isInner_of_mem_dashed {line : List Char} (h : line ∈ dashed lines) : IsInner line := by
  cases lines with
  | nil => cases h
  | cons first lines =>
      obtain rfl | hBelow := List.mem_cons.mp h
      · exact .inr ⟨first, rfl⟩
      · obtain ⟨below, -, rfl⟩ := List.mem_map.mp hBelow
        exact .inl rfl

end Lines

section Blocks
variable {d d' : Document} {k k' : String} {value : List Char}

theorem yamlLines_list (d : Document) (ds : List Document) : yamlLines (.list (d :: ds)) = yamlItems (d :: ds) := by
  rw [yamlLines, yamlItems]

theorem yamlLines_record (f : String × Document) (fs : List (String × Document)) :
    yamlLines (.record (f :: fs)) = yamlFields (f :: fs) := by
  rw [yamlLines, yamlFields]

/-- A document stands on one line, or it is a list of items or a record of fields. -/
theorem yamlLines_cases (d : Document) : (∃ value, yamlInline? d = some value ∧ yamlLines d = [value]) ∨
    (∃ x xs, d = .list (x :: xs)) ∨ ∃ f fs, d = .record (f :: fs) := by
  cases d with
  | list ds =>
      cases ds with
      | nil => exact .inl ⟨_, rfl, by simp [yamlLines, yamlInline?]⟩
      | cons x xs => exact .inr (.inl ⟨x, xs, rfl⟩)
  | record fs =>
      cases fs with
      | nil => exact .inl ⟨_, rfl, by simp [yamlLines, yamlInline?]⟩
      | cons f fs => exact .inr (.inr ⟨f, fs, rfl⟩)
  | bool b => cases b <;> exact .inl ⟨_, rfl, by simp [yamlLines, yamlInline?]⟩
  | _ => exact .inl ⟨_, rfl, by simp [yamlLines, yamlInline?]⟩

theorem yamlLines_inline (h : yamlInline? d = some value) : yamlLines d = [value] := by
  obtain ⟨value', hValue, hLines⟩ | ⟨x, xs, rfl⟩ | ⟨f, fs, rfl⟩ := yamlLines_cases d
  · rw [hLines, Option.some.inj (hValue.symm.trans h)]
  · cases h
  · cases h

theorem isInner_of_mem_yamlItems {ds : List Document} {line : List Char} (h : line ∈ yamlItems ds) :
    IsInner line := by
  induction ds with
  | nil => simp [yamlItems] at h
  | cons d ds ih =>
      rw [yamlItems, List.mem_append] at h
      exact h.elim isInner_of_mem_dashed ih

theorem yamlField_ne_nil (k : String) (d : Document) (lines : List (List Char)) : yamlField k d lines ≠ [] := by
  unfold yamlField
  split <;> simp

theorem yamlLines_ne_nil : ∀ d : Document, yamlLines d ≠ []
  | .list (x :: xs) => by
      obtain ⟨line, lines, hLines⟩ := List.exists_cons_of_ne_nil (yamlLines_ne_nil x)
      simp [yamlLines, hLines, dashed]
  | .record ((k, d) :: fs) => by simp [yamlLines, yamlField_ne_nil]
  | .null | .bool true | .bool false | .number _ | .text _ | .list [] | .record [] => by
      simp [yamlLines, yamlInline?]

theorem exists_yamlItems (x : Document) (xs : List Document) :
    ∃ line lines, yamlItems (x :: xs) = ('-' :: ' ' :: line) :: lines := by
  obtain ⟨line, lines, hLines⟩ := List.exists_cons_of_ne_nil (yamlLines_ne_nil x)
  exact ⟨line, _, by rw [yamlItems, hLines, dashed, List.cons_append]⟩

theorem yamlItems_ne_indented (x : Document) (xs : List Document) (lines : List (List Char)) :
    yamlItems (x :: xs) ≠ indented lines := by
  obtain ⟨line, below, hLines⟩ := exists_yamlItems x xs
  cases lines <;> simp [hLines, indented]

theorem stops_yamlItems (ds : List Document) : Stops (·.head? = some ' ') (yamlItems ds) := by
  cases ds with
  | nil =>
      rw [yamlItems]
      exact stops_nil _
  | cons x xs =>
      obtain ⟨line, lines, hLines⟩ := exists_yamlItems x xs
      rw [hLines]
      exact stops_cons (by simp) _

/-- What follows a key on its line. -/
def afterKey (d : Document) : List Char :=
  match yamlInline? d with
  | some value => ':' :: ' ' :: value
  | none => [':']

/-- The lines below a key that belong to its value. -/
def belowKey (d : Document) : List (List Char) :=
  match yamlInline? d with
  | some _ => []
  | none => if isRecord d then indented (yamlLines d) else yamlLines d

theorem afterKey_inline (h : yamlInline? d = some value) : afterKey d = ':' :: ' ' :: value := by
  rw [afterKey, h]

@[simp] theorem afterKey_list (x : Document) (xs : List Document) : afterKey (.list (x :: xs)) = [':'] := rfl
@[simp] theorem afterKey_record (f : String × Document) (fs : List (String × Document)) :
    afterKey (.record (f :: fs)) = [':'] := rfl

@[simp] theorem belowKey_list (x : Document) (xs : List Document) :
    belowKey (.list (x :: xs)) = yamlItems (x :: xs) :=
  yamlLines_list x xs

@[simp] theorem belowKey_record (f : String × Document) (fs : List (String × Document)) :
    belowKey (.record (f :: fs)) = indented (yamlFields (f :: fs)) :=
  congrArg indented (yamlLines_record f fs)

theorem yamlField_eq (k : String) (d : Document) :
    yamlField k d (yamlLines d) = (yamlText k ++ afterKey d) :: belowKey d := by
  unfold yamlField afterKey belowKey
  cases yamlInline? d <;> simp

theorem keyEnds_afterKey (d : Document) : KeyEnds (afterKey d) := by
  unfold afterKey
  cases yamlInline? d with
  | some value => exact .inr (.inr ⟨value, rfl⟩)
  | none => exact .inr (.inl rfl)

theorem exists_afterKey (d : Document) : ∃ rest, afterKey d = ':' :: rest := by
  unfold afterKey
  cases yamlInline? d <;> exact ⟨_, rfl⟩

theorem isInner_of_mem_belowKey {line : List Char} (h : line ∈ belowKey d) : IsInner line := by
  obtain ⟨value, hValue, -⟩ | ⟨x, xs, rfl⟩ | ⟨f, fs, rfl⟩ := yamlLines_cases d
  · simp [belowKey, hValue] at h
  · exact isInner_of_mem_yamlItems (belowKey_list x xs ▸ h)
  · rw [belowKey_record] at h
    obtain ⟨below, -, rfl⟩ := List.mem_map.mp h
    exact .inl rfl

/-- What stands behind and below a key tells the lines of the value. -/
theorem yamlLines_of_key (hAfter : afterKey d = afterKey d') (hBelow : belowKey d = belowKey d') :
    yamlLines d = yamlLines d' := by
  obtain ⟨value, hValue, hLines⟩ | ⟨x, xs, rfl⟩ | ⟨f, fs, rfl⟩ := yamlLines_cases d <;>
    obtain ⟨value', hValue', hLines'⟩ | ⟨y, ys, rfl⟩ | ⟨g, gs, rfl⟩ := yamlLines_cases d'
  case inl.inl =>
    rw [afterKey_inline hValue, afterKey_inline hValue'] at hAfter
    rw [hLines, hLines', (List.cons.inj (List.cons.inj hAfter).2).2]
  case inl.inr.inl | inl.inr.inr => simp [afterKey_inline hValue] at hAfter
  case inr.inl.inl | inr.inr.inl => simp [afterKey_inline hValue'] at hAfter
  case inr.inl.inr.inl => simpa [yamlLines_list] using hBelow
  case inr.inl.inr.inr => exact absurd (by simpa using hBelow) (yamlItems_ne_indented x xs _)
  case inr.inr.inr.inl => exact absurd (by simpa using hBelow.symm) (yamlItems_ne_indented y ys _)
  case inr.inr.inr.inr =>
    rw [belowKey_record, belowKey_record] at hBelow
    rw [yamlLines_record, yamlLines_record, indented_injective hBelow]

theorem stops_yamlFields (fs : List (String × Document)) : Stops IsInner (yamlFields fs) := by
  cases fs with
  | nil =>
      rw [yamlFields]
      exact stops_nil _
  | cons f fs =>
      rw [yamlFields, yamlField_eq]
      exact stops_cons (not_isInner_yamlText _ _) _

/-- A field ends where the next one begins. -/
theorem yamlField_unique {rest rest' : List (List Char)} (hRest : Stops IsInner rest)
    (hRest' : Stops IsInner rest')
    (h : yamlField k d (yamlLines d) ++ rest = yamlField k' d' (yamlLines d') ++ rest') :
    k = k' ∧ yamlLines d = yamlLines d' ∧ rest = rest' := by
  rw [yamlField_eq, yamlField_eq] at h
  obtain ⟨hKey, hLines⟩ := List.cons.inj h
  obtain ⟨rfl, hAfter⟩ := yamlText_unique (keyEnds_afterKey d) (keyEnds_afterKey d') hKey
  obtain ⟨hBelow, hRests⟩ :=
    run_unique (fun _ => isInner_of_mem_belowKey) (fun _ => isInner_of_mem_belowKey) hRest hRest' hLines
  exact ⟨rfl, yamlLines_of_key hAfter hBelow, hRests⟩

theorem exists_yamlFields (f : String × Document) (fs : List (String × Document)) :
    ∃ lines, yamlFields (f :: fs) = (yamlText f.1 ++ afterKey f.2) :: lines :=
  ⟨_, by rw [yamlFields, yamlField_eq, List.cons_append]⟩

/-- What stands on one line is told from lists and records. -/
theorem yamlLines_inline_unique (h : yamlInline? d = some value) (hLines : yamlLines d = yamlLines d') :
    d.spelled = d'.spelled := by
  rw [yamlLines_inline h] at hLines
  obtain ⟨value', hValue, hLines'⟩ | ⟨x, xs, rfl⟩ | ⟨f, fs, rfl⟩ := yamlLines_cases d'
  · rw [hLines', List.cons.injEq] at hLines
    exact yamlInline?_unique h (hLines.1 ▸ hValue)
  · obtain ⟨line, lines, hItems⟩ := exists_yamlItems x xs
    rw [yamlLines_list, hItems] at hLines
    exact absurd (.inr ⟨line, (List.cons.inj hLines).1⟩) (not_isInner_inline h)
  · obtain ⟨lines, hFields⟩ := exists_yamlFields f fs
    obtain ⟨rest, hColon⟩ := exists_afterKey f.2
    have hEnds := keyEnds_afterKey f.2
    rw [hColon] at hFields hEnds
    rw [yamlLines_record, hFields] at hLines
    exact absurd (List.cons.inj hLines).1 (inline_ne_key h f.1 hEnds)

/-- No list of items is taken for a record. -/
theorem yamlItems_ne_yamlFields (x : Document) (xs : List Document) (f : String × Document)
    (fs : List (String × Document)) : yamlItems (x :: xs) ≠ yamlFields (f :: fs) := by
  obtain ⟨line, lines, hItems⟩ := exists_yamlItems x xs
  obtain ⟨lines', hFields⟩ := exists_yamlFields f fs
  rw [hItems, hFields]
  intro hLines
  exact not_isInner_yamlText f.1 (afterKey f.2) (.inr ⟨line, (List.cons.inj hLines).1.symm⟩)

end Blocks

mutual

theorem yamlLines_unique : ∀ d d' : Document, yamlLines d = yamlLines d' → d.spelled = d'.spelled
  | .null, _, h | .bool true, _, h | .bool false, _, h | .list [], _, h | .record [], _, h =>
      yamlLines_inline_unique rfl h
  | .number _, _, h => yamlLines_inline_unique rfl h
  | .text _, _, h => yamlLines_inline_unique rfl h
  | .list (x :: xs), d', h => by
      obtain ⟨value, hValue, hLines⟩ | ⟨y, ys, rfl⟩ | ⟨f, fs, rfl⟩ := yamlLines_cases d'
      · exact (yamlLines_inline_unique hValue h.symm).symm
      · rw [yamlLines_list, yamlLines_list] at h
        rw [spelled, spelled, yamlItems_unique (x :: xs) (y :: ys) h]
      · rw [yamlLines_list, yamlLines_record] at h
        exact absurd h (yamlItems_ne_yamlFields x xs f fs)
  | .record (f :: fs), d', h => by
      obtain ⟨value, hValue, hLines⟩ | ⟨x, xs, rfl⟩ | ⟨g, gs, rfl⟩ := yamlLines_cases d'
      · exact (yamlLines_inline_unique hValue h.symm).symm
      · rw [yamlLines_list, yamlLines_record] at h
        exact absurd h.symm (yamlItems_ne_yamlFields x xs f fs)
      · rw [yamlLines_record, yamlLines_record] at h
        rw [spelled, spelled, yamlFields_unique (f :: fs) (g :: gs) h]

theorem yamlItems_unique : ∀ ds ds' : List Document, yamlItems ds = yamlItems ds' →
    spelledItems ds = spelledItems ds'
  | [], [], _ => rfl
  | [], y :: ys, h => by
      obtain ⟨line, lines, hLines⟩ := exists_yamlItems y ys
      rw [hLines, yamlItems] at h
      cases h
  | x :: xs, [], h => by
      obtain ⟨line, lines, hLines⟩ := exists_yamlItems x xs
      rw [hLines, yamlItems] at h
      cases h
  | x :: xs, y :: ys, h => by
      rw [yamlItems, yamlItems] at h
      obtain ⟨hItem, hItems⟩ := dashed_unique (yamlLines_ne_nil x) (yamlLines_ne_nil y) (stops_yamlItems xs)
        (stops_yamlItems ys) h
      rw [spelledItems, spelledItems, yamlLines_unique x y hItem, yamlItems_unique xs ys hItems]

theorem yamlFields_unique : ∀ fs fs' : List (String × Document), yamlFields fs = yamlFields fs' →
    spelledFields fs = spelledFields fs'
  | [], [], _ => rfl
  | [], g :: gs, h => by
      obtain ⟨lines, hLines⟩ := exists_yamlFields g gs
      rw [hLines, yamlFields] at h
      cases h
  | f :: fs, [], h => by
      obtain ⟨lines, hLines⟩ := exists_yamlFields f fs
      rw [hLines, yamlFields] at h
      cases h
  | (k, d) :: fs, (k', d') :: fs', h => by
      rw [yamlFields, yamlFields] at h
      obtain ⟨rfl, hValue, hFields⟩ := yamlField_unique (stops_yamlFields fs) (stops_yamlFields fs') h
      rw [spelledFields, spelledFields, yamlLines_unique d d' hValue, yamlFields_unique fs fs' hFields]

end

section Newlines

theorem newline_not_mem_indented {lines : List (List Char)} (h : ∀ line ∈ lines, '\n' ∉ line) :
    ∀ line ∈ indented lines, '\n' ∉ line := by
  intro line hLine
  obtain ⟨below, hBelow, rfl⟩ := List.mem_map.mp hLine
  simpa using h below hBelow

theorem newline_not_mem_dashed {lines : List (List Char)} (h : ∀ line ∈ lines, '\n' ∉ line) :
    ∀ line ∈ dashed lines, '\n' ∉ line := by
  cases lines with
  | nil => exact h
  | cons line lines =>
      obtain ⟨hFirst, hBelow⟩ := List.forall_mem_cons.mp h
      exact List.forall_mem_cons.mpr ⟨by simpa using hFirst, newline_not_mem_indented hBelow⟩

theorem newline_not_mem_yamlField {d : Document} (h : ∀ line ∈ yamlLines d, '\n' ∉ line) (k : String) :
    ∀ line ∈ yamlField k d (yamlLines d), '\n' ∉ line := by
  unfold yamlField
  cases hValue : yamlInline? d with
  | some value =>
      rw [List.forall_mem_singleton]
      simp [newline_not_mem_yamlText, newline_not_mem_inline hValue]
  | none =>
      refine List.forall_mem_cons.mpr ⟨by simp [newline_not_mem_yamlText], ?_⟩
      split
      · exact newline_not_mem_indented h
      · exact h

theorem newline_not_mem_line {d : Document} {value : List Char} (h : yamlInline? d = some value) :
    ∀ line ∈ yamlLines d, '\n' ∉ line := by
  rw [yamlLines_inline h, List.forall_mem_singleton]
  exact newline_not_mem_inline h

mutual

/-- Every line is one line of the text. -/
theorem newline_not_mem_yamlLines : ∀ d : Document, ∀ line ∈ yamlLines d, '\n' ∉ line
  | .null | .bool true | .bool false | .number _ | .text _ | .list [] | .record [] => newline_not_mem_line rfl
  | .list (x :: xs) => yamlLines_list x xs ▸ newline_not_mem_yamlItems (x :: xs)
  | .record (f :: fs) => yamlLines_record f fs ▸ newline_not_mem_yamlFields (f :: fs)

theorem newline_not_mem_yamlItems : ∀ ds : List Document, ∀ line ∈ yamlItems ds, '\n' ∉ line
  | [] => by simp [yamlItems]
  | x :: xs => by
      rw [yamlItems, List.forall_mem_append]
      exact ⟨newline_not_mem_dashed (newline_not_mem_yamlLines x), newline_not_mem_yamlItems xs⟩

theorem newline_not_mem_yamlFields : ∀ fs : List (String × Document), ∀ line ∈ yamlFields fs, '\n' ∉ line
  | [] => by simp [yamlFields]
  | (k, d) :: fs => by
      rw [yamlFields, List.forall_mem_append]
      exact ⟨newline_not_mem_yamlField (newline_not_mem_yamlLines d) k, newline_not_mem_yamlFields fs⟩

end

end Newlines

/-- Documents of one YAML text say the same. -/
theorem spelled_of_yaml {d d' : Document} (h : yaml d = yaml d') : d.spelled = d'.spelled :=
  yamlLines_unique d d' (lines_unique (newline_not_mem_yamlLines d) (newline_not_mem_yamlLines d')
    (String.ofList_injective h))

end UnitGraph.Document
