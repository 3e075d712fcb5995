/-!
# Substrings

Whether one text occurs inside another, decided at every position of the longer text.
-/
namespace UnitGraph.Text

/-- Some tail of the list begins with the pattern. -/
def occursInChars (pattern : List Char) : List Char → Bool
  | [] => pattern.isEmpty
  | c :: cs => pattern.isPrefixOf (c :: cs) || occursInChars pattern cs

/-- Whether `pattern` occurs in `text` as a contiguous substring. -/
def occursIn (pattern text : String) : Bool := occursInChars pattern.toList text.toList

theorem occursInChars_iff {pattern text : List Char} :
    occursInChars pattern text = true ↔ ∃ before after, text = before ++ pattern ++ after := by
  induction text with
  | nil =>
      simp only [occursInChars, List.isEmpty_iff]
      constructor
      · rintro rfl
        exact ⟨[], [], rfl⟩
      · rintro ⟨before, after, h⟩
        simp only [List.nil_eq, List.append_eq_nil_iff] at h
        exact h.1.2
  | cons c cs ih =>
      simp only [occursInChars, Bool.or_eq_true, List.isPrefixOf_iff_prefix, ih]
      constructor
      · rintro (⟨after, h⟩ | ⟨before, after, h⟩)
        · exact ⟨[], after, by simpa using h.symm⟩
        · exact ⟨c :: before, after, by simp [h]⟩
      · rintro ⟨before, after, h⟩
        cases before with
        | nil => exact Or.inl ⟨after, by simpa using h.symm⟩
        | cons b bs =>
            simp only [List.cons_append, List.cons.injEq] at h
            exact Or.inr ⟨bs, after, h.2⟩

end UnitGraph.Text
