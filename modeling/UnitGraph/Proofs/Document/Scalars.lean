import UnitGraph.Proofs.Document.Json
import UnitGraph.Proofs.Document.Legible

/-!
# YAML scalars can be read back

A scalar stands on a line alone, or before a colon as the key of a field. Main statement: whatever form a text
takes, the line tells where the text ends and which text it is, and no text is taken for anything else that
fits on a line.
-/
namespace UnitGraph.Document

open Text

section Quoted

/-- The letters that announce a code point, with the number of digits after them. -/
def pointWidths : List (Char × Nat) := [('x', 2), ('u', 4), ('U', 8)]

theorem yamlCodePoint_cases (c : Char) : ∃ p ∈ pointWidths, c.toNat < Nat.pow 16 p.2 ∧
    yamlCodePoint c = p.1 :: (hexDigits p.2 c.toNat).map Char.toUpper := by
  by_cases hByte : c.toNat ≤ 0xff
  · exact ⟨('x', 2), by decide, Nat.lt_succ_of_le hByte, by simp [yamlCodePoint, hByte]⟩
  · by_cases hUnit : c.toNat ≤ 0xffff
    · exact ⟨('u', 4), by decide, Nat.lt_succ_of_le hUnit, by simp [yamlCodePoint, hByte, hUnit]⟩
    · exact ⟨('U', 8), by decide, c.val.toNat_lt, by simp [yamlCodePoint, hByte, hUnit]⟩

theorem yamlEscapes : Escapes yamlShortEscapes (needsEscape · = true) yamlCodePoint where
  letters_nodup := by decide
  quote := ⟨'"', rfl⟩
  backslash := ⟨'\\', rfl⟩
  point_ne_letter := by
    intro c rest e he rest' h
    have hApart : ∀ p ∈ pointWidths, p.1 ∉ yamlShortEscapes.map (·.2) := by decide
    obtain ⟨p, hp, -, hPoint⟩ := yamlCodePoint_cases c
    rw [hPoint] at h
    exact hApart p hp ((List.cons.inj h).1 ▸ he)
  point_unique := by
    intro c d rest rest' _ _ h
    have hWidths : ∀ p ∈ pointWidths, ∀ q ∈ pointWidths, p.1 = q.1 → p = q := by decide
    obtain ⟨p, hp, hc, hPoint⟩ := yamlCodePoint_cases c
    obtain ⟨q, hq, hd, hPoint'⟩ := yamlCodePoint_cases d
    rw [hPoint, hPoint'] at h
    obtain ⟨hLetter, hDigits⟩ := List.cons.inj h
    cases hWidths p hp q hq hLetter
    obtain ⟨hNat, hRest⟩ := hexDigits_unique (by decide) hc hd hDigits
    exact ⟨Char.toNat_inj.mp hNat, hRest⟩

theorem yamlChar_eq : yamlChar = escape yamlShortEscapes (needsEscape · = true) yamlCodePoint := rfl

theorem doubleQuoted_unique {cs ds rest rest' : List Char}
    (h : doubleQuoted cs ++ rest = doubleQuoted ds ++ rest') : cs = ds ∧ rest = rest' := by
  have hText : cs.flatMap yamlChar ++ '"' :: rest = ds.flatMap yamlChar ++ '"' :: rest' := by
    simpa [doubleQuoted] using h
  rw [yamlChar_eq] at hText
  exact yamlEscapes.prefixCode.text_unique trivial trivial hText

theorem singleQuotes :
    PrefixCode (fun c => if c = '\'' then ['\'', '\''] else [c]) '\'' fun rest => rest.head? ≠ some '\'' where
  code_unique := by
    intro c d rest rest' h
    by_cases hc : c = '\'' <;> by_cases hd : d = '\'' <;> grind
  code_ne_mark := by
    intro c rest rest' hRest h
    by_cases hc : c = '\''
    · simp only [hc, if_true, List.cons_append, List.nil_append, List.cons.injEq, true_and] at h
      exact hRest (by simp [← h])
    · simp [hc] at h

theorem singleQuoted_unique {cs ds rest rest' : List Char} (hRest : rest.head? ≠ some '\'')
    (hRest' : rest'.head? ≠ some '\'') (h : singleQuoted cs ++ rest = singleQuoted ds ++ rest') :
    cs = ds ∧ rest = rest' := by
  refine singleQuotes.text_unique hRest hRest' ?_
  simpa [singleQuoted] using h

end Quoted

section Plain
variable {s s' : String} {cs ds rest rest' : List Char}

/-- A text that stands for itself. -/
structure IsPlain (s : String) : Prop where
  ne_nil : s.toList ≠ []
  notReserved : s ∉ reservedWords
  notNumber : readsAsNumber s.toList = false
  noIndicator : hasIndicator s.toList = false
  noSeparator : hasSeparator s.toList = false
  noSpace : s.toList.head? ≠ some ' '

theorem isPlain_of_needsQuotes (h : needsQuotes s = false) : IsPlain s := by
  simp only [needsQuotes, Bool.or_eq_false_iff, decide_eq_false_iff_not, List.isEmpty_eq_false_iff] at h
  obtain ⟨⟨⟨⟨⟨⟨⟨⟨hNil, hReserved⟩, hNumber⟩, -⟩, -⟩, hIndicator⟩, hSeparator⟩, hSpace⟩, -⟩ := h
  exact ⟨hNil, hReserved, hNumber, hIndicator, hSeparator, hSpace⟩

theorem yamlText_cases (s : String) : yamlText s = doubleQuoted s.toList ∨ yamlText s = singleQuoted s.toList ∨
    (IsPlain s ∧ yamlText s = s.toList) := by
  unfold yamlText
  split
  · exact .inl rfl
  · split
    · exact .inr (.inl rfl)
    · next hPlain => exact .inr (.inr ⟨isPlain_of_needsQuotes (by simpa using hPlain), rfl⟩)

theorem IsPlain.head (h : IsPlain s) : ∃ c cs, s.toList = c :: cs ∧ c ∉ indicators ∧ c ≠ ' ' ∧
    (c ∈ spacedIndicators → cs ≠ [] ∧ cs.head? ≠ some ' ') := by
  obtain ⟨c, cs, hChars⟩ := List.exists_cons_of_ne_nil h.ne_nil
  have hIndicator := h.noIndicator
  have hSpace := h.noSpace
  rw [hChars] at hIndicator hSpace
  simp only [hasIndicator, Bool.or_eq_false_iff, Bool.and_eq_false_imp, decide_eq_true_eq,
    decide_eq_false_iff_not, List.isEmpty_eq_false_iff] at hIndicator
  exact ⟨c, cs, hChars, hIndicator.1, by simpa using hSpace, hIndicator.2⟩

theorem hasSeparator_append (cs : List Char) (h : hasSeparator ds = true) : hasSeparator (cs ++ ds) = true := by
  induction cs with
  | nil => exact h
  | cons c cs ih =>
      cases hRest : cs ++ ds with
      | nil => simp [(List.append_eq_nil_iff.mp hRest).2, hasSeparator] at h
      | cons d es => rw [List.cons_append, hRest, hasSeparator, ← hRest, ih, Bool.or_true]

/-- What may follow a text on its line: nothing, or a colon at the end or before a space. -/
def KeyEnds (rest : List Char) : Prop := rest = [] ∨ rest = [':'] ∨ ∃ value, rest = ':' :: ' ' :: value

/-- A plain text does not run on into what follows a shorter one. -/
theorem KeyEnds.nil_of_plain (h : KeyEnds (cs ++ rest)) (hPlain : hasSeparator (ds ++ cs) = false) : cs = [] := by
  cases cs with
  | nil => rfl
  | cons c cs =>
      -- the rest of the longer text would begin with the colon that follows the shorter one
      have hSeparator : hasSeparator (c :: cs) = true := by
        obtain hNil | hColon | ⟨value, hColon⟩ := h
        · cases hNil
        · obtain ⟨rfl, hRest⟩ := List.cons.inj hColon
          simp [(List.append_eq_nil_iff.mp hRest).1, hasSeparator]
        · obtain ⟨rfl, hRest⟩ := List.cons.inj hColon
          cases cs with
          | nil => rfl
          | cons d cs =>
              obtain ⟨rfl, -⟩ := List.cons.inj hRest
              rfl
      rw [hasSeparator_append ds hSeparator] at hPlain
      cases hPlain

theorem plain_unique (hcs : hasSeparator cs = false) (hds : hasSeparator ds = false) (hRest : KeyEnds rest)
    (hRest' : KeyEnds rest') (h : cs ++ rest = ds ++ rest') : cs = ds ∧ rest = rest' := by
  obtain ⟨es, rfl, rfl⟩ | ⟨es, rfl, rfl⟩ := List.append_eq_append_iff.mp h
  · have hNil := hRest.nil_of_plain hds
    simp [hNil]
  · have hNil := hRest'.nil_of_plain hcs
    simp [hNil]

theorem KeyEnds.not_quote (h : KeyEnds rest) : rest.head? ≠ some '\'' := by
  obtain rfl | rfl | ⟨value, rfl⟩ := h <;> simp

theorem IsPlain.append_ne_indicator (h : IsPlain s) {q : Char} (hq : q ∈ indicators) (rest rest' : List Char) :
    s.toList ++ rest ≠ q :: rest' := by
  obtain ⟨c, cs, hChars, hc, -⟩ := h.head
  rw [hChars]
  intro hText
  exact hc ((List.cons.inj hText).1 ▸ hq)

theorem IsPlain.ne_indicator (h : IsPlain s) {q : Char} (hq : q ∈ indicators) (rest : List Char) :
    s.toList ≠ q :: rest := by
  simpa using h.append_ne_indicator hq [] rest

theorem yamlText_unique (hRest : KeyEnds rest) (hRest' : KeyEnds rest')
    (h : yamlText s ++ rest = yamlText s' ++ rest') : s = s' ∧ rest = rest' := by
  suffices hChars : s.toList = s'.toList ∧ rest = rest' from ⟨String.toList_inj.mp hChars.1, hChars.2⟩
  obtain hs | hs | ⟨hPlain, hs⟩ := yamlText_cases s <;>
    obtain hs' | hs' | ⟨hPlain', hs'⟩ := yamlText_cases s' <;> rw [hs, hs'] at h
  case inl.inl => exact doubleQuoted_unique h
  case inr.inl.inr.inl => exact singleQuoted_unique hRest.not_quote hRest'.not_quote h
  case inr.inr.inr.inr => exact plain_unique hPlain.noSeparator hPlain'.noSeparator hRest hRest' h
  case inl.inr.inl | inr.inl.inl => simp [doubleQuoted, singleQuoted] at h
  case inl.inr.inr => exact absurd h.symm (hPlain'.append_ne_indicator (by decide) _ _)
  case inr.inl.inr.inr => exact absurd h.symm (hPlain'.append_ne_indicator (by decide) _ _)
  case inr.inr.inl => exact absurd h (hPlain.append_ne_indicator (by decide) _ _)
  case inr.inr.inr.inl => exact absurd h (hPlain.append_ne_indicator (by decide) _ _)

end Plain

section OneLine
variable {s : String} {d d' : Document} {value : List Char}

/-- What fits on a line and is no text; it is written as in JSON. -/
def isLiteral : Document → Bool
  | .null | .bool _ | .number _ | .list [] | .record [] => true
  | _ => false

theorem yamlInline?_cases (h : yamlInline? d = some value) :
    (∃ s, d = .text s ∧ value = yamlText s) ∨ (isLiteral d = true ∧ value = jsonAt 0 d) := by
  fun_cases yamlInline? d with
  | case5 s =>
      rw [yamlInline?] at h
      exact .inl ⟨s, rfl, (Option.some.inj h).symm⟩
  | case8 | case9 => cases h
  | _ =>
      rw [yamlInline?] at h
      exact .inr ⟨rfl, (Option.some.inj h).symm⟩

/-- Characters that a literal does not contain. -/
def marks : List Char := ['\n', ':', ' ', '-', '"', '\'']

theorem not_mem_of_isLiteral (h : isLiteral d = true) : ∀ c ∈ jsonAt 0 d, c ∉ marks := by
  fun_cases isLiteral d with
  | case1 | case4 | case5 => simp [jsonAt, marks]
  | case2 b => cases b <;> simp [jsonAt, marks]
  | case3 n =>
      intro c hc hMark
      have hMarks : ∀ c ∈ marks, c.isDigit = false := by simp [marks]
      exact absurd (isDigit_of_mem_toDigits hc) (by simp [hMarks c hMark])
  | case6 => simp [isLiteral] at h

/-- A text that could be taken for a literal stands between quotes, unless it is made of the digits of a number
too large to be read. -/
theorem number_of_yamlText (hd : isLiteral d = true) (h : yamlText s = jsonAt 0 d) :
    ∃ n, d = .number n ∧ IsPlain s ∧ s.toList = Nat.toDigits 10 n := by
  obtain hs | hs | ⟨hPlain, hs⟩ := yamlText_cases s <;> rw [hs] at h
  · exact absurd (by decide) (not_mem_of_isLiteral hd '"' (by simp [← h, doubleQuoted]))
  · exact absurd (by decide) (not_mem_of_isLiteral hd '\'' (by simp [← h, singleQuoted]))
  · have hText : s = String.ofList (jsonAt 0 d) := by simp [← h]
    fun_cases isLiteral d with
    | case1 => exact absurd (hText ▸ by decide) hPlain.notReserved
    | case2 b => cases b <;> exact absurd (hText ▸ by decide) hPlain.notReserved
    | case3 n => exact ⟨n, rfl, hPlain, h⟩
    | case4 | case5 => exact absurd h (hPlain.ne_indicator (by decide) _)
    | case6 => simp [isLiteral] at hd

/-- What stands on a line tells what it is. -/
theorem yamlInline?_unique (h : yamlInline? d = some value) (h' : yamlInline? d' = some value) :
    d.spelled = d'.spelled := by
  -- a literal and a text are taken for one another only as the digits of a number
  have hMixed : ∀ {d s}, isLiteral d = true → yamlText s = jsonAt 0 d → d.spelled = .text s := by
    intro d s hd hs
    obtain ⟨n, rfl, -, hDigits⟩ := number_of_yamlText hd hs
    rw [spelled, ← hDigits, String.ofList_toList]
  obtain ⟨s, rfl, hs⟩ | ⟨hd, hs⟩ := yamlInline?_cases h <;>
    obtain ⟨s', rfl, hs'⟩ | ⟨hd', hs'⟩ := yamlInline?_cases h' <;> rw [hs] at hs'
  · obtain ⟨rfl, -⟩ := yamlText_unique (.inl rfl) (.inl rfl) (congrArg (· ++ []) hs')
    rfl
  · rw [hMixed hd' hs', spelled]
  · rw [hMixed hd hs'.symm, spelled]
  · rw [json_injective (congrArg String.ofList hs')]

/-- A text on a line is taken for nothing else, be it a number that a reader knows. -/
theorem eq_text_of_yamlInline? (hNumber : ∀ n, d = .number n → n < Nat.pow 2 128)
    (h : yamlInline? d = some (yamlText s)) : d = .text s := by
  obtain ⟨s', rfl, hs⟩ | ⟨hd, hs⟩ := yamlInline?_cases h
  · obtain ⟨rfl, -⟩ := yamlText_unique (.inl rfl) (.inl rfl) (congrArg (· ++ []) hs)
    rfl
  · obtain ⟨n, rfl, hPlain, hDigits⟩ := number_of_yamlText hd hs
    have hReads := hPlain.notNumber
    rw [hDigits, readsAsNumber, isInteger_toDigits (hNumber n rfl)] at hReads
    cases hReads

example : ["12", "null", "a: b", "- a", "it's", "\n"].map yamlText =
    ["'12'", "'null'", "'a: b'", "'- a'", "it's", "\"\\n\""].map String.toList := by rfl

end OneLine

section Lines
variable {d : Document} {value : List Char}

/-- A line that belongs to the value of the field above it. -/
def IsInner (line : List Char) : Prop := line.head? = some ' ' ∨ ∃ rest, line = '-' :: ' ' :: rest

theorem not_isInner_yamlText (s : String) (rest : List Char) : ¬IsInner (yamlText s ++ rest) := by
  obtain hs | hs | ⟨hPlain, hs⟩ := yamlText_cases s <;> rw [hs]
  · simp [IsInner, doubleQuoted]
  · simp [IsInner, singleQuoted]
  · obtain ⟨c, cs, hChars, -, hSpace, hSpaced⟩ := hPlain.head
    rw [hChars]
    rintro (hInner | ⟨rest', hInner⟩)
    · exact hSpace (by simpa using hInner)
    · obtain ⟨rfl, hNext⟩ := List.cons.inj hInner
      obtain ⟨hNil, hHead⟩ := hSpaced (by decide)
      obtain ⟨d, ds, rfl⟩ := List.exists_cons_of_ne_nil hNil
      exact hHead (congrArg List.head? hNext)

theorem not_isInner_inline (h : yamlInline? d = some value) : ¬IsInner value := by
  obtain ⟨s, rfl, rfl⟩ | ⟨hd, rfl⟩ := yamlInline?_cases h
  · simpa using not_isInner_yamlText s []
  · have hMarks := not_mem_of_isLiteral hd
    rintro (hInner | ⟨rest, hInner⟩)
    · exact hMarks ' ' (List.mem_of_head? hInner) (by decide)
    · exact hMarks '-' (hInner ▸ List.mem_cons_self) (by decide)

/-- What stands alone on a line is no key. -/
theorem inline_ne_key (h : yamlInline? d = some value) (k : String) {rest : List Char}
    (hRest : KeyEnds (':' :: rest)) : value ≠ yamlText k ++ ':' :: rest := by
  intro hKey
  obtain ⟨s, rfl, rfl⟩ | ⟨hd, rfl⟩ := yamlInline?_cases h
  · obtain ⟨-, hNil⟩ := yamlText_unique (.inl rfl) hRest ((List.append_nil _).trans hKey)
    cases hNil
  · exact not_mem_of_isLiteral hd ':' (by simp [hKey]) (by decide)

theorem newline_not_mem_yamlCodePoint (c : Char) : '\n' ∉ yamlCodePoint c := by
  have hWidths : ∀ p ∈ pointWidths, '\n' ≠ p.1 := by decide
  have hDigits : ∀ i < 16, '\n' ≠ (Nat.digitChar i).toUpper := by decide
  obtain ⟨p, hp, -, hPoint⟩ := yamlCodePoint_cases c
  rw [hPoint, List.mem_cons, List.mem_map]
  rintro (hLetter | ⟨digit, hDigit, hNewline⟩)
  · exact hWidths p hp hLetter
  · obtain ⟨i, hi, rfl⟩ := exists_digitChar_of_mem_hexDigits hDigit
    exact hDigits i hi hNewline.symm

theorem newline_not_mem_yamlChar (c : Char) : '\n' ∉ yamlChar c := by
  rw [yamlChar_eq]
  exact yamlEscapes.not_mem (by decide) (by decide) (by decide) newline_not_mem_yamlCodePoint c

theorem newline_not_mem_yamlText (s : String) : '\n' ∉ yamlText s := by
  unfold yamlText
  split
  · simp [doubleQuoted, newline_not_mem_yamlChar]
  · next hEscape =>
      have hText : '\n' ∉ s.toList := fun hMem => hEscape (List.any_eq_true.mpr ⟨_, hMem, by decide⟩)
      split
      · have hCode : ∀ c ∈ s.toList, '\n' ∉ if c = '\'' then ['\'', '\''] else [c] := by
          intro c hc
          split
          · decide
          · exact fun hMem => hText (List.mem_singleton.mp hMem ▸ hc)
        simpa [singleQuoted] using hCode
      · exact hText

theorem newline_not_mem_inline (h : yamlInline? d = some value) : '\n' ∉ value := by
  obtain ⟨s, rfl, rfl⟩ | ⟨hd, rfl⟩ := yamlInline?_cases h
  · exact newline_not_mem_yamlText s
  · exact fun hMem => not_mem_of_isLiteral hd _ hMem (by decide)

end Lines

end UnitGraph.Document
