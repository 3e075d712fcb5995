import Mathlib.Data.List.Nodup

/-!
# Where a text ends

What is written one after another has to be told apart again. A run of characters of one kind ends where the
kind changes. Main statement: a text between quotes, in which every character is written in a code of its own,
ends at its closing quote, whatever characters it is made of.
-/
namespace UnitGraph.Text

section Runs
variable {α : Type} {p : α → Prop} {xs ys rest rest' : List α}

/-- Nothing follows, or first something without the property. -/
def Stops (p : α → Prop) (rest : List α) : Prop := ∀ x ∈ rest.head?, ¬p x

theorem stops_nil (p : α → Prop) : Stops p [] := by simp [Stops]

theorem stops_cons {x : α} (hx : ¬p x) (xs : List α) : Stops p (x :: xs) := by simpa [Stops] using hx

theorem run_unique (hxs : ∀ x ∈ xs, p x) (hys : ∀ y ∈ ys, p y) (hRest : Stops p rest)
    (hRest' : Stops p rest') (h : xs ++ rest = ys ++ rest') : xs = ys ∧ rest = rest' := by
  induction xs generalizing ys with
  | nil =>
      cases ys with
      | nil => exact ⟨rfl, h⟩
      | cons y ys =>
          rw [List.nil_append] at h
          exact absurd (hys y List.mem_cons_self) (hRest y (by simp [h]))
  | cons x xs ih =>
      cases ys with
      | nil =>
          rw [List.nil_append] at h
          exact absurd (hxs x List.mem_cons_self) (hRest' x (by simp [← h]))
      | cons y ys =>
          obtain ⟨rfl, hTail⟩ := List.cons.inj h
          obtain ⟨rfl, hSame⟩ := ih (fun z hz => hxs z (List.mem_cons_of_mem _ hz))
            (fun z hz => hys z (List.mem_cons_of_mem _ hz)) hTail
          exact ⟨rfl, hSame⟩

end Runs

section Quotes
variable {code : Char → List Char} {mark : Char} {Ends : List Char → Prop} {rest rest' : List Char}

/-- A code of characters for texts up to a mark: the character that comes first and what follows its code are
read back, and no code is taken for the mark where the text `Ends` with it. -/
structure PrefixCode (code : Char → List Char) (mark : Char) (Ends : List Char → Prop) : Prop where
  code_unique : ∀ {c d rest rest'}, code c ++ rest = code d ++ rest' → c = d ∧ rest = rest'
  code_ne_mark : ∀ c rest {rest'}, Ends rest' → code c ++ rest ≠ mark :: rest'

theorem PrefixCode.text_unique (h : PrefixCode code mark Ends) {cs ds : List Char} (hRest : Ends rest)
    (hRest' : Ends rest') (hText : cs.flatMap code ++ mark :: rest = ds.flatMap code ++ mark :: rest') :
    cs = ds ∧ rest = rest' := by
  induction cs generalizing ds with
  | nil =>
      cases ds with
      | nil => simpa using hText
      | cons d ds =>
          rw [List.flatMap_cons, List.append_assoc] at hText
          exact absurd hText.symm (h.code_ne_mark d _ hRest)
  | cons c cs ih =>
      cases ds with
      | nil =>
          rw [List.flatMap_cons, List.append_assoc] at hText
          exact absurd hText (h.code_ne_mark c _ hRest')
      | cons d ds =>
          rw [List.flatMap_cons, List.flatMap_cons, List.append_assoc, List.append_assoc] at hText
          obtain ⟨rfl, hTail⟩ := h.code_unique hText
          obtain ⟨rfl, hSame⟩ := ih hTail
          exact ⟨rfl, hSame⟩

end Quotes

section Escapes
variable {letters : List (Char × Char)} {special : Char → Prop} [DecidablePred special]
  {point : Char → List Char}

/-- A backslash and a letter for some characters, a backslash and the code point for others. -/
def escape (letters : List (Char × Char)) (special : Char → Prop) [DecidablePred special]
    (point : Char → List Char) (c : Char) : List Char :=
  match letters.lookup c with
  | some e => ['\\', e]
  | none => if special c then '\\' :: point c else [c]

/-- The letters differ, the quote and the backslash have one, and code points are told from letters and from
one another. -/
structure Escapes (letters : List (Char × Char)) (special : Char → Prop) (point : Char → List Char) : Prop where
  letters_nodup : (letters.map (·.2)).Nodup
  quote : ∃ e, letters.lookup '"' = some e
  backslash : ∃ e, letters.lookup '\\' = some e
  point_ne_letter : ∀ c rest, ∀ e ∈ letters.map (·.2), ∀ rest', point c ++ rest ≠ e :: rest'
  point_unique : ∀ {c d rest rest'}, special c → special d → point c ++ rest = point d ++ rest' →
    c = d ∧ rest = rest'

theorem mem_of_lookup {c e : Char} (h : letters.lookup c = some e) : (c, e) ∈ letters := by
  obtain ⟨before, after, rfl, -⟩ := List.lookup_eq_some_iff.mp h
  simp

/-- What a character is written as: after a backslash its letter or its code point, or itself. -/
theorem Escapes.code_cases (h : Escapes letters special point) (c : Char) :
    (∃ e, (c, e) ∈ letters ∧ escape letters special point c = ['\\', e]) ∨
      (special c ∧ escape letters special point c = '\\' :: point c) ∨
      (c ≠ '"' ∧ c ≠ '\\' ∧ ¬special c ∧ escape letters special point c = [c]) := by
  cases hLookup : letters.lookup c with
  | some e => exact .inl ⟨e, mem_of_lookup hLookup, by rw [escape, hLookup]⟩
  | none =>
      by_cases hc : special c
      · exact .inr (.inl ⟨hc, by rw [escape, hLookup]; simp [hc]⟩)
      · obtain ⟨e, hQuote⟩ := h.quote
        obtain ⟨e', hBackslash⟩ := h.backslash
        refine .inr (.inr ⟨?_, ?_, hc, by rw [escape, hLookup]; simp [hc]⟩)
        · rintro rfl
          cases hQuote.symm.trans hLookup
        · rintro rfl
          cases hBackslash.symm.trans hLookup

theorem Escapes.prefixCode (h : Escapes letters special point) :
    PrefixCode (escape letters special point) '"' fun _ => True where
  code_unique := by
    intro c d rest rest' hText
    obtain ⟨e, hc, hCode⟩ | ⟨hc, hCode⟩ | ⟨-, hc, -, hCode⟩ := h.code_cases c <;>
      obtain ⟨e', hd, hCode'⟩ | ⟨hd, hCode'⟩ | ⟨-, hd, -, hCode'⟩ := h.code_cases d <;>
      rw [hCode, hCode'] at hText
    case inl.inl =>
      obtain ⟨rfl, hRest⟩ := List.cons.inj (List.cons.inj hText).2
      exact ⟨congrArg (·.1) (List.inj_on_of_nodup_map h.letters_nodup hc hd rfl), hRest⟩
    case inl.inr.inl =>
      have hPoint := (List.cons.inj hText).2
      exact absurd hPoint.symm (h.point_ne_letter d rest' e (List.mem_map_of_mem hc) rest)
    case inr.inl.inl =>
      have hPoint := (List.cons.inj hText).2
      exact absurd hPoint (h.point_ne_letter c rest e' (List.mem_map_of_mem hd) rest')
    case inr.inl.inr.inl => exact h.point_unique hc hd (List.cons.inj hText).2
    case inr.inr.inr.inr => exact List.cons.inj hText
    case inl.inr.inr | inr.inl.inr.inr => exact absurd (List.cons.inj hText).1.symm hd
    case inr.inr.inl | inr.inr.inr.inl => exact absurd (List.cons.inj hText).1 hc
  code_ne_mark := by
    intro c rest rest' _ hText
    obtain ⟨e, -, hCode⟩ | ⟨-, hCode⟩ | ⟨hc, -, -, hCode⟩ := h.code_cases c <;> rw [hCode] at hText
    · simp at hText
    · simp at hText
    · simp [hc] at hText

/-- A character that has to be escaped occurs in no code. -/
theorem Escapes.not_mem (h : Escapes letters special point) {x : Char} (hx : special x) (hBackslash : x ≠ '\\')
    (hLetters : x ∉ letters.map (·.2)) (hPoint : ∀ c, x ∉ point c) (c : Char) :
    x ∉ escape letters special point c := by
  obtain ⟨e, he, hCode⟩ | ⟨-, hCode⟩ | ⟨-, -, hc, hCode⟩ := h.code_cases c <;> rw [hCode]
  · have hLetter : x ≠ e := fun hSame => hLetters (hSame ▸ List.mem_map_of_mem he)
    simp [hBackslash, hLetter]
  · simp [hBackslash, hPoint c]
  · have hOther : x ≠ c := fun hSame => hc (hSame ▸ hx)
    simp [hOther]

end Escapes

end UnitGraph.Text
