import UnitGraph.Document.Json
import UnitGraph.Proofs.Text.Digits

/-!
# JSON can be read back

The first character of a value tells what kind of value it is, and where a value ends follows from what it is
and, for a number, from what comes next. Main statement: different documents have different JSON texts.
-/
namespace UnitGraph.Document

open Text

theorem jsonEscapes :
    Escapes jsonShortEscapes (fun c => c.toNat < 32) fun c => 'u' :: hexDigits 4 c.toNat where
  letters_nodup := by decide
  quote := ⟨'"', rfl⟩
  backslash := ⟨'\\', rfl⟩
  point_ne_letter := by
    intro c rest e he rest' h
    rw [← (List.cons.inj h).1] at he
    exact absurd he (by decide)
  point_unique := by
    intro c d rest rest' hc hd h
    have hDigits : (hexDigits 4 c.toNat).map id ++ rest = (hexDigits 4 d.toNat).map id ++ rest' := by
      simpa using h
    have hWidth : 32 ≤ Nat.pow 16 4 := by decide
    obtain ⟨hSame, hRest⟩ :=
      hexDigits_unique (by decide) (Nat.lt_of_lt_of_le hc hWidth) (Nat.lt_of_lt_of_le hd hWidth) hDigits
    exact ⟨Char.toNat_inj.mp hSame, hRest⟩

theorem jsonChar_eq : jsonChar =
    escape jsonShortEscapes (fun c => c.toNat < 32) fun c => 'u' :: hexDigits 4 c.toNat := rfl

section Values
variable {rest rest' : List Char}

theorem jsonString_unique {s s' : String} (h : jsonString s ++ rest = jsonString s' ++ rest') :
    s = s' ∧ rest = rest' := by
  have hText : s.toList.flatMap jsonChar ++ '"' :: rest = s'.toList.flatMap jsonChar ++ '"' :: rest' := by
    simpa [jsonString] using h
  rw [jsonChar_eq] at hText
  obtain ⟨hChars, hRest⟩ := jsonEscapes.prefixCode.text_unique trivial trivial hText
  exact ⟨String.toList_inj.mp hChars, hRest⟩

/-- What may follow a value. -/
def JsonEnds (rest : List Char) : Prop := ∀ c ∈ rest.head?, c = ',' ∨ c = '\n'

theorem JsonEnds.stops (h : JsonEnds rest) : Stops (·.isDigit = true) rest := by
  intro c hc
  obtain rfl | rfl := h c hc <;> decide

/-- The first character of a value, with one digit for all digits and one letter for both truth values. -/
def jsonOpening : Document → Char
  | .null => 'n'
  | .bool _ => 'f'
  | .number _ => '0'
  | .text _ => '"'
  | .list _ => '['
  | .record _ => '\x7b'

theorem head_jsonAt (level : Nat) (d : Document) (rest : List Char) :
    (jsonAt level d ++ rest).head?.map (fun c => if c.isDigit then '0' else if c = 't' then 'f' else c) =
      some (jsonOpening d) := by
  cases d with
  | null => rfl
  | bool b => cases b <;> rfl
  | number n =>
      obtain ⟨c, cs, hDigits, hc⟩ := exists_toDigits n
      simp [jsonAt, jsonOpening, hDigits, hc]
  | text s => rfl
  | list ds => cases ds <;> rfl
  | record fs => cases fs <;> rfl

theorem jsonOpening_eq {level : Nat} {d d' : Document} (h : jsonAt level d ++ rest = jsonAt level d' ++ rest') :
    jsonOpening d = jsonOpening d' :=
  Option.some.inj ((head_jsonAt level d rest).symm.trans (h ▸ head_jsonAt level d' rest'))

theorem jsonEnds_items (level : Nat) (ds : List Document) (rest : List Char) :
    JsonEnds (jsonItems level ds ++ '\n' :: rest) := by
  cases ds <;> simp [JsonEnds, jsonItems]

theorem jsonEnds_fields (level : Nat) (fs : List (String × Document)) (rest : List Char) :
    JsonEnds (jsonFields level fs ++ '\n' :: rest) := by
  cases fs <;> simp [JsonEnds, jsonFields]

end Values

mutual

/-- A value is told from what follows it. -/
theorem jsonAt_unique (level : Nat) : ∀ (d d' : Document) {rest rest' : List Char}, JsonEnds rest →
    JsonEnds rest' → jsonAt level d ++ rest = jsonAt level d' ++ rest' → d = d' ∧ rest = rest'
  | .null, d', _, _, _, _, h => by
      cases d' with
      | null => exact ⟨rfl, List.append_cancel_left h⟩
      | _ => cases jsonOpening_eq h
  | .bool b, d', _, _, _, _, h => by
      cases d' with
      | bool b' =>
          match b, b' with
          | true, true | false, false => exact ⟨rfl, List.append_cancel_left h⟩
          | true, false | false, true => simp [jsonAt] at h
      | _ => cases jsonOpening_eq h
  | .number n, d', _, _, hRest, hRest', h => by
      cases d' with
      | number n' =>
          obtain ⟨rfl, hRests⟩ := toDigits_unique hRest.stops hRest'.stops h
          exact ⟨rfl, hRests⟩
      | _ => cases jsonOpening_eq h
  | .text s, d', _, _, _, _, h => by
      cases d' with
      | text s' =>
          obtain ⟨rfl, hRests⟩ := jsonString_unique h
          exact ⟨rfl, hRests⟩
      | _ => cases jsonOpening_eq h
  | .list ds, d', _, _, _, _, h => by
      cases d' with
      | list ds' =>
          match ds, ds' with
          | [], [] => exact ⟨rfl, List.append_cancel_left h⟩
          | [], _ :: _ | _ :: _, [] => simp [jsonAt, jsonBreak] at h
          | d :: ds, d' :: ds' =>
              simp only [jsonAt, List.cons_append, List.append_assoc, List.cons.injEq, true_and] at h
              obtain ⟨rfl, hItems⟩ := jsonAt_unique (level + 1) d d' (jsonEnds_items _ _ _) (jsonEnds_items _ _ _)
                (List.append_cancel_left h)
              obtain ⟨rfl, hEnd⟩ := jsonItems_unique (level + 1) ds ds' hItems
              exact ⟨rfl, by simpa using hEnd⟩
      | _ => cases jsonOpening_eq h
  | .record fs, d', _, _, _, _, h => by
      cases d' with
      | record fs' =>
          match fs, fs' with
          | [], [] => exact ⟨rfl, List.append_cancel_left h⟩
          | [], _ :: _ | _ :: _, [] => simp [jsonAt, jsonBreak] at h
          | (k, d) :: fs, (k', d') :: fs' =>
              simp only [jsonAt, List.cons_append, List.append_assoc, List.cons.injEq, true_and] at h
              obtain ⟨rfl, hValue⟩ := jsonString_unique (List.append_cancel_left h)
              obtain ⟨rfl, hFields⟩ := jsonAt_unique (level + 1) d d' (jsonEnds_fields _ _ _)
                (jsonEnds_fields _ _ _) (List.append_cancel_left hValue)
              obtain ⟨rfl, hEnd⟩ := jsonFields_unique (level + 1) fs fs' hFields
              exact ⟨rfl, by simpa using hEnd⟩
      | _ => cases jsonOpening_eq h

theorem jsonItems_unique (level : Nat) : ∀ (ds ds' : List Document) {rest rest' : List Char},
    jsonItems level ds ++ '\n' :: rest = jsonItems level ds' ++ '\n' :: rest' → ds = ds' ∧ rest = rest'
  | [], [], _, _, h => ⟨rfl, (List.cons.inj h).2⟩
  | [], _ :: _, _, _, h | _ :: _, [], _, _, h => by simp [jsonItems] at h
  | d :: ds, d' :: ds', _, _, h => by
      simp only [jsonItems, List.cons_append, List.append_assoc, List.cons.injEq, true_and] at h
      obtain ⟨rfl, hItems⟩ := jsonAt_unique level d d' (jsonEnds_items _ _ _) (jsonEnds_items _ _ _)
        (List.append_cancel_left h)
      obtain ⟨rfl, hRest⟩ := jsonItems_unique level ds ds' hItems
      exact ⟨rfl, hRest⟩

theorem jsonFields_unique (level : Nat) : ∀ (fs fs' : List (String × Document)) {rest rest' : List Char},
    jsonFields level fs ++ '\n' :: rest = jsonFields level fs' ++ '\n' :: rest' → fs = fs' ∧ rest = rest'
  | [], [], _, _, h => ⟨rfl, (List.cons.inj h).2⟩
  | [], _ :: _, _, _, h | _ :: _, [], _, _, h => by simp [jsonFields] at h
  | (k, d) :: fs, (k', d') :: fs', _, _, h => by
      simp only [jsonFields, List.cons_append, List.append_assoc, List.cons.injEq, true_and] at h
      obtain ⟨rfl, hValue⟩ := jsonString_unique (List.append_cancel_left h)
      obtain ⟨rfl, hFields⟩ := jsonAt_unique level d d' (jsonEnds_fields _ _ _) (jsonEnds_fields _ _ _)
        (List.append_cancel_left hValue)
      obtain ⟨rfl, hRest⟩ := jsonFields_unique level fs fs' hFields
      exact ⟨rfl, hRest⟩

end

theorem json_injective : Function.Injective json := by
  intro d d' h
  have hText : jsonAt 0 d ++ [] = jsonAt 0 d' ++ [] := by
    simpa using String.ofList_injective h
  exact (jsonAt_unique 0 d d' (by simp [JsonEnds]) (by simp [JsonEnds]) hText).1

end UnitGraph.Document
