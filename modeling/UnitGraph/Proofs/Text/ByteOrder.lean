import Mathlib.Data.List.Basic
import Mathlib.Tactic.SplitIfs

/-!
# The order of UTF-8 texts

Main statement: texts are ordered by their UTF-8 bytes just as they are by their characters. Of two different
characters the lesser has the lesser byte at the first place where their codes differ, and there is such a place
within both codes.
-/
namespace UnitGraph.Text

/-- The bytes of a text in UTF-8. -/
def utf8Bytes (s : String) : List UInt8 := s.toUTF8.data.toList

theorem utf8Bytes_eq_flatMap (s : String) : utf8Bytes s = s.toList.flatMap String.utf8EncodeChar := by
  rw [utf8Bytes, String.toUTF8_eq_toByteArray, ← String.utf8Encode_toList, List.utf8Encode]
  simp

/-- Of two code points the lesser is less at the first group of six bits in which they differ. -/
theorem sixBitGroups_lt {v w : Nat} (hv : v < 0x110000) (hw : w < 0x110000) (h : v < w) :
    v / 262144 % 8 < w / 262144 % 8 ∨ v / 262144 % 8 = w / 262144 % 8 ∧
      (v / 4096 % 64 < w / 4096 % 64 ∨ v / 4096 % 64 = w / 4096 % 64 ∧
        (v / 64 % 64 < w / 64 % 64 ∨ v / 64 % 64 = w / 64 % 64 ∧ v % 64 < w % 64)) := by
  have hGroups : ∀ u, u < 0x110000 →
      u = 262144 * (u / 262144 % 8) + 4096 * (u / 4096 % 64) + 64 * (u / 64 % 64) + u % 64 := by
    intro u hu
    have h4096 : u / 4096 = u / 64 / 64 := by rw [Nat.div_div_eq_div_mul]
    have h262144 : u / 262144 = u / 64 / 64 / 64 := by rw [Nat.div_div_eq_div_mul, Nat.div_div_eq_div_mul]
    omega
  have hBounds : ∀ u : Nat, u / 4096 % 64 < 64 ∧ u / 64 % 64 < 64 ∧ u % 64 < 64 := by omega
  have hv := hGroups v hv
  have hw := hGroups w hw
  have hvBounds := hBounds v
  have hwBounds := hBounds w
  generalize v / 262144 % 8 = a, v / 4096 % 64 = b, v / 64 % 64 = c, v % 64 = d at *
  generalize w / 262144 % 8 = a', w / 4096 % 64 = b', w / 64 % 64 = c', w % 64 = d' at *
  omega

theorem utf8EncodeChar_lt {c d : Char} (h : c < d) (xs ys : List UInt8) :
    String.utf8EncodeChar c ++ xs < String.utf8EncodeChar d ++ ys := by
  have hLt : c.val.toNat < d.val.toNat := h
  have hValid : ∀ e : Char, e.val.toNat < 0x110000 := fun e => by rcases e.valid <;> grind
  have hc := hValid c
  have hd := hValid d
  have hGroups := sixBitGroups_lt hc hd hLt
  simp only [String.utf8EncodeChar]
  generalize c.val.toNat = v at *
  generalize d.val.toNat = w at *
  -- the first byte tells how many follow, so only codes of one length need a closer look
  split_ifs <;>
    simp (disch := omega) only [List.cons_append, List.nil_append, List.cons_lt_cons_iff, UInt8.lt_iff_toNat_lt,
      ← UInt8.toNat_inj, UInt8.toNat_ofNat', Nat.mod_eq_of_lt]
  all_goals omega

/-- Codes of texts are ordered as the texts are. -/
theorem flatMap_utf8EncodeChar_lt {cs ds : List Char} (h : cs < ds) :
    cs.flatMap String.utf8EncodeChar < ds.flatMap String.utf8EncodeChar := by
  induction cs generalizing ds with
  | nil =>
      cases ds with
      | nil => exact absurd h (List.lt_irrefl _)
      | cons d ds =>
          obtain ⟨b, bs, hCode⟩ := List.exists_cons_of_ne_nil (String.utf8EncodeChar_ne_nil (c := d))
          rw [List.flatMap_cons, hCode]
          exact List.nil_lt_cons _ _
  | cons c cs ih =>
      cases ds with
      | nil => exact absurd h (List.not_lt_nil _)
      | cons d ds =>
          rw [List.flatMap_cons, List.flatMap_cons]
          rcases List.cons_lt_cons_iff.mp h with hLt | ⟨rfl, hLt⟩
          · exact utf8EncodeChar_lt hLt _ _
          · exact List.append_left_lt (ih hLt)

theorem utf8Bytes_lt_iff {s t : String} : utf8Bytes s < utf8Bytes t ↔ s < t := by
  have hMono : ∀ {s t : String}, s < t → utf8Bytes s < utf8Bytes t := by
    intro s t h
    rw [utf8Bytes_eq_flatMap, utf8Bytes_eq_flatMap]
    exact flatMap_utf8EncodeChar_lt h
  refine ⟨fun h => ?_, hMono⟩
  by_contra hNot
  by_cases hBack : t < s
  · exact List.lt_irrefl _ (List.lt_trans h (hMono hBack))
  · rw [String.le_antisymm (String.not_lt.mp hBack) (String.not_lt.mp hNot)] at h
    exact List.lt_irrefl _ h

end UnitGraph.Text
