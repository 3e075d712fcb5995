/-!
# Hexadecimal digits

Numbers as hexadecimal digits of a fixed width, as the escapes of characters hold them.
-/
namespace UnitGraph.Text

/-- The last digits of a number, as many as the width says, with letters in lower case. -/
def hexDigits : Nat → Nat → List Char
  | 0, _ => []
  | width + 1, n => hexDigits width (n / 16) ++ [Nat.digitChar (n % 16)]

theorem length_hexDigits (width n : Nat) : (hexDigits width n).length = width := by
  induction width generalizing n with
  | zero => rfl
  | succ width ih => rw [hexDigits, List.length_append, ih, List.length_singleton]

end UnitGraph.Text
