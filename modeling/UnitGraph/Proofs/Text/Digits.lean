import UnitGraph.Proofs.Text.Codes
import UnitGraph.Text.Hexadecimal
import UnitGraph.Text.Number

/-!
# Numbers by their digits

Decimal digits tell a number, and end where no digit follows; hexadecimal digits tell it if their width is
fixed. Main statement: the decimal digits of a number that fits into 128 bits read as a number.
-/
namespace UnitGraph.Text

section Digits
variable {m n : Nat} {rest rest' : List Char}

theorem isDigit_of_mem_toDigits {c : Char} (h : c ∈ Nat.toDigits 10 n) : c.isDigit = true :=
  Nat.isDigit_of_mem_toDigits (by decide) (by decide) h

theorem toDigits_injective : Function.Injective (Nat.toDigits 10) := by
  intro m n h
  have hValue := congrArg (Nat.ofDigitChars 10 · 0) h
  simpa using hValue

/-- A number ends where no digit follows. -/
theorem toDigits_unique (hRest : Stops (·.isDigit = true) rest) (hRest' : Stops (·.isDigit = true) rest')
    (h : Nat.toDigits 10 m ++ rest = Nat.toDigits 10 n ++ rest') : m = n ∧ rest = rest' := by
  obtain ⟨hSame, hRests⟩ :=
    run_unique (fun _ => isDigit_of_mem_toDigits) (fun _ => isDigit_of_mem_toDigits) hRest hRest' h
  exact ⟨toDigits_injective hSame, hRests⟩

theorem exists_toDigits (n : Nat) : ∃ c cs, Nat.toDigits 10 n = c :: cs ∧ c.isDigit = true := by
  obtain ⟨c, cs, hDigits⟩ := List.exists_cons_of_ne_nil (Nat.toDigits_ne_nil (n := n) (b := 10))
  exact ⟨c, cs, hDigits, isDigit_of_mem_toDigits (hDigits ▸ List.mem_cons_self)⟩

theorem exists_digitChar_of_mem_hexDigits {width : Nat} {c : Char} (h : c ∈ hexDigits width n) :
    ∃ i < 16, c = Nat.digitChar i := by
  induction width generalizing n with
  | zero => cases h
  | succ width ih =>
      rw [hexDigits, List.mem_append, List.mem_singleton] at h
      obtain hInit | hLast := h
      · exact ih hInit
      · exact ⟨n % 16, Nat.mod_lt _ (by decide), hLast⟩

/-- Digits of a fixed width, rewritten one by one, tell numbers of that width apart. -/
theorem hexDigits_unique {f : Char → Char}
    (hf : ∀ i < 16, ∀ j < 16, f (Nat.digitChar i) = f (Nat.digitChar j) → i = j) {width : Nat}
    (hm : m < Nat.pow 16 width) (hn : n < Nat.pow 16 width)
    (h : (hexDigits width m).map f ++ rest = (hexDigits width n).map f ++ rest') : m = n ∧ rest = rest' := by
  obtain ⟨hDigits, hRest⟩ := List.append_inj h (by simp [length_hexDigits])
  refine ⟨?_, hRest⟩
  clear h hRest
  induction width generalizing m n with
  | zero =>
      change m < 1 at hm
      change n < 1 at hn
      omega
  | succ width ih =>
      change m < Nat.pow 16 width * 16 at hm
      change n < Nat.pow 16 width * 16 at hn
      rw [hexDigits, hexDigits, List.map_append, List.map_append] at hDigits
      obtain ⟨hInit, hLast⟩ := List.append_inj hDigits (by simp [length_hexDigits])
      have hDiv : m / 16 = n / 16 := ih (by omega) (by omega) hInit
      have hMod : m % 16 = n % 16 :=
        hf _ (Nat.mod_lt _ (by decide)) _ (Nat.mod_lt _ (by decide)) (by simpa using hLast)
      omega

end Digits

section Values
variable {c : Char} {cs : List Char}

theorem digitValue?_of_isDigit (h : c.isDigit = true) : digitValue? 10 c = some (c.toNat - '0'.toNat) := by
  have hRange : '0' ≤ c ∧ c ≤ '9' := by simpa [Char.isDigit, Char.le_def] using h
  have hNine : c.toNat ≤ '9'.toNat := hRange.2
  have hLess : c.toNat - '0'.toNat < 10 := by
    change c.toNat ≤ 57 at hNine
    change c.toNat - 48 < 10
    omega
  simp only [digitValue?, hRange, and_self, if_true, Option.filter_some, hLess, decide_true]

theorem foldlM_digits (h : ∀ c ∈ cs, c.isDigit = true) (acc : Nat) :
    cs.foldlM (fun acc c => (digitValue? 10 c).map (acc * 10 + ·)) acc = some (Nat.ofDigitChars 10 cs acc) := by
  induction cs generalizing acc with
  | nil => rfl
  | cons c cs ih =>
      rw [List.foldlM_cons, digitValue?_of_isDigit (h c List.mem_cons_self), Nat.ofDigitChars_cons,
        Nat.mul_comm 10]
      exact ih (fun d hd => h d (List.mem_cons_of_mem _ hd)) _

/-- Digits alone announce no other base. -/
theorem unsignedValue?_of_digits (h : ∀ c ∈ cs, c.isDigit = true) : unsignedValue? cs = digitsValue? 10 cs := by
  fun_cases unsignedValue? cs with
  | case1 | case2 | case3 => simp at h
  | case4 => rfl

theorem splitSign_of_digit (h : c.isDigit = true) : splitSign (c :: cs) = (false, c :: cs) := by
  have hMinus : c ≠ '-' := by
    rintro rfl
    cases h
  have hPlus : c ≠ '+' := by
    rintro rfl
    cases h
  simp [splitSign, hMinus, hPlus]

/-- The digits of a number that fits read as a number. -/
theorem isInteger_toDigits {n : Nat} (h : n < Nat.pow 2 128) : isInteger (Nat.toDigits 10 n) = true := by
  obtain ⟨c, cs, hDigits, hc⟩ := exists_toDigits n
  have hAll : ∀ c ∈ Nat.toDigits 10 n, c.isDigit = true := fun _ => isDigit_of_mem_toDigits
  have hFold := foldlM_digits hAll 0
  rw [Nat.ofDigitChars_ten_toDigits] at hFold
  rw [hDigits] at hAll hFold ⊢
  have hValue : digitsValue? 10 (c :: cs) = some n := hFold
  simp [isInteger, splitSign_of_digit hc, unsignedValue?_of_digits hAll, hValue, h]

end Values

end UnitGraph.Text
