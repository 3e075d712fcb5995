/-!
# Texts that read as numbers

Which texts a reader of plain scalars takes for a number: integers in four bases that fit into 128 bits,
and decimals whose nearest double-precision value is finite.
-/
namespace UnitGraph.Text

/-- The value of a digit, if it is one in the base; letters count in either case. -/
def digitValue? (base : Nat) (c : Char) : Option Nat :=
  let value :=
    if '0' ≤ c ∧ c ≤ '9' then some (c.toNat - '0'.toNat)
    else if 'a' ≤ c ∧ c ≤ 'z' then some (c.toNat - 'a'.toNat + 10)
    else if 'A' ≤ c ∧ c ≤ 'Z' then some (c.toNat - 'A'.toNat + 10)
    else none
  value.filter (· < base)

/-- The value of a text of one or more digits of a base. -/
def digitsValue? (base : Nat) : List Char → Option Nat
  | [] => none
  | cs => cs.foldlM (fun acc c => (digitValue? base c).map (acc * base + ·)) 0

def isDecimalDigit (c : Char) : Bool := (digitValue? 10 c).isSome

/-- Whether the text begins with a minus sign, and the text after its sign. -/
def splitSign : List Char → Bool × List Char
  | '-' :: cs => (true, cs)
  | '+' :: cs => (false, cs)
  | cs => (false, cs)

/-- The value of an unsigned integer: `0x`, `0o` and `0b` announce the bases 16, 8 and 2. -/
def unsignedValue? : List Char → Option Nat
  | '0' :: 'x' :: cs => digitsValue? 16 cs
  | '0' :: 'o' :: cs => digitsValue? 8 cs
  | '0' :: 'b' :: cs => digitsValue? 2 cs
  | cs => digitsValue? 10 cs

/-- An integer with at most one sign that fits into 128 bits, with a sign bit where it is negative. -/
def isInteger (cs : List Char) : Bool :=
  let (negative, digits) := splitSign cs
  (unsignedValue? digits).any fun v => if negative then v ≤ Nat.pow 2 127 else v < Nat.pow 2 128

/-- After at most one sign, a zero and further digits. -/
def hasLeadingZero (cs : List Char) : Bool :=
  match (splitSign cs).2 with
  | '0' :: c :: cs => (c :: cs).all isDecimalDigit
  | _ => false

/-- A number in scientific form: its digits as one integer, times a power of ten. -/
structure Scientific where
  digits : Nat
  exponent : Int
  deriving DecidableEq, Repr

/-- The exponent part of a decimal, which may be missing. -/
def exponentValue? : List Char → Option Int
  | [] => some 0
  | e :: cs =>
      if e = 'e' ∨ e = 'E' then
        let (negative, digits) := splitSign cs
        (digitsValue? 10 digits).map fun v => if negative then -(v : Int) else v
      else none

/-- The value of an unsigned decimal: digits with a point among, before or after them, and an exponent. -/
def scientific? (cs : List Char) : Option Scientific :=
  let whole := cs.takeWhile isDecimalDigit
  let rest := cs.dropWhile isDecimalDigit
  let (fraction, rest) :=
    match rest with
    | '.' :: cs => (cs.takeWhile isDecimalDigit, cs.dropWhile isDecimalDigit)
    | _ => ([], rest)
  do
    let digits ← digitsValue? 10 (whole ++ fraction)
    let exponent ← exponentValue? rest
    return ⟨digits, exponent - fraction.length⟩

/-- The least value that rounds beyond the finite doubles: halfway from the greatest of them to the next
power of two. -/
def overflowBound : Nat := Nat.pow 2 1024 - Nat.pow 2 970

/-- Whether the nearest double is finite. A power of ten is computed only where it can matter. -/
def Scientific.isFinite (x : Scientific) : Bool :=
  if x.digits = 0 then true
  else if 0 ≤ x.exponent then
    x.exponent < 310 && x.digits * Nat.pow 10 x.exponent.toNat < overflowBound
  else
    let places := (-x.exponent).toNat
    (Nat.toDigits 10 x.digits).length ≤ places || x.digits < overflowBound * Nat.pow 10 places

/-- A decimal with at most one sign whose value is finite. -/
def isFiniteDecimal (cs : List Char) : Bool :=
  (scientific? (splitSign cs).2).any (·.isFinite)

/-- The names of the infinities, with at most one sign, and of the value that is no number. -/
def isSpecialFloat (cs : List Char) : Bool :=
  [".inf", ".Inf", ".INF"].any (·.toList = (splitSign cs).2) ||
    [".nan", ".NaN", ".NAN"].any (·.toList = cs)

/-- Whether a reader takes the text for a number. -/
def readsAsNumber (cs : List Char) : Bool :=
  isInteger cs || hasLeadingZero cs || isFiniteDecimal cs || isSpecialFloat cs

end UnitGraph.Text
