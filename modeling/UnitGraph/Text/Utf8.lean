/-!
# Decoding UTF-8 with replacement

Bytes are read as UTF-8. Where they cannot be, every longest run of bytes that begins some character but
does not finish one, and every byte that begins none, becomes one replacement character.
-/
namespace UnitGraph.Text

/-- An inclusive range of byte values. -/
structure ByteRange where
  first : UInt8
  last : UInt8
  deriving DecidableEq, Repr

def ByteRange.has (r : ByteRange) (b : UInt8) : Bool := r.first ≤ b && b ≤ r.last

/-- Any continuation byte. -/
def continuation : ByteRange := ⟨0x80, 0xBF⟩

/-- A character that has been begun: the bits read so far, the range of the next byte, and the ranges of
the bytes after it. -/
structure Pending where
  value : Nat
  next : ByteRange
  later : List ByteRange
  deriving DecidableEq, Repr

def replacement : Char := '\uFFFD'

/-- What a byte begins: characters that are finished at once, and a character that is not. The ranges
exclude overlong forms, surrogates and values beyond U+10FFFF. -/
def beginByte (b : UInt8) : List Char × Option Pending :=
  let v := b.toNat
  if v < 0x80 then ([Char.ofNat v], none)
  else if 0xC2 ≤ v ∧ v ≤ 0xDF then ([], some ⟨v - 0xC0, continuation, []⟩)
  else if v = 0xE0 then ([], some ⟨0, ⟨0xA0, 0xBF⟩, [continuation]⟩)
  else if v = 0xED then ([], some ⟨0xD, ⟨0x80, 0x9F⟩, [continuation]⟩)
  else if 0xE1 ≤ v ∧ v ≤ 0xEF then ([], some ⟨v - 0xE0, continuation, [continuation]⟩)
  else if v = 0xF0 then ([], some ⟨0, ⟨0x90, 0xBF⟩, [continuation, continuation]⟩)
  else if 0xF1 ≤ v ∧ v ≤ 0xF3 then ([], some ⟨v - 0xF0, continuation, [continuation, continuation]⟩)
  else if v = 0xF4 then ([], some ⟨4, ⟨0x80, 0x8F⟩, [continuation, continuation]⟩)
  else ([replacement], none)

/-- The next byte continues the character that is pending, or ends it unfinished and begins anew. -/
def advanceByte : Option Pending → UInt8 → List Char × Option Pending
  | none, b => beginByte b
  | some p, b =>
      if p.next.has b then
        let value := p.value * 64 + (b.toNat - 0x80)
        match p.later with
        | [] => ([Char.ofNat value], none)
        | r :: rs => ([], some ⟨value, r, rs⟩)
      else (replacement :: (beginByte b).1, (beginByte b).2)

/-- The characters of the remaining bytes; a character pending at the end is replaced. -/
def decodeFrom : Option Pending → List UInt8 → List Char
  | none, [] => []
  | some _, [] => [replacement]
  | p, b :: bs => (advanceByte p b).1 ++ decodeFrom (advanceByte p b).2 bs

/-- The text of a sequence of bytes. -/
def decodeUtf8 (bytes : List UInt8) : String := String.ofList (decodeFrom none bytes)

end UnitGraph.Text
