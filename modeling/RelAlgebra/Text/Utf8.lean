/-!
# UTF-8

Characters as bytes and back. Bytes that are no text are reported with the number of good bytes
before the fault, and with the length of the broken sequence unless the bytes end inside of it.
-/

namespace RelAlgebra.Utf8

/-- The bytes of a character. -/
def encodeChar (c : Char) : List UInt8 :=
  let n := c.toNat
  if n < 0x80 then
    [n.toUInt8]
  else if n < 0x800 then
    [(0xC0 + n / 0x40).toUInt8, (0x80 + n % 0x40).toUInt8]
  else if n < 0x10000 then
    [(0xE0 + n / 0x1000).toUInt8, (0x80 + n / 0x40 % 0x40).toUInt8, (0x80 + n % 0x40).toUInt8]
  else
    [(0xF0 + n / 0x40000).toUInt8, (0x80 + n / 0x1000 % 0x40).toUInt8,
      (0x80 + n / 0x40 % 0x40).toUInt8, (0x80 + n % 0x40).toUInt8]

/-- The bytes of a text. -/
def encode (s : List Char) : List UInt8 := s.flatMap encodeChar

/-- Why bytes are no text. -/
structure Fault where
  /-- The number of bytes before the faulty sequence. -/
  offset : Nat
  /-- The length of the faulty sequence, if the bytes do not end inside of it. -/
  length : Option Nat
  deriving DecidableEq, Repr

/-- A character of which some bytes are still to come. -/
structure Partial where
  /-- The bits that are known. -/
  bits : Nat
  /-- The number of bytes read. -/
  taken : Nat
  /-- The number of bytes to come after the next one. -/
  later : Nat
  /-- The least next byte. -/
  low : Nat
  /-- The greatest next byte. -/
  high : Nat

/-- What the first byte of a longer sequence tells. The bounds of the second byte exclude sequences
that are longer than needed, surrogates, and numbers beyond the last character. -/
def lead? (b : Nat) : Option Partial :=
  if b < 0xC2 then
    none
  else if b < 0xE0 then
    some ⟨b - 0xC0, 1, 0, 0x80, 0xBF⟩
  else if b < 0xF0 then
    some ⟨b - 0xE0, 1, 1, if b = 0xE0 then 0xA0 else 0x80, if b = 0xED then 0x9F else 0xBF⟩
  else if b < 0xF5 then
    some ⟨b - 0xF0, 1, 2, if b = 0xF0 then 0x90 else 0x80, if b = 0xF4 then 0x8F else 0xBF⟩
  else
    none

/-- Decodes bytes that follow `offset` good ones and the given start of a character. -/
def decodeFrom : Option Partial → Nat → List UInt8 → Except Fault (List Char)
  | none, _, [] => .ok []
  | some _, offset, [] => .error ⟨offset, none⟩
  | none, offset, b :: bs =>
    if b.toNat < 0x80 then
      (Char.ofNat b.toNat :: ·) <$> decodeFrom none (offset + 1) bs
    else
      match lead? b.toNat with
      | some p => decodeFrom (some p) offset bs
      | none => .error ⟨offset, some 1⟩
  | some p, offset, b :: bs =>
    if p.low ≤ b.toNat ∧ b.toNat ≤ p.high then
      let bits := p.bits * 0x40 + (b.toNat - 0x80)
      match p.later with
      | 0 => (Char.ofNat bits :: ·) <$> decodeFrom none (offset + p.taken + 1) bs
      | n + 1 => decodeFrom (some ⟨bits, p.taken + 1, n, 0x80, 0xBF⟩) offset bs
    else
      .error ⟨offset, some p.taken⟩

/-- The text that bytes encode. -/
def decode (bytes : List UInt8) : Except Fault (List Char) := decodeFrom none 0 bytes

/-- The text that describes a fault. -/
def Fault.message (f : Fault) : String :=
  match f.length with
  | some n => s!"invalid utf-8 sequence of {n} bytes from index {f.offset}"
  | none => s!"incomplete utf-8 byte sequence from index {f.offset}"

end RelAlgebra.Utf8
