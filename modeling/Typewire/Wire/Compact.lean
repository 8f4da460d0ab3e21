-- Natural numbers in as few bytes as they need.
-- The two low bits of the first byte choose between one, two and four bytes, or a count of
-- bytes that follow. Only the shortest form of a number is read.
import Typewire.Wire.Bytes

namespace Typewire.Wire.Compact

/-- Numbers below this take one byte. -/
def oneByteBound : Nat := Nat.pow 2 6

/-- Numbers below this take at most two bytes. -/
def twoByteBound : Nat := Nat.pow 2 14

/-- Numbers below this take at most four bytes. -/
def fourByteBound : Nat := Nat.pow 2 30

/-- Numbers below this fit in 64 bits. -/
def wordBound : Nat := Nat.pow 2 64

/-- The most bytes that can follow a count. -/
def maxBytes : Nat := 67

/-! ## Writing -/

/-- Bytes after their count, which is four at least. -/
def counted (bytes : List UInt8) : List UInt8 :=
  UInt8.ofNat (4 * (bytes.length - 4) + 3) :: bytes

/-- The shortest form of a number below 2^64. The zeros above its highest bit tell how many of
its eight bytes are counted. -/
def writeWord (n : UInt64) : List UInt8 :=
  if n.toNat < oneByteBound then toBytes 1 (4 * n.toNat)
  else if n.toNat < twoByteBound then toBytes 2 (4 * n.toNat + 1)
  else if n.toNat < fourByteBound then toBytes 4 (4 * n.toNat + 2)
  else counted ((toBytes 8 n.toNat).take (8 - n.toBitVec.clz.toNat / 8))

/-- The shortest form of a number. -/
def write (n : Nat) : List UInt8 :=
  if n < wordBound then writeWord (UInt64.ofNat n) else counted (significantBytes n)

/-- The shortest form of a number, if the count of its bytes can be written. -/
def encode (n : Nat) : Except CodecError (List UInt8) :=
  if n < wordBound then .ok (writeWord (UInt64.ofNat n))
  else if maxBytes < (significantBytes n).length then
    .error (.integerOutOfRange (toString n) "compact")
  else .ok (counted (significantBytes n))

/-! ## Reading -/

/-- The number, unless it is below the bound from which its form is the shortest. -/
def canonical (bound n : Nat) : Taking Nat :=
  if n < bound then throw .nonCanonicalCompact else pure n

/-- Reads the rest of a number of one, two or four bytes. -/
def decodeFew (first : UInt8) : Taking Nat := do
  match first.toNat % 4 with
  | 0 => return first.toNat / 4
  | 1 => canonical oneByteBound (ofBytes (first :: (← take 1)) / 4)
  | _ => canonical twoByteBound (ofBytes (first :: (← take 3)) / 4)

/-- Reads the bytes of a number that are counted. -/
def decodeCounted (count : Nat) : Taking Nat := do
  let bytes ← take count
  if bytes.getLast? = some 0 then throw .nonCanonicalCompact
  canonical fourByteBound (ofBytes bytes)

/-- Reads a number of any size. -/
def decode : Taking Nat := do
  let first ← takeByte
  if first.toNat % 4 = 3 then decodeCounted (first.toNat / 4 + 4) else decodeFew first

/-- Reads a number that counts bytes or elements; it is below 2^64. -/
def decodeLength : Taking Nat := do
  let first ← takeByte
  if first.toNat % 4 = 3 then
    let count := first.toNat / 4 + 4
    if 8 < count then throw (.integerOutOfRange s!"{count}-byte compact" "u64")
    decodeCounted count
  else decodeFew first

end Typewire.Wire.Compact
