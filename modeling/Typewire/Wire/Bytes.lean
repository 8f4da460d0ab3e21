-- Bytes taken from the front, and numbers as bytes, the lowest first.
import Typewire.Wire.Fault

namespace Typewire.Wire

/-! ## Taking bytes -/

/-- A step that takes bytes from the front, or fails. -/
abbrev Taking := StateT (List UInt8) (Except CodecError)

/-- Takes a number of bytes. -/
def take (count : Nat) : Taking (List UInt8) := fun bytes =>
  let (front, rest) := bytes.splitAt count
  if front.length = count then .ok (front, rest)
  else .error (.bufferTooSmall count bytes.length)

/-- Takes one byte. -/
def takeByte : Taking UInt8 := fun bytes =>
  match bytes with
  | b :: rest => .ok (b, rest)
  | [] => .error (.bufferTooSmall 1 0)

/-! ## Numbers -/

/-- The number that some bytes are, the lowest first. -/
def ofBytes : List UInt8 → Nat
  | [] => 0
  | b :: rest => b.toNat + 256 * ofBytes rest

/-- The lowest bytes of a number, as many as asked for. -/
def toBytes : Nat → Nat → List UInt8
  | 0, _ => []
  | count + 1, n => UInt8.ofNat n :: toBytes count (n / 256)

/-- All bytes of a number up to its highest one. -/
def significantBytes (n : Nat) : List UInt8 :=
  if n = 0 then [] else UInt8.ofNat n :: significantBytes (n / 256)

end Typewire.Wire
