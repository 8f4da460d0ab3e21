-- Integers of a fixed width, and the values that hold them.
-- An integer is written as its two's complement in the bytes of its width. It may be given as
-- an integer of either kind or as decimal text that ends in `n`.
import Typewire.Value.Basic
import Typewire.Wire.Bytes

namespace Typewire.Wire

/-- A value of one kind where another was needed. -/
def mismatch (expected : String) (found : Value) : CodecError :=
  .typeMismatch expected found.kindName

/-! ## Integers in values -/

/-- The integer that some characters write: decimal digits, perhaps after a minus sign, and an
`n` at the end. -/
def suffixedInt? (cs : List Char) : Option Int :=
  match cs with
  | '-' :: cs => (digits? cs).map fun n => -(n : Int)
  | cs => (digits? cs).map fun n => (n : Int)
where
  /-- The number that decimal digits with an `n` after them stand for. -/
  digits? (cs : List Char) : Option Nat :=
    match cs.reverse with
    | 'n' :: (d :: ds) =>
      if (d :: ds).all Char.isDigit then
        some ((d :: ds).foldr (fun c n => 10 * n + (c.toNat - '0'.toNat)) 0)
      else none
    | _ => none

/-- The integer that a value stands for where an integer type is wanted. -/
def intOf (v : Value) (k : IntKind) : Except CodecError Int :=
  let n? := match v with
    | .text s => suffixedInt? s.toList
    | v => v.int?
  match n? with
  | some n => .ok n
  | none => .error (mismatch k.name v)

/-- The integer that a value stands for, if it is one of the type. -/
def intWithin (v : Value) (k : IntKind) : Except CodecError Int := do
  let n ← intOf v k
  if k.holds n then return n else throw (.integerOutOfRange (toString n) k.name)

/-- An integer of a type as a value: in 64 bits where all integers of the type fit. -/
def valueOf (k : IntKind) (n : Int) : Value :=
  if k.fitsNative then .integer (.ofInt n) else .bigInteger n

/-! ## Two's complement -/

/-- The bytes of an integer in two's complement. -/
def intBytes (k : IntKind) (n : Int) : List UInt8 :=
  toBytes k.width.bytes (n % Int.pow 2 k.width.bits).toNat

/-- The bytes of an integer in two's complement, no more than show its sign. -/
def signedBytes (n : Int) : List UInt8 :=
  if -128 ≤ n ∧ n < 128 then [UInt8.ofNat (n % 256).toNat]
  else UInt8.ofNat (n % 256).toNat :: signedBytes (n / 256)
termination_by n.natAbs

/-- The lowest bytes of a number, with copies of one byte where there are too few. -/
def filledTo (length : Nat) (fill : UInt8) (bytes : List UInt8) : List UInt8 :=
  bytes.take length ++ List.replicate (length - bytes.length) fill

/-- The bytes of an integer that is held in 64 bits: the lowest of its 16 bytes. -/
def nativeBytes (k : IntKind) (n : Int64) : List UInt8 :=
  (toBytes 16 (n.toInt % Int.pow 2 128).toNat).take k.width.bytes

/-- The bytes of an integer of any size: its own bytes, and then those of its sign. -/
def wideBytes (k : IntKind) (n : Int) : List UInt8 :=
  if k.isSigned then filledTo k.width.bytes (if n < 0 then 0xff else 0) (signedBytes n)
  else filledTo k.width.bytes 0 (significantBytes n.toNat)

/-- Writes the integer that a value stands for. What is held in 64 bits goes another way than
the rest, where the type has no more bits than that. -/
def writeInt (k : IntKind) (v : Value) : Except CodecError (List UInt8) :=
  match v with
  | .integer n =>
    if k.width.bytes ≤ 8 then
      if k.holds n.toInt then .ok (nativeBytes k n)
      else .error (.integerOutOfRange (toString n.toInt) k.name)
    else wide
  | _ => wide
where
  /-- Writes the integer as one of any size. -/
  wide : Except CodecError (List UInt8) := do return wideBytes k (← intWithin v k)

/-- The highest bit of some bytes is set. -/
def hasSignBit (bytes : List UInt8) : Bool := bytes.getLast?.any (128 ≤ ·)

/-- The 64 bits that start with some bytes; above those are copies of their sign, if they have
one. -/
def nativeOfBytes (k : IntKind) (bytes : List UInt8) : Int64 :=
  let fill := if k.isSigned && hasSignBit bytes then 0xff else 0
  (UInt64.ofNat (ofBytes (filledTo 8 fill bytes))).toInt64

/-- The integer of any size that some bytes are; the highest bit is its sign. -/
def signedOfBytes (bytes : List UInt8) : Int :=
  if hasSignBit bytes then ofBytes bytes - Int.pow 256 bytes.length else ofBytes bytes

/-- The value that the bytes of an integer type are: in 64 bits where all integers of the type
fit. -/
def readInt (k : IntKind) (bytes : List UInt8) : Value :=
  if k.fitsNative then .integer (nativeOfBytes k bytes)
  else if k.isSigned then .bigInteger (signedOfBytes bytes)
  else .bigInteger (ofBytes bytes)

/-- Reads an integer of a type. -/
def takeInt (k : IntKind) : Taking Value := do
  return readInt k (← take k.width.bytes)

end Typewire.Wire
