-- Values are written behind bytes that are there already.
-- A writer adds its bytes part by part: a count before what it counts, a tag before its payload.
-- What it has added stays there where it stops.
import Typewire.Wire.Encode

namespace Typewire.Wire

/-! ## Writers -/

/-- A writer. It adds to the bytes so far, and may stop. -/
abbrev Writing := ExceptT CodecError (StateM (Array UInt8))

namespace Writing

/-- Adds a byte. -/
def push (b : UInt8) : Writing Unit := modify (·.push b)

/-- Adds bytes. -/
def extend (bytes : List UInt8) : Writing Unit := modify fun out : Array UInt8 => out ++ bytes

/-- What there is once the writer has added to some bytes. -/
def onto (w : Writing Unit) (bytes : List UInt8) : Encoding :=
  match (w.run bytes.toArray).run with
  | (.ok (), out) => ⟨out.toList, none⟩
  | (.error e, out) => ⟨out.toList, some e⟩

end Writing

open Writing

/-! ## Numbers -/

namespace Compact

/-- Adds the count of some bytes, which is four at least, and then the bytes. -/
def putCounted (bytes : List UInt8) : Writing Unit := do
  push (UInt8.ofNat (4 * (bytes.length - 4) + 3))
  extend bytes

/-- Adds the shortest form of a number below 2^64. -/
def putWord (n : UInt64) : Writing Unit :=
  if n.toNat < oneByteBound then push (UInt8.ofNat (4 * n.toNat))
  else if n.toNat < twoByteBound then extend (toBytes 2 (4 * n.toNat + 1))
  else if n.toNat < fourByteBound then extend (toBytes 4 (4 * n.toNat + 2))
  else putCounted ((toBytes 8 n.toNat).take (8 - n.toBitVec.clz.toNat / 8))

/-- Adds the shortest form of a number. -/
def put (n : Nat) : Writing Unit :=
  if n < wordBound then putWord (UInt64.ofNat n) else putCounted (significantBytes n)

/-- Adds the shortest form of a number, if the count of its bytes can be written. -/
def putShort (n : Nat) : Writing Unit :=
  if n < wordBound then putWord (UInt64.ofNat n)
  else if maxBytes < (significantBytes n).length then
    throw (.integerOutOfRange (toString n) "compact")
  else putCounted (significantBytes n)

end Compact

/-- Adds the integer that a value stands for. -/
def putInt (k : IntKind) (v : Value) : Writing Unit :=
  match v with
  | .integer n =>
    if k.width.bytes ≤ 8 then
      if k.holds n.toInt then extend (nativeBytes k n)
      else throw (.integerOutOfRange (toString n.toInt) k.name)
    else wide
  | _ => wide
where
  /-- Adds the integer as one of any size: its own bytes, and then those of its sign. -/
  wide : Writing Unit := do
    let n ← MonadExcept.ofExcept (intWithin v k)
    let (bytes, fill) :=
      if k.isSigned then (signedBytes n, if n < 0 then 0xff else 0)
      else (significantBytes n.toNat, 0)
    extend (bytes.take k.width.bytes)
    extend (List.replicate (k.width.bytes - bytes.length) fill)

/-! ## Values without values inside -/

/-- Adds bytes after their number. -/
def putSized (bytes : List UInt8) : Writing Unit := do
  Compact.put bytes.length
  extend bytes

/-- Adds the bytes that a value stands for: so many, or any number of them after their number. -/
def putBytes (length : Option Nat) (v : Value) : Writing Unit := do
  let bytes ← MonadExcept.ofExcept (bytesOf v)
  match length with
  | none => putSized bytes
  | some n => if bytes.length = n then extend bytes else throw (.arityMismatch n bytes.length)

/-- Adds a value that is taken whole. -/
def putScalar (v : Value) : Layout → Writing Unit
  | .bool =>
    match v with
    | .bool b => push (if b then 1 else 0)
    | v => throw (mismatch "bool" v)
  | .str =>
    match v with
    | .text s => putSized (Text.Utf8.encode s)
    | v => throw (mismatch "str" v)
  | .integer k => putInt k v
  | .compact k => do Compact.putShort (← MonadExcept.ofExcept (intWithin v k)).toNat
  | .bytes length => putBytes length v
  | .sequence _ _ | .array _ _ => throw (mismatch "list" v)
  | .tuple [] => if v.isNull then pure () else throw (mismatch "null or empty list" v)
  | .tuple _ => throw (mismatch "list" v)
  | .struct _ => throw (mismatch "map" v)
  | .enum _ => throw (mismatch "enum value (single-entry map)" v)

/-! ## Values -/

/-- Adds a value by the form of a type. -/
def putBy (forms : Forms) (id : TypeId) (v : Value) (put : Layout → Writing Unit) :
    Writing Unit := do
  match ← MonadExcept.ofExcept (forms id) with
  | .plain layout => put layout
  | .option tags payload =>
    if v.isNull then push tags.noneTag
    else do
      push tags.someTag
      put payload

/-- Adds a field that the value leaves out. -/
def putAbsent (forms : Forms) (f : Field) : Writing Unit := do
  match ← MonadExcept.ofExcept (forms f.type) with
  | .option tags _ => push tags.noneTag
  | .plain _ => throw (.missingField f.name)

mutual

/-- Adds a value of a type. -/
def putValue (forms : Forms) : Value → TypeId → Writing Unit
  | .list items, id => putBy forms id (.list items) fun
    | .sequence element _ => do
      Compact.put items.length
      putItems forms items element
    | .array element length =>
      if items.length = length then putItems forms items element
      else throw (.arityMismatch length items.length)
    | .tuple [] =>
      if items.isEmpty then pure () else throw (mismatch "null or empty list" (.list items))
    | .tuple members =>
      if items.length = members.length then putMembers forms items members
      else throw (.arityMismatch members.length items.length)
    | layout => putScalar (.list items) layout
  | .map entries, id => putBy forms id (.map entries) fun
    | .struct fields =>
      fields.forM fun f => (putEntry forms entries f.name f.type).getD (putAbsent forms f)
    | .enum variants => do
      let choice ← MonadExcept.ofExcept (Choice.ofEntries variants entries)
      push choice.variant.tag
      match choice.variant.payload, choice.payloadKey with
      | none, _ => pure ()
      | some p, some key => (putEntry forms entries key p).getD (pure ())
      | some p, none => putBy forms p .null (putScalar .null)
    | layout => putScalar (.map entries) layout
  | .null, id => putBy forms id .null (putScalar .null)
  | .bool b, id => putBy forms id (.bool b) (putScalar (.bool b))
  | .integer n, id => putBy forms id (.integer n) (putScalar (.integer n))
  | .bigInteger n, id => putBy forms id (.bigInteger n) (putScalar (.bigInteger n))
  | .bytes bs, id => putBy forms id (.bytes bs) (putScalar (.bytes bs))
  | .text s, id => putBy forms id (.text s) (putScalar (.text s))

/-- Adds the items of a list, all of one type. -/
def putItems (forms : Forms) : List Value → TypeId → Writing Unit
  | [], _ => pure ()
  | v :: vs, id => do
    putValue forms v id
    putItems forms vs id

/-- Adds the items of a list, each of its own type. -/
def putMembers (forms : Forms) : List Value → List TypeId → Writing Unit
  | v :: vs, id :: ids => do
    putValue forms v id
    putMembers forms vs ids
  | _, _ => pure ()

/-- Adds the value under a key, if there is one. -/
def putEntry (forms : Forms) : List (String × Value) → String → TypeId → Option (Writing Unit)
  | [], _, _ => none
  | (k, v) :: rest, key, id =>
    if k == key then some (putValue forms v id) else putEntry forms rest key id

end

end Typewire.Wire
