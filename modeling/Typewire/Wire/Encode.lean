-- Values become bytes, as their type directs.
-- An encoding is the bytes that were written and, where it stops early, the reason. Encodings
-- in a row are written one after the other up to the first that stops.
import Typewire.Wire.Compact
import Typewire.Wire.Integer
import Typewire.Wire.Layout

namespace Typewire.Wire

/-! ## Encodings -/

/-- What was written, and why writing stopped if it did. -/
structure Encoding where
  bytes : List UInt8
  fault : Option CodecError
  deriving DecidableEq, Repr

namespace Encoding

/-- Writes nothing. -/
def empty : Encoding := ⟨[], none⟩

/-- Writes some bytes. -/
def ofBytes (bytes : List UInt8) : Encoding := ⟨bytes, none⟩

/-- Stops before anything is written. -/
def stop (e : CodecError) : Encoding := ⟨[], some e⟩

/-- Writes the bytes, if there are any to write. -/
def ofExcept : Except CodecError (List UInt8) → Encoding
  | .ok bytes => ofBytes bytes
  | .error e => stop e

/-- One encoding after another, unless the first stops. -/
def append (a b : Encoding) : Encoding :=
  match a.fault with
  | some _ => a
  | none => ⟨a.bytes ++ b.bytes, b.fault⟩

instance : Append Encoding := ⟨append⟩

/-- Encodings in a row. -/
def concat : List Encoding → Encoding
  | [] => empty
  | e :: es => e ++ concat es

/-- The bytes, if writing did not stop. -/
def result (e : Encoding) : Except CodecError (List UInt8) :=
  match e.fault with
  | none => .ok e.bytes
  | some fault => .error fault

end Encoding

/-! ## Bytes in values -/

/-- The byte that a list item stands for. -/
def byteOf (v : Value) : Except CodecError UInt8 :=
  match v.int? with
  | some n =>
    if 0 ≤ n ∧ n < 256 then .ok (UInt8.ofNat n.toNat) else .error (mismatch "byte (0..=255)" v)
  | none => .error (mismatch "byte (0..=255)" v)

/-- The bytes that a value stands for where bytes are wanted: bytes, hexadecimal digits after
`0x`, other text as UTF-8, or a list of bytes as integers. -/
def bytesOf : Value → Except CodecError (List UInt8)
  | .bytes bytes => .ok bytes
  | .text s =>
    match Text.Utf8.encode s with
    | 0x30 :: 0x78 :: digits => (Text.Hex.decode digits).mapError .invalidHex
    | bytes => .ok bytes
  | .list items => items.mapM byteOf
  | v => .error (mismatch "bytes" v)

/-! ## Variants in values -/

/-- The variant that an enum value chooses, and the key under which its payload stands; without
a key the payload is `null`. -/
structure Choice where
  variant : Variant
  payloadKey : Option String
  deriving DecidableEq, Repr

namespace Choice

/-- The name in a map of the explicit form: the keys `tag` and perhaps `value`, and a text under
`tag`. -/
def explicitName? (entries : List (String × Value)) : Option String :=
  match (entries.lookup "tag").bind Value.text? with
  | some name => if entries.all (fun e => e.1 == "tag" || e.1 == "value") then some name else none
  | none => none

/-- The name and the payload key of an enum value: the inline form, where the one key names a
variant, before the explicit form. -/
def nameAndKey (variants : List Variant) (entries : List (String × Value)) :
    Except CodecError (String × Option String) :=
  let explicit (otherwise : CodecError) :=
    match explicitName? entries with
    | some name => .ok (name, (entries.lookup "value").map fun _ => "value")
    | none => .error otherwise
  match entries with
  | [(key, _)] =>
    if variants.any (·.name == key) then .ok (key, some key) else explicit (.unknownVariant key)
  | _ => explicit (mismatch "enum value (single-entry map)" (.map entries))

/-- The value under the payload key. -/
def payload (entries : List (String × Value)) (key : Option String) : Value :=
  (key.bind fun key => entries.lookup key).getD .null

/-- The choice that the entries of an enum value make. -/
def ofEntries (variants : List Variant) (entries : List (String × Value)) :
    Except CodecError Choice := do
  let (name, key) ← nameAndKey variants entries
  let some v := variants.find? (·.name == name) | throw (.unknownVariant name)
  if v.payload.isNone && !(payload entries key).isNull then throw (.unexpectedPayload name)
  return ⟨v, key⟩

end Choice

/-! ## Values without values inside -/

/-- Writes bytes of a given number, or any number of bytes after their number. -/
def encodeBytes (length : Option Nat) (v : Value) : Except CodecError (List UInt8) := do
  let bytes ← bytesOf v
  match length with
  | none => return Compact.write bytes.length ++ bytes
  | some n =>
    if bytes.length = n then return bytes else throw (.arityMismatch n bytes.length)

/-- Encodes a value that is taken whole. Where the layout wants a list or a map, that is only
`null` as the unit value. -/
def encodeScalar (v : Value) : Layout → Encoding
  | .bool =>
    match v with
    | .bool b => .ofBytes [if b then 1 else 0]
    | v => .stop (mismatch "bool" v)
  | .str =>
    match v with
    | .text s =>
      let bytes := Text.Utf8.encode s
      .ofBytes (Compact.write bytes.length ++ bytes)
    | v => .stop (mismatch "str" v)
  | .integer k => .ofExcept (writeInt k v)
  | .compact k => .ofExcept (do Compact.encode (← intWithin v k).toNat)
  | .bytes length => .ofExcept (encodeBytes length v)
  | .sequence _ _ | .array _ _ => .stop (mismatch "list" v)
  | .tuple [] => if v.isNull then .empty else .stop (mismatch "null or empty list" v)
  | .tuple _ => .stop (mismatch "list" v)
  | .struct _ => .stop (mismatch "map" v)
  | .enum _ => .stop (mismatch "enum value (single-entry map)" v)

/-! ## Values -/

/-- Encodes by the form of a type: an option as one tag for `null`, or as the other tag before
its payload. -/
def encodeBy (forms : Forms) (id : TypeId) (v : Value) (encode : Layout → Encoding) : Encoding :=
  match forms id with
  | .error e => .stop e
  | .ok (.plain layout) => encode layout
  | .ok (.option tags payload) =>
    if v.isNull then .ofBytes [tags.noneTag] else .ofBytes [tags.someTag] ++ encode payload

/-- The encoding of a field that the value leaves out: `null` where the field is an option. -/
def encodeAbsent (forms : Forms) (f : Field) : Encoding :=
  match forms f.type with
  | .error e => .stop e
  | .ok (.option tags _) => .ofBytes [tags.noneTag]
  | .ok (.plain _) => .stop (.missingField f.name)

mutual

/-- Encodes a value of a type. -/
def encode (forms : Forms) : Value → TypeId → Encoding
  | .list items, id => encodeBy forms id (.list items) fun
    | .sequence element _ =>
      .ofBytes (Compact.write items.length) ++ encodeItems forms items element
    | .array element length =>
      if items.length = length then encodeItems forms items element
      else .stop (.arityMismatch length items.length)
    | .tuple [] =>
      if items.isEmpty then .empty else .stop (mismatch "null or empty list" (.list items))
    | .tuple members =>
      if items.length = members.length then encodeMembers forms items members
      else .stop (.arityMismatch members.length items.length)
    | layout => encodeScalar (.list items) layout
  | .map entries, id => encodeBy forms id (.map entries) fun
    | .struct fields =>
      .concat (fields.map fun f =>
        (encodeEntry forms entries f.name f.type).getD (encodeAbsent forms f))
    | .enum variants =>
      match Choice.ofEntries variants entries with
      | .error e => .stop e
      | .ok choice =>
        .ofBytes [choice.variant.tag] ++
          match choice.variant.payload, choice.payloadKey with
          | none, _ => .empty
          | some p, some key => (encodeEntry forms entries key p).getD .empty
          | some p, none => encodeBy forms p .null (encodeScalar .null)
    | layout => encodeScalar (.map entries) layout
  | .null, id => encodeBy forms id .null (encodeScalar .null)
  | .bool b, id => encodeBy forms id (.bool b) (encodeScalar (.bool b))
  | .integer n, id => encodeBy forms id (.integer n) (encodeScalar (.integer n))
  | .bigInteger n, id => encodeBy forms id (.bigInteger n) (encodeScalar (.bigInteger n))
  | .bytes bs, id => encodeBy forms id (.bytes bs) (encodeScalar (.bytes bs))
  | .text s, id => encodeBy forms id (.text s) (encodeScalar (.text s))

/-- Encodes the items of a list, all of one type. -/
def encodeItems (forms : Forms) : List Value → TypeId → Encoding
  | [], _ => .empty
  | v :: vs, id => encode forms v id ++ encodeItems forms vs id

/-- Encodes the items of a list, each of its own type. -/
def encodeMembers (forms : Forms) : List Value → List TypeId → Encoding
  | v :: vs, id :: ids => encode forms v id ++ encodeMembers forms vs ids
  | _, _ => .empty

/-- Encodes the value under a key, if there is one. -/
def encodeEntry (forms : Forms) : List (String × Value) → String → TypeId → Option Encoding
  | [], _, _ => none
  | (k, v) :: rest, key, id =>
    if k == key then some (encode forms v id) else encodeEntry forms rest key id

end

end Typewire.Wire
