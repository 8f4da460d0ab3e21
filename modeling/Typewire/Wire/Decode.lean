-- Bytes become values, as their type directs.
-- Each value inside another counts as one level, and no more than 256 levels are read.
import Typewire.Wire.Compact
import Typewire.Wire.Integer
import Typewire.Wire.Layout

namespace Typewire.Wire

/-! ## Limits -/

/-- The most levels of values inside each other that are read. -/
def maxLevels : Nat := 256

/-- The most elements that take no bytes that are read in a row. -/
def maxZeroSized : Nat := 65536

/-! ## Values without values inside -/

/-- Reads a truth value. -/
def takeBool : Taking Value := do
  match ← takeByte with
  | 0 => return .bool false
  | 1 => return .bool true
  | other => throw (.invalidBool other)

/-- Reads text as UTF-8 after its length. -/
def takeText : Taking Value := do
  let bytes ← take (← Compact.decodeLength)
  match Text.Utf8.decode bytes with
  | .ok text => return .text text
  | .error fault => throw (.invalidUtf8 fault)

/-- Reads a compact integer of a type. -/
def takeCompact (k : IntKind) : Taking Value := do
  let n ← Compact.decode
  if k.holds n then return valueOf k n
  else throw (.integerOutOfRange (toString n) k.name)

/-- Reads bytes, of one number or after their number. -/
def takeBytes (length : Option Nat) : Taking Value := do
  match length with
  | some n => return .bytes (← take n)
  | none => return .bytes (← take (← Compact.decodeLength))

/-! ## Values in a row -/

/-- Reads a number of values, added to those that were read before, latest first. -/
def takeMany (element : Taking Value) : Nat → List Value → Taking (List Value)
  | 0, before => return before.reverse
  | count + 1, before => do takeMany element count ((← element) :: before)

/-- Reads the values of some types in a row. -/
def takeAll (decode : TypeId → Taking Value) : List TypeId → Taking (List Value)
  | [] => return []
  | id :: ids => do
    let v ← decode id
    return v :: (← takeAll decode ids)

/-- Reads the values of some fields in a row, each with its name. -/
def takeFields (decode : TypeId → Taking Value) : List Field → Taking (List (String × Value))
  | [] => return []
  | f :: fs => do
    let v ← decode f.type
    return (f.name, v) :: (← takeFields decode fs)

/-! ## Values -/

/-- Reads a value by its layout, and the values inside it by `decode`. -/
def decodeLayout (decode : TypeId → Taking Value) : Layout → Taking Value
  | .bool => takeBool
  | .str => takeText
  | .integer k => takeInt k
  | .compact k => takeCompact k
  | .bytes length => takeBytes length
  | .sequence element zeroSized => do
    let count ← Compact.decodeLength
    if zeroSized && maxZeroSized < count then throw (.sequenceTooLong count maxZeroSized)
    return .list (← takeMany (decode element) count [])
  | .array element length => return .list (← takeMany (decode element) length [])
  | .tuple [] => return .null
  | .tuple members => return .list (← takeAll decode members)
  | .struct fields => return .ofEntries (← takeFields decode fields)
  | .enum variants => do
    let tag ← takeByte
    match variants.find? (·.tag == tag) with
    | none => throw (.invalidTag tag)
    | some ⟨name, _, none⟩ => return .variant name .null
    | some ⟨name, _, some payload⟩ => return .variant name (← decode payload)

/-- Reads a value of a type while that many levels are left. -/
def decodeWithin (forms : Forms) : Nat → TypeId → Taking Value
  | 0, _ => throw (.nestingTooDeep maxLevels)
  | levels + 1, id => do
    match forms id with
    | .error e => throw e
    | .ok (.plain layout) => decodeLayout (decodeWithin forms levels) layout
    | .ok (.option tags _) =>
      let tag ← takeByte
      if tag = tags.noneTag then return .null
      else if tag = tags.someTag then decodeWithin forms levels tags.payload
      else throw (.invalidTag tag)

/-- Reads a value of a type from the front of some bytes. -/
def decode (forms : Forms) (id : TypeId) : Taking Value := decodeWithin forms maxLevels id

end Typewire.Wire
