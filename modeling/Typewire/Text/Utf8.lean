-- Text as UTF-8 bytes.
-- A list of bytes is the text it spells, or it has a first fault: an invalid start of one to
-- three bytes, or an end inside a character.
namespace Typewire.Text.Utf8

/-! ## Writing -/

/-- The bytes of a text. -/
def encode (text : String) : List UInt8 := text.toUTF8.toList

/-! ## Faults -/

/-- Where and how a list of bytes stops being UTF-8. -/
inductive Fault where
  /-- The `length` bytes from `index` on can start no character. -/
  | invalid (length index : Nat)
  /-- The bytes end inside the character that starts at `index`. -/
  | incomplete (index : Nat)
  deriving DecidableEq, Repr

/-- How a character may go on after its first byte: the range of the second byte and how many
bytes follow the first. -/
def lead? (b : UInt8) : Option (Nat × UInt8 × UInt8) :=
  if 0xc2 ≤ b ∧ b ≤ 0xdf then some (1, 0x80, 0xbf)
  else if b = 0xe0 then some (2, 0xa0, 0xbf)
  else if b = 0xed then some (2, 0x80, 0x9f)
  else if 0xe1 ≤ b ∧ b ≤ 0xef then some (2, 0x80, 0xbf)
  else if b = 0xf0 then some (3, 0x90, 0xbf)
  else if 0xf1 ≤ b ∧ b ≤ 0xf3 then some (3, 0x80, 0xbf)
  else if b = 0xf4 then some (3, 0x80, 0x8f)
  else none

/-- The first fault of the bytes that stand from `index` on, as far as `room` characters reach. -/
def faultFrom : Nat → Nat → List UInt8 → Option Fault
  | 0, _, _ => none
  | _, _, [] => none
  | room + 1, index, b :: rest =>
    if b < 0x80 then faultFrom room (index + 1) rest
    else match lead? b with
      | none => some (.invalid 1 index)
      | some (count, low, high) =>
        match tail count low high rest with
        | .ok rest => faultFrom room (index + 1 + count) rest
        | .error none => some (.incomplete index)
        | .error (some good) => some (.invalid (1 + good) index)
where
  /-- Drops the bytes that finish a character. An error tells how many of them were good, or
  that the bytes ran out. -/
  tail : Nat → UInt8 → UInt8 → List UInt8 → Except (Option Nat) (List UInt8)
    | 0, _, _, rest => .ok rest
    | _ + 1, _, _, [] => .error none
    | count + 1, low, high, b :: rest =>
      if low ≤ b ∧ b ≤ high then
        match tail count 0x80 0xbf rest with
        | .error (some good) => .error (some (good + 1))
        | other => other
      else .error (some 0)

/-! ## Reading -/

/-- The text that the bytes spell. -/
def decode (bytes : List UInt8) : Except Fault String :=
  match String.fromUTF8? ⟨bytes.toArray⟩ with
  | some text => .ok text
  | none => .error ((faultFrom bytes.length 0 bytes).getD (.incomplete bytes.length))

/-- The fault in words. -/
def Fault.message : Fault → String
  | .invalid length index => s!"invalid utf-8 sequence of {length} bytes from index {index}"
  | .incomplete index => s!"incomplete utf-8 byte sequence from index {index}"

end Typewire.Text.Utf8
