-- Values and bytes as they are given on the command line.
-- A type is a position or an expression, a value is JSON, and bytes are hexadecimal digits.
import Typewire.Text.Blank
import Typewire.Text.Digits
import Typewire.Tool.Failure

namespace Typewire.Tool

open Text

/-! ## Arguments -/

/-- Positions stay below this bound. -/
def positionBound : Nat := Nat.pow 2 64

/-- The number that some characters write: decimal digits, perhaps after a plus sign. -/
def number? (cs : List Char) : Option Nat :=
  let digits := match cs with
    | '+' :: rest => rest
    | cs => cs
  if digits.isEmpty || !digits.all Char.isDigit then none
  else
    let n := decimalValue digits
    if n < positionBound then some n else none

/-- The type that an argument names: a position, else an expression. -/
def typeRef (text : String) : TypeRef :=
  match number? (trim text.toList) with
  | some n => .position n
  | none => .expr text

/-- The bytes that an argument writes as hexadecimal digits. White space between them means
nothing, and `0x` may stand before them. -/
def bytesOfHex (text : String) : Except Failure (List UInt8) :=
  let digits := match text.toList.filter (!isBlank ·) with
    | '0' :: 'x' :: rest => rest
    | cs => cs
  let bytes := Utf8.encode (String.ofList digits)
  if bytes.length % 2 = 1 then .error (.ofMessage "hex input has an odd number of digits")
  else (Hex.decode bytes).mapError fun fault =>
    Failure.during "parsing hex input" (.ofMessage fault.message)

/-! ## Commands -/

/-- A command on a registry. It may add types to it, also where it fails. -/
abbrev Command := ExceptT Failure (StateM Registry)

/-- A question to the registry as part of a command. -/
def ask {α : Type} (question : Asking α) : Command α :=
  ExceptT.mk do
    match ← question.run with
    | .ok a => return .ok a
    | .error e => return .error ⟨e.messages⟩

/-- The outcome of a step on values or bytes alone. -/
def ofCodec {α : Type} (r : Except CodecError α) : Command α :=
  match r with
  | .ok a => return a
  | .error e => throw (.ofMessage e.message)

/-- Encodes a JSON value as a type. -/
def encode (type json : String) : Command (List UInt8) := do
  match Value.parseJson json with
  | .error e => throw (Failure.during "parsing --value" ⟨(Error.codec e).messages⟩)
  | .ok v =>
    let id ← ask (Registry.codec (typeRef type))
    ofCodec ((← get).table.encode id v)

/-- Decodes bytes as a type, into JSON text. -/
def decode (type : String) (bytes : List UInt8) : Command String := do
  let id ← ask (Registry.codec (typeRef type))
  let v ← ofCodec ((← get).table.decode id bytes)
  return v.jsonText .pretty

end Typewire.Tool
