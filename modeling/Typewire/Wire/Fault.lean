-- What can go wrong when a value is encoded or bytes are decoded.
import Typewire.Json.Fault
import Typewire.Shape.Basic
import Typewire.Text.Hex
import Typewire.Text.Utf8

namespace Typewire

/-- Why a value has no encoding, or bytes are none. -/
inductive CodecError where
  /-- A value of one kind where another was needed. -/
  | typeMismatch (expected found : String)
  /-- More or fewer elements than the type has. -/
  | arityMismatch (expected found : Nat)
  | unknownVariant (name : String)
  /-- A payload for a variant that carries none. -/
  | unexpectedPayload (name : String)
  | missingField (name : String)
  | integerOutOfRange (value type : String)
  | invalidHex (fault : Text.Hex.Fault)
  | invalidJson (fault : Json.Fault)
  | bufferTooSmall (need got : Nat)
  | invalidTag (tag : UInt8)
  | invalidBool (byte : UInt8)
  | invalidUtf8 (fault : Text.Utf8.Fault)
  /-- A compact integer in more bytes than it needs. -/
  | nonCanonicalCompact
  /-- Too many elements that take no bytes. -/
  | sequenceTooLong (length limit : Nat)
  | nestingTooDeep (limit : Nat)
  | trailingBytes (count : Nat)
  /-- A type that the table does not hold. -/
  | unknownType (id : TypeId)
  deriving DecidableEq, Repr

namespace CodecError

/-- A byte as two hexadecimal digits. -/
def byteText (b : UInt8) : String := "0x" ++ Text.Hex.encode [b]

/-- The error in words. -/
def message : CodecError → String
  | typeMismatch expected found => s!"type mismatch: expected {expected}, found {found}"
  | arityMismatch expected found =>
    s!"length mismatch: expected {expected} element(s), found {found}"
  | unknownVariant name => s!"unknown enum variant `{name}`"
  | unexpectedPayload name => s!"enum variant `{name}` carries no payload"
  | missingField name => s!"missing struct field `{name}`"
  | integerOutOfRange value type => s!"integer {value} does not fit in {type}"
  | invalidHex fault => s!"invalid hex text: {fault.message}"
  | invalidJson fault => s!"invalid JSON: {fault.message}"
  | bufferTooSmall need got => s!"buffer too small: need {need} bytes, have {got}"
  | invalidTag tag => s!"no enum variant with tag {tag}"
  | invalidBool byte => s!"invalid boolean byte {byteText byte}"
  | invalidUtf8 fault => s!"invalid UTF-8 in string: {fault.message}"
  | nonCanonicalCompact => "non-canonical compact integer encoding"
  | sequenceTooLong length limit =>
    s!"sequence of {length} zero-sized elements exceeds the limit of {limit}"
  | nestingTooDeep limit => s!"value nesting exceeds the limit of {limit} levels"
  | trailingBytes count => s!"{count} trailing byte(s) after decoded value"
  | unknownType id => s!"no codec for type id {TypeId.text id}"

end CodecError

end Typewire
