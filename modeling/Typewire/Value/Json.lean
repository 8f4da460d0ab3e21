-- Values as JSON, and JSON as values.
-- Bytes become text in hexadecimal digits after `0x`, and an integer outside 64 bits becomes
-- text that ends in `n`. JSON numbers with fraction or exponent are no values.
import Typewire.Json.Read
import Typewire.Value.Basic
import Typewire.Wire.Fault

namespace Typewire.Value

mutual

/-- The JSON form of a value. -/
def toJson : Value → Json
  | null => .null
  | bool b => .bool b
  | integer n => .integer n.toInt
  | bigInteger n => if fitsNative n then .integer n else .string (toString n ++ "n")
  | bytes bs => .string ("0x" ++ Text.Hex.encode bs)
  | text s => .string s
  | list items => .array (toJsonItems items)
  | map entries => .object (toJsonEntries entries)

/-- The JSON forms of items. -/
def toJsonItems : List Value → List Json
  | [] => []
  | v :: vs => v.toJson :: toJsonItems vs

/-- The JSON forms of entries. -/
def toJsonEntries : List (String × Value) → List (String × Json)
  | [] => []
  | (k, v) :: rest => (k, v.toJson) :: toJsonEntries rest

end

mutual

/-- The value that a JSON value stands for. -/
def ofJson : Json → Except CodecError Value
  | .null => .ok .null
  | .bool b => .ok (.bool b)
  | .integer n => .ok (ofInt n)
  | .float x => .error (.typeMismatch "integer" ("number " ++ Decimal.ofFloat x))
  | .string s => .ok (.text s)
  | .array items => .list <$> ofJsonItems items
  | .object entries => .map <$> ofJsonEntries entries

/-- The values that items stand for. -/
def ofJsonItems : List Json → Except CodecError (List Value)
  | [] => .ok []
  | j :: js => do
    let v ← ofJson j
    return v :: (← ofJsonItems js)

/-- The values that entries stand for. -/
def ofJsonEntries : List (String × Json) → Except CodecError (List (String × Value))
  | [] => .ok []
  | (k, j) :: rest => do
    let v ← ofJson j
    return (k, v) :: (← ofJsonEntries rest)

end

/-- The value that a JSON text writes. -/
def parseJson (text : String) : Except CodecError Value :=
  match Json.parse text with
  | .ok j => ofJson j
  | .error fault => .error (.invalidJson fault)

/-- The JSON text of a value. -/
def jsonText (v : Value) (style : Json.Style) : String := v.toJson.write style 0

end Typewire.Value
