-- The values that are encoded and decoded.
-- An integer is held in 64 bits or in as many as it needs; both are equal when the numbers
-- are. An enum value is a map of one entry, from the name of the variant to its payload.
import Typewire.Entries

namespace Typewire

/-- A value. -/
inductive Value where
  | null
  | bool (b : Bool)
  /-- An integer that is held in 64 bits. -/
  | integer (n : Int64)
  /-- An integer of any size. -/
  | bigInteger (n : Int)
  | bytes (bytes : List UInt8)
  | text (text : String)
  | list (items : List Value)
  /-- Values by key, in the order of the keys, each key once. -/
  | map (entries : List (String × Value))
  deriving Repr, Inhabited

namespace Value

/-! ## Making values -/

/-- The map of some entries; of two with one key the later counts. -/
def ofEntries (entries : List (String × Value)) : Value := .map (sortEntries entries)

/-- An enum value: the name of the variant and its payload. -/
def variant (name : String) (payload : Value) : Value := .map [(name, payload)]

/-- An enum value in its explicit form: the name under `tag` and the payload under `value`. -/
def tagged (name : String) (payload : Value) : Value :=
  .map [("tag", .text name), ("value", payload)]

/-- The integer fits in 64 bits with a sign. -/
def fitsNative (n : Int) : Bool := -(Int.pow 2 63) ≤ n && n < Int.pow 2 63

/-- An integer, held in 64 bits where it fits. -/
def ofInt (n : Int) : Value := if fitsNative n then .integer (.ofInt n) else .bigInteger n

/-! ## Looking into values -/

/-- What messages call a value. -/
def kindName : Value → String
  | null => "null"
  | bool _ => "bool"
  | integer _ | bigInteger _ => "integer"
  | bytes _ => "bytes"
  | text _ => "text"
  | list _ => "list"
  | map _ => "map"

/-- The value is `null`. -/
def isNull : Value → Bool
  | null => true
  | _ => false

/-- The integer that a value is, however it is held. -/
def int? : Value → Option Int
  | integer n => some n.toInt
  | bigInteger n => some n
  | _ => none

/-- The integer that a value is, if it fits in 64 bits. -/
def int64? (v : Value) : Option Int := v.int?.filter fitsNative

/-- The truth value that a value is. -/
def bool? : Value → Option Bool
  | bool b => some b
  | _ => none

/-- The bytes that a value is. -/
def bytes? : Value → Option (List UInt8)
  | bytes bs => some bs
  | _ => none

/-- The text that a value is. -/
def text? : Value → Option String
  | text s => some s
  | _ => none

/-- The items of a list. -/
def list? : Value → Option (List Value)
  | list items => some items
  | _ => none

/-- The entries of a map. -/
def map? : Value → Option (List (String × Value))
  | map entries => some entries
  | _ => none

/-- The value under a key of a map. -/
def get? (v : Value) (key : String) : Option Value := v.map?.bind (·.lookup key)

/-! ## Equality -/

mutual

/-- Two values are equal, where integers count as numbers. -/
def eq : Value → Value → Bool
  | null, null => true
  | bool a, bool b => a == b
  | integer a, integer b => a == b
  | integer a, bigInteger b => a.toInt == b
  | bigInteger a, integer b => a == b.toInt
  | bigInteger a, bigInteger b => a == b
  | bytes a, bytes b => a == b
  | text a, text b => a == b
  | list a, list b => eqItems a b
  | map a, map b => eqEntries a b
  | _, _ => false

/-- Lists of equal values at the same places. -/
def eqItems : List Value → List Value → Bool
  | [], [] => true
  | a :: as, b :: bs => eq a b && eqItems as bs
  | _, _ => false

/-- Entries with the same keys and equal values, in the same order. -/
def eqEntries : List (String × Value) → List (String × Value) → Bool
  | [], [] => true
  | (k, a) :: as, (l, b) :: bs => k == l && eq a b && eqEntries as bs
  | _, _ => false

end

instance : BEq Value := ⟨eq⟩

end Value

end Typewire
