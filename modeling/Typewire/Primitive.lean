-- The primitive types: truth values, integers of a fixed width, and text.
namespace Typewire

/-! ## Integers -/

/-- The widths an integer can have. -/
inductive Width where
  | w8 | w16 | w32 | w64 | w128 | w256
  deriving DecidableEq, Repr, Inhabited

namespace Width

/-- How many bytes the integer takes. -/
def bytes : Width → Nat
  | w8 => 1
  | w16 => 2
  | w32 => 4
  | w64 => 8
  | w128 => 16
  | w256 => 32

/-- How many bits the integer takes. -/
def bits (w : Width) : Nat := 8 * w.bytes

/-- The width in decimal digits. -/
def text : Width → String
  | w8 => "8"
  | w16 => "16"
  | w32 => "32"
  | w64 => "64"
  | w128 => "128"
  | w256 => "256"

/-- Every width, from the least. -/
def all : List Width := [w8, w16, w32, w64, w128, w256]

end Width

/-- An integer type: a width, with a sign or without. -/
structure IntKind where
  isSigned : Bool
  width : Width
  deriving DecidableEq, Repr, Inhabited

namespace IntKind

/-- The name of the type, as `u8` or `i256`. -/
def name (k : IntKind) : String := (if k.isSigned then "i" else "u") ++ k.width.text

/-- The least integer of the type. -/
def least (k : IntKind) : Int := if k.isSigned then -(Int.pow 2 (k.width.bits - 1)) else 0

/-- The first integer above the type. -/
def bound (k : IntKind) : Int :=
  if k.isSigned then Int.pow 2 (k.width.bits - 1) else Int.pow 2 k.width.bits

/-- The integer is one of the type. -/
def holds (k : IntKind) (n : Int) : Bool := k.least ≤ n && n < k.bound

/-- Every integer of the type is a signed 64-bit integer. -/
def fitsNative (k : IntKind) : Bool :=
  match k.width with
  | .w8 | .w16 | .w32 => true
  | .w64 => k.isSigned
  | .w128 | .w256 => false

end IntKind

/-! ## Primitives -/

/-- A type that holds no other type. -/
inductive Primitive where
  | bool
  | integer (kind : IntKind)
  | str
  deriving DecidableEq, Repr, Inhabited

namespace Primitive

/-- The name that the type language gives to the primitive. -/
def name : Primitive → String
  | bool => "bool"
  | integer kind => kind.name
  | str => "str"

/-- Every primitive once. -/
def all : List Primitive :=
  bool :: Width.all.map (integer ⟨false, ·⟩) ++ Width.all.map (integer ⟨true, ·⟩) ++ [str]

/-- The primitive of a name. -/
def ofName? (name : String) : Option Primitive := all.find? (·.name == name)

/-- The name belongs to a primitive. -/
def isName (name : String) : Bool := (ofName? name).isSome

/-- How many bytes a value takes, where all values take the same. -/
def size? : Primitive → Option Nat
  | bool => some 1
  | integer kind => some kind.width.bytes
  | str => none

/-- An integer type, signed or not. -/
def isInteger : Primitive → Bool
  | integer _ => true
  | _ => false

/-- A signed integer type. -/
def isSigned : Primitive → Bool
  | integer kind => kind.isSigned
  | _ => false

/-- An unsigned integer type. -/
def isUnsigned : Primitive → Bool
  | integer kind => !kind.isSigned
  | _ => false

/-- An integer type whose values are all signed 64-bit integers. -/
def fitsNative : Primitive → Bool
  | integer kind => kind.fitsNative
  | _ => false

end Primitive

end Typewire
