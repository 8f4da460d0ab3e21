-- The shapes that types come down to once their names are looked up.
-- A shape names the types inside it by their places in a table, so shapes can form cycles
-- without holding each other.
import Typewire.Primitive

namespace Typewire

/-- The place of a shape in its table. -/
abbrev TypeId := Nat

/-- How messages and listings write a place. -/
def TypeId.text (id : TypeId) : String := "#" ++ toString id

/-- One way an enum value can be: a name, the byte that stands for it, and the type of what it
carries, if it carries anything. -/
structure Variant where
  name : String
  tag : UInt8
  payload : Option TypeId
  deriving DecidableEq, Repr, Inhabited

/-- A named part of a struct. -/
structure Field where
  name : String
  type : TypeId
  deriving DecidableEq, Repr, Inhabited

/-- What a type is made of. -/
inductive Shape where
  | primitive (p : Primitive)
  /-- An unsigned integer in as few bytes as it needs. -/
  | compact (inner : TypeId)
  /-- A list of any length. -/
  | sequence (element : TypeId)
  /-- A list of one length. -/
  | array (element : TypeId) (length : Nat)
  /-- Members without names; without any member it is the unit type. -/
  | tuple (members : List TypeId)
  /-- One of several variants. -/
  | enum (variants : List Variant)
  /-- Named fields, in the order in which they are encoded. -/
  | struct (fields : List Field)
  deriving DecidableEq, Repr, Inhabited

namespace Shape

/-- The type with one value. -/
def unit : Shape := .tuple []

/-- The shape is the unit type. -/
def isUnit (s : Shape) : Bool := s == .unit

/-- The shape is a primitive. -/
def isPrimitive : Shape → Bool
  | primitive _ => true
  | _ => false

/-- The types that the shape names. -/
def references : Shape → List TypeId
  | primitive _ => []
  | compact inner | sequence inner | array inner _ => [inner]
  | tuple members => members
  | enum variants => variants.filterMap (·.payload)
  | struct fields => fields.map (·.type)

/-- The types of which every value of the shape holds a value. -/
def unguarded : Shape → List TypeId
  | compact inner => [inner]
  | array element length => if length = 0 then [] else [element]
  | tuple members => members
  | struct fields => fields.map (·.type)
  | primitive _ | sequence _ | enum _ => []

/-! ## Parts -/

/-- The fields of a struct. -/
def fields? : Shape → Option (List Field)
  | struct fields => some fields
  | _ => none

/-- The field of a name, in a struct. -/
def field? (s : Shape) (name : String) : Option Field :=
  s.fields?.bind (·.find? (·.name == name))

/-- The variants of an enum. -/
def variants? : Shape → Option (List Variant)
  | enum variants => some variants
  | _ => none

/-- The variant of a name, in an enum. -/
def variant? (s : Shape) (name : String) : Option Variant :=
  s.variants?.bind (·.find? (·.name == name))

/-- The variant of a tag, in an enum. -/
def variantOfTag? (s : Shape) (tag : UInt8) : Option Variant :=
  s.variants?.bind (·.find? (·.tag == tag))

/-! ## Options -/

/-- An enum of the two variants `_None`, without a payload, and `_Some`, with one. -/
structure OptionForm where
  noneTag : UInt8
  someTag : UInt8
  payload : TypeId
  deriving DecidableEq, Repr

/-- The variants as an option. -/
def optionForm? : List Variant → Option OptionForm
  | [⟨"_None", noneTag, none⟩, ⟨"_Some", someTag, some payload⟩] =>
    some ⟨noneTag, someTag, payload⟩
  | _ => none

/-- The payload type of an option. -/
def optionPayload? (s : Shape) : Option TypeId :=
  (s.variants?.bind optionForm?).map (·.payload)

end Shape

end Typewire
