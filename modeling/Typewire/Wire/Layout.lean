-- How the values of a type lie on the wire.
-- A form is what a shape comes to once the shapes beside it are known: lists of bytes are
-- copied whole, and an option is a tag and its payload, unless the payload can be `null` by
-- itself.
import Typewire.Shape.Table
import Typewire.Shape.Text
import Typewire.Wire.Fault

namespace Typewire.Wire

/-- How the values of a type lie on the wire. -/
inductive Layout where
  | bool
  | str
  /-- An integer in the bytes of its width. -/
  | integer (k : IntKind)
  /-- An unsigned integer of a type, in as few bytes as it needs. -/
  | compact (k : IntKind)
  /-- Bytes, of one number or after their number. -/
  | bytes (length : Option Nat)
  /-- Elements after their number; those of a zero-sized type take no bytes. -/
  | sequence (element : TypeId) (zeroSized : Bool)
  | array (element : TypeId) (length : Nat)
  | tuple (members : List TypeId)
  | struct (fields : List Field)
  /-- The tag of a variant and then its payload. -/
  | enum (variants : List Variant)
  deriving DecidableEq, Repr

/-- How the values of a type lie on the wire, options included. -/
inductive Form where
  | plain (layout : Layout)
  /-- One tag for `null`, another before the payload, which lies as `payload` says. -/
  | option (tags : Shape.OptionForm) (payload : Layout)
  deriving DecidableEq, Repr

/-- The types whose values lie inside a layout. -/
def Layout.inner : Layout → List TypeId
  | sequence element _ | array element _ => [element]
  | tuple members => members
  | struct fields => fields.map (·.type)
  | enum variants => variants.filterMap (·.payload)
  | bool | str | integer _ | compact _ | bytes _ => []

/-- The types whose values lie inside a form. -/
def Form.inner : Form → List TypeId
  | plain layout => layout.inner
  | option tags _ => [tags.payload]

/-- The forms of types by their places. -/
abbrev Forms := TypeId → Except CodecError Form

end Typewire.Wire

namespace Typewire.Table

open Wire

/-! ## Walks -/

/-- The places that are reached from `pending` by `next`, added to those seen already; nothing
if `next` is missing at one of them. At most `room` places are new. -/
def reach (next : TypeId → Option (List TypeId)) :
    Nat → List TypeId → List TypeId → Option (List TypeId)
  | _, [], seen => some seen
  | room, id :: pending, seen =>
    if seen.contains id then reach next room pending seen
    else match room with
      | 0 => some seen
      | room + 1 =>
        match next id with
        | none => none
        | some ids => reach next room (ids ++ pending) (id :: seen)
termination_by room pending => (room, pending.length)

/-- The members that decide whether a type takes no bytes; nothing for a type that takes
some. -/
def sizedMembers (t : Table) (id : TypeId) : Option (List TypeId) :=
  match t.shape? id with
  | some (.tuple members) => some members
  | some (.struct fields) => some (fields.map (·.type))
  | some (.array element length) => if length = 0 then some [] else some [element]
  | _ => none

/-- No value of the type takes any byte. -/
def isZeroSized (t : Table) (id : TypeId) : Bool :=
  (reach t.sizedMembers (t.size + 1) [id] []).isSome

/-! ## Layouts -/

/-- The type is that of single bytes. -/
def isByte (t : Table) (id : TypeId) : Bool :=
  t.shape? id == some (.primitive (.integer ⟨false, .w8⟩))

/-- A value of the type can be `null`. -/
def holdsNull (t : Table) (id : TypeId) : Bool :=
  match t.shape? id with
  | some (.tuple members) => members.isEmpty
  | some (.enum variants) => (Shape.optionForm? variants).isSome
  | _ => false

/-- The layout of a shape, where an option is an enum like any other. -/
def layoutOf (t : Table) : Shape → Except CodecError Layout
  | .primitive .bool => .ok .bool
  | .primitive .str => .ok .str
  | .primitive (.integer k) => .ok (.integer k)
  | .compact inner =>
    match t.shape? inner with
    | some (.primitive (.integer ⟨false, width⟩)) => .ok (.compact ⟨false, width⟩)
    | _ => .error (.typeMismatch "unsigned integer inside compact" (t.text inner))
  | .sequence element =>
    if t.isByte element then .ok (.bytes none)
    else .ok (.sequence element (t.isZeroSized element))
  | .array element length =>
    if t.isByte element then .ok (.bytes (some length)) else .ok (.array element length)
  | .tuple members => .ok (.tuple members)
  | .struct fields => .ok (.struct fields)
  | .enum variants => .ok (.enum variants)

/-- The layout of the type at a place, where an option is an enum like any other. -/
def layout (t : Table) (id : TypeId) : Except CodecError Layout :=
  match t.shape? id with
  | some s => t.layoutOf s
  | none => .error (.unknownType id)

/-- The variants of an option whose payload cannot be `null` by itself. -/
def optionTags? (t : Table) (id : TypeId) : Option Shape.OptionForm :=
  match t.shape? id with
  | some (.enum variants) => (Shape.optionForm? variants).filter (!t.holdsNull ·.payload)
  | _ => none

/-- The form of the type at a place. -/
def form (t : Table) (id : TypeId) : Except CodecError Form :=
  match t.optionTags? id with
  | some tags => (t.layout tags.payload).map (.option tags)
  | none => (t.layout id).map .plain

/-- A table stands for the forms of its types. -/
instance : Coe Table Forms := ⟨form⟩

end Typewire.Table
