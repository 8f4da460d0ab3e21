-- The table of shapes: each shape at its place, and the names that lead to places.
-- Equal shapes share one place, except where a place was reserved before its shape was known.
import Typewire.Language.TypeExpr
import Typewire.Shape.Fault

namespace Typewire

open Typewire.Language

/-- A generic definition, kept as it is written until it is given arguments. -/
structure Generic where
  params : List String
  body : TypeExpr
  line : Nat
  deriving Repr, Inhabited

/-- A generic type together with the places of its arguments. -/
structure InstanceKey where
  name : String
  args : List TypeId
  deriving DecidableEq, Repr, Inhabited

/-- The shapes and what is known of them. -/
structure Table where
  /-- A place without a shape is reserved for a type that is still being read. -/
  slots : Array (Option Shape) := #[]
  /-- The place at which a shape is looked up. -/
  interned : List (Shape × TypeId) := []
  /-- The types of the definitions in order; a generic definition has none. -/
  positions : Array (Option TypeId) := #[]
  positionNames : Array (Option String) := #[]
  names : List (String × TypeId) := []
  /-- The text by which a place is shown. -/
  labels : List (TypeId × String) := []
  /-- The places with more than one declared name, which are shown by their structure. -/
  shared : List TypeId := []
  generics : List (String × Generic) := []
  /-- The places of generic types whose arguments are given. -/
  instances : List (InstanceKey × TypeId) := []
  /-- The places of the expressions that were looked up by their text. -/
  expressions : List (String × TypeId) := []
  deriving Repr, Inhabited

namespace Table

/-! ## Places -/

/-- How many places there are. -/
def size (t : Table) : Nat := t.slots.size

/-- The shape at a place. -/
def shape? (t : Table) (id : TypeId) : Option Shape := (t.slots[id]?).join

/-- The place is one of the table. -/
def contains (t : Table) (id : TypeId) : Bool := id < t.size

/-- The place of a shape: where it stands already, else a new place at the end. -/
def intern (t : Table) (s : Shape) : TypeId × Table :=
  match t.interned.lookup s with
  | some id => (id, t)
  | none =>
    (t.size, { t with slots := t.slots.push (some s), interned := (s, t.size) :: t.interned })

/-- A new place at the end, for a shape that comes later. -/
def reserve (t : Table) : TypeId × Table :=
  (t.size, { t with slots := t.slots.push none })

/-- Puts a shape at a reserved place. Where the shape is looked up stays, if it stood
somewhere. -/
def fill (t : Table) (id : TypeId) (s : Shape) : Table :=
  { t with
    slots := t.slots.setIfInBounds id (some s)
    interned := if (t.interned.lookup s).isSome then t.interned else (s, id) :: t.interned }

/-! ## Names -/

/-- Gives a place its label, unless it has one, or is shared, or holds a primitive. -/
def setLabel (t : Table) (id : TypeId) (label : String) : Table :=
  if t.shared.contains id || (t.shape? id).any (·.isPrimitive)
      || (t.labels.lookup id).isSome then t
  else { t with labels := (id, label) :: t.labels }

/-- Binds a declared name to a place. A place that two names lead to is labelled by neither. -/
def bindName (t : Table) (name : String) (id : TypeId) : Table :=
  if t.names.lookup name = some id then t
  else
    let t :=
      if t.names.any (·.2 == id) then
        { t with labels := t.labels.filter (·.1 != id), shared := id :: t.shared }
      else t.setLabel id name
    { t with names := (name, id) :: t.names }

/-- The type of the definition at a position. -/
def typeAt (t : Table) (position : Nat) : Except ResolveError TypeId :=
  match t.positions[position]? with
  | some (some id) => .ok id
  | some none => .error (.missingArguments ("#" ++ toString position))
  | none => .error (.unknownPlace position)

/-! ## Undoing -/

/-- The table without the places from `mark` on, and without all that leads to them. -/
def rollback (t : Table) (mark : Nat) : Table :=
  { t with
    slots := t.slots.take mark
    interned := t.interned.filter (·.2 < mark)
    labels := t.labels.filter (·.1 < mark)
    shared := t.shared.filter (· < mark)
    instances := t.instances.filter (·.2 < mark)
    expressions := t.expressions.filter (·.2 < mark) }

end Table

end Typewire
