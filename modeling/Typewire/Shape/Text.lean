-- Types as text in the type language, from the table of shapes.
-- A type that has a label is shown by it, any other by its structure. The text runs on a
-- budget: once it is spent, and at a type that is being shown already, the place is shown
-- instead.
import Typewire.Shape.Table

namespace Typewire

open Typewire.Language

/-! ## One level -/

/-- The written form of a variant at a place in its enum; a tag equal to that place is left
out. -/
def Variant.textWith {m : Type → Type} [Monad m] (textOf : TypeId → m String)
    (v : Variant) (place : Nat) : m String := do
  let tag := if v.tag.toNat = place then none else some (toString v.tag.toNat)
  match v.payload with
  | some p =>
    let payload ← textOf p
    match tag with
    | some tag => return v.name ++ ":" ++ payload ++ ":" ++ tag
    | none => return v.name ++ ":" ++ payload
  | none =>
    match tag with
    | some tag => return v.name ++ "::" ++ tag
    | none => return v.name

/-- The written form of a shape whose inner types are shown by `textOf`, from left to right. -/
def Shape.textWith {m : Type → Type} [Monad m] (textOf : TypeId → m String) :
    Shape → m String
  | .primitive p => return p.name
  | .compact inner => return "@" ++ (← textOf inner)
  | .sequence element => return "[" ++ (← textOf element) ++ "]"
  | .array element length => return "[" ++ (← textOf element) ++ ";" ++ toString length ++ "]"
  | .tuple members => return "(" ++ commaJoined (← members.mapM textOf) ++ ")"
  | .enum variants =>
    return "<" ++ commaJoined (← variants.zipIdx.mapM fun (v, i) => v.textWith textOf i) ++ ">"
  | .struct fields =>
    return "\x7b"
      ++ commaJoined (← fields.mapM fun f => return f.name ++ ":" ++ (← textOf f.type)) ++ "\x7d"

/-! ## All levels -/

namespace Table

/-- How many bytes of names and places one text may spend. -/
def textBudget : Nat := 1024

/-- The text of a type inside the types `path`, as far as `room` levels and the budget reach.
The state is the budget that is left. -/
def textWithin (t : Table) : Nat → List TypeId → TypeId → StateM Nat String
  | 0, _, id => return id.text
  | room + 1, path, id => do
    if (← get) = 0 then return id.text
    modify (· - 1)
    match t.labels.lookup id with
    | some label =>
      modify (· - label.utf8ByteSize)
      return label
    | none =>
      if path.contains id then return id.text
      match t.shape? id with
      | none => return id.text
      | some (.primitive p) =>
        modify (· - p.name.utf8ByteSize)
        return p.name
      | some s => s.textWith (t.textWithin room (id :: path))

/-- The text of a type: its label, else its structure. -/
def text (t : Table) (id : TypeId) : String :=
  ((t.textWithin (textBudget + 1) [] id).run textBudget).1

/-- The structure of a type, also where it has a label. -/
def bodyText (t : Table) (id : TypeId) : String :=
  match t.shape? id with
  | none => id.text
  | some s => ((s.textWith (t.textWithin (textBudget + 1) [id])).run textBudget).1

end Table

end Typewire
