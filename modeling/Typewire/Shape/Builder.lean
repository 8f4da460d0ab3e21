-- A table of shapes built by hand, without text of the type language.
-- Each step checks the names and the shape that it is given; the whole is checked in the end.
import Typewire.Shape.Check

namespace Typewire

namespace Table

/-! ## Adding -/

/-- What is wrong with a name for a new definition. -/
def nameProblem? (t : Table) (name : String) : Option ResolveError :=
  if Primitive.isName name then some (.reservedName name)
  else if (t.names.lookup name).isSome then some (.duplicateName name)
  else none

/-- The place of a shape that is sound by itself. -/
def internChecked (t : Table) (s : Shape) : Except ResolveError (TypeId × Table) := do
  s.check
  return t.intern s

/-- Adds a definition at the next position. -/
def place (t : Table) (name : Option String) (id : TypeId) : Table :=
  { t with positions := t.positions.push (some id), positionNames := t.positionNames.push name }

/-- Adds a definition without a name. -/
def add (t : Table) (s : Shape) : Except ResolveError (TypeId × Table) := do
  let (id, t) ← t.internChecked s
  return (id, t.place none id)

/-- Adds a definition with a name. -/
def addNamed (t : Table) (name : String) (s : Shape) : Except ResolveError (TypeId × Table) := do
  if let some e := t.nameProblem? name then throw e
  let (id, t) ← t.internChecked s
  return (id, (t.place (some name) id).bindName name id)

/-- Adds a definition with a name and a place whose shape comes later. -/
def addReserved (t : Table) (name : String) : Except ResolveError (TypeId × Table) := do
  if let some e := t.nameProblem? name then throw e
  let (id, t) := t.reserve
  return (id, (t.place (some name) id).bindName name id)

/-- Gives a reserved place its shape. -/
def define (t : Table) (id : TypeId) (s : Shape) : Except ResolveError Table := do
  if !t.contains id || (t.shape? id).isSome then throw (.unknownPlace id)
  s.check
  return t.fill id s

/-- The table as it is, if it keeps the rules. -/
def build (t : Table) : Except ResolveError Table := do
  t.check 0
  return t

end Table

/-! ## Enums -/

/-- A variant as it is asked for: without a tag it takes the next one. -/
structure VariantDraft where
  name : String
  payload : Option TypeId := none
  tag : Option UInt8 := none

/-- The variants that some drafts ask for. The tag of a draft without one is its place in the
enum, in one byte. -/
def Shape.ofDrafts (drafts : List VariantDraft) : Shape :=
  .enum (drafts.mapIdx fun i d => ⟨d.name, d.tag.getD (UInt8.ofNat i), d.payload⟩)

end Typewire
