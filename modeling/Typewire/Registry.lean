-- A registry: the types that are known, and what can be asked of them.
-- Types come from definitions, from a hand-built table, or from expressions that are resolved
-- later; those that are known keep their places.
import Typewire.Language.Grammar
import Typewire.Shape.Builder
import Typewire.Shape.Declare
import Typewire.Value.Json
import Typewire.Wire.Decode
import Typewire.Wire.Write

namespace Typewire

open Typewire.Language Wire

/-! ## Errors -/

/-- What can go wrong with a registry. -/
inductive Error where
  | grammar (e : SyntaxError)
  | resolve (e : ResolveError)
  | codec (e : CodecError)
  deriving Repr

/-- The error in words. -/
def Error.message : Error → String
  | .grammar e => s!"grammar error: {e.message}"
  | .resolve e => s!"resolution error: {e.message}"
  | .codec e => s!"codec error: {e.message}"

/-! ## Type references -/

/-- The ways to name a type of a registry. -/
inductive TypeRef where
  /-- The definition at a position. -/
  | position (n : Nat)
  /-- A type in the type language. -/
  | expr (text : String)
  /-- The tuple of the definitions at some positions. -/
  | tuple (positions : List Nat)
  | id (id : TypeId)
  deriving DecidableEq, Repr

/-- The tuple of some types by their names. -/
def TypeRef.ofNames (names : List String) : TypeRef :=
  .expr ("(" ++ ", ".intercalate names ++ ")")

/-! ## Registries -/

/-- The known types, and the forms of those whose values can be encoded and decoded already. -/
structure Registry where
  table : Table
  ready : List (TypeId × Form) := []
  deriving Repr

/-- A question to a registry. It may add types to it, also where it fails. -/
abbrev Asking := ExceptT Error (StateM Registry)

namespace Registry

/-- No types at all. -/
def empty : Registry := { table := {} }

/-- The registry of some definitions. -/
def ofDefinitions (ds : List Definition) : Except ResolveError Registry := do
  return { table := ← Table.ofDefinitions ds }

/-- The registry of a text in the type language. -/
def parse (text : String) : Except Error Registry :=
  match parseDefinitions text with
  | .error e => .error (.grammar e)
  | .ok ds => (ofDefinitions ds).mapError .resolve

/-! ## Looking up -/

/-- How many types are known. -/
def size (r : Registry) : Nat := r.table.size

/-- The declared name of the definition at a position. -/
def positionName? (r : Registry) (position : Nat) : Option String :=
  (r.table.positionNames[position]?).join

/-- The type of a declared name. -/
def lookup? (r : Registry) (name : String) : Option TypeId := r.table.names.lookup name

/-- The declared names with their types, in the order of the names. -/
def names (r : Registry) : List (String × TypeId) := sortEntries r.table.names

/-- The names of the generic definitions, in order. -/
def generics (r : Registry) : List String := (sortEntries r.table.generics).map (·.1)

/-- The registry in numbers. -/
def summary (r : Registry) : String :=
  let t := r.table
  let counts := [("descriptors", t.size), ("positions", t.positions.size),
    ("names", t.names.length), ("generics", t.generics.length), ("codecs", r.ready.length)]
  let texts := counts.map fun (name, count) => name ++ ": " ++ toString count
  "Registry \x7b " ++ ", ".intercalate texts ++ " \x7d"

/-! ## Resolving -/

/-- The outcome of a question that changes nothing. -/
def ofExcept {ε α : Type} (wrap : ε → Error) (r : Except ε α) : Asking α :=
  match r with
  | .ok a => return a
  | .error e => throw (wrap e)

/-- The type of the definition at a position. -/
def typeAt (position : Nat) : Asking TypeId := do
  ofExcept .resolve ((← get).table.typeAt position)

/-- The type that an expression stands for. -/
def resolveExpr (e : TypeExpr) : Asking TypeId := do
  let (result, table) := (← get).table.extend e
  modify ({ · with table })
  ofExcept .resolve result

/-- The type that a text stands for; a text that was resolved before has the same type. -/
def resolve (text : String) : Asking TypeId := do
  if let some id := (← get).table.expressions.lookup text then return id
  let e ← ofExcept .grammar (parseTypeExpr text)
  let id ← resolveExpr e
  modify fun r =>
    { r with table := { r.table with expressions := (text, id) :: r.table.expressions } }
  return id

/-- The tuple of the definitions at some positions. -/
def resolveTuple (positions : List Nat) : Asking TypeId := do
  let members ← ofExcept .resolve (positions.mapM (← get).table.typeAt)
  let (id, table) := (← get).table.intern (.tuple members)
  modify ({ · with table })
  return id

/-- The type that a reference names. -/
def typeId : TypeRef → Asking TypeId
  | .position n => typeAt n
  | .expr text => resolve text
  | .tuple positions => resolveTuple positions
  | .id id => do
    if (← get).table.contains id then return id else throw (.resolve (.unknownPlace id))

/-! ## Encoding and decoding -/

/-- The form of the type at a place: the one kept for it, else the one that the table has now. -/
def form (r : Registry) : Forms := fun id =>
  match r.ready.lookup id with
  | some form => .ok form
  | none => r.table.form id

/-- The form of the type at a place. It is kept when it is first asked for. -/
def prepare (id : TypeId) : Asking Form := do
  let r ← get
  let form ← ofExcept .codec (r.form id)
  if (r.ready.lookup id).isNone then set { r with ready := (id, form) :: r.ready }
  return form

/-- Makes types ready, one after another. -/
def prepareAll (ids : List TypeId) : Asking Unit := ids.forM fun id => discard (prepare id)

/-- The types whose values lie inside values of a type. -/
def innerTypes (r : Registry) (id : TypeId) : List TypeId :=
  match r.form id with
  | .ok form => form.inner
  | .error _ => []

/-- The types whose values lie somewhere inside values of a type, and that type. -/
def reachable (r : Registry) (id : TypeId) : List TypeId :=
  (Table.reach (fun id => some (r.innerTypes id)) (r.size + 1) [id] []).getD []

/-- Makes a type ready, with all types whose values lie inside its values. -/
def codec (ref : TypeRef) : Asking TypeId := do
  let id ← typeId ref
  prepareAll (reachable (← get) id)
  return id

end Registry

/-! ## Encodings of a table -/

namespace Wire.Forms

/-- The bytes of a value of a type. -/
def encode (forms : Forms) (id : TypeId) (v : Value) : Except CodecError (List UInt8) :=
  (Wire.encode forms v id).result

/-- Writes a value of a type after some bytes. What was written stays, also where writing
stops. -/
def encodeOnto (forms : Forms) (bytes : List UInt8) (id : TypeId) (v : Value) : Encoding :=
  (putValue forms v id).onto bytes

/-- The value at the front of some bytes, and how many of them it takes. -/
def decodePrefix (forms : Forms) (id : TypeId) (bytes : List UInt8) :
    Except CodecError (Value × Nat) := do
  let (v, rest) ← (Wire.decode forms id).run bytes
  return (v, bytes.length - rest.length)

/-- The value that all the bytes are. -/
def decode (forms : Forms) (id : TypeId) (bytes : List UInt8) : Except CodecError Value := do
  let (v, used) ← forms.decodePrefix id bytes
  if used = bytes.length then return v else throw (.trailingBytes (bytes.length - used))

end Wire.Forms

namespace Table

/-- The bytes of a value of a type. -/
def encode (t : Table) (id : TypeId) (v : Value) : Except CodecError (List UInt8) :=
  Encoding.result (Wire.encode t v id)

/-- Writes a value of a type after some bytes. What was written stays, also where writing
stops. -/
def encodeOnto (t : Table) (bytes : List UInt8) (id : TypeId) (v : Value) : Encoding :=
  Forms.encodeOnto t bytes id v

/-- The value at the front of some bytes, and how many of them it takes. -/
def decodePrefix (t : Table) (id : TypeId) (bytes : List UInt8) :
    Except CodecError (Value × Nat) := Forms.decodePrefix t id bytes

/-- The value that all the bytes are. -/
def decode (t : Table) (id : TypeId) (bytes : List UInt8) : Except CodecError Value :=
  Forms.decode t id bytes

end Table

namespace Registry

/-- The bytes of a value of a type. -/
def encode (ref : TypeRef) (v : Value) : Asking (List UInt8) := do
  let id ← codec ref
  ofExcept .codec ((← get).form.encode id v)

/-- The value of a type that all the bytes are. -/
def decode (ref : TypeRef) (bytes : List UInt8) : Asking Value := do
  let id ← codec ref
  ofExcept .codec ((← get).form.decode id bytes)

end Registry

end Typewire
