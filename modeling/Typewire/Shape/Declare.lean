-- A list of definitions becomes a table of shapes, all of it or none.
-- The names are declared first, then the generic bodies are looked over, then every other
-- definition is resolved in order.
import Typewire.Shape.Resolve

namespace Typewire

open Typewire.Language

/-! ## Declaring names -/

/-- The definitions looked at so far: the names of plain and of generic ones, and how far each
has come. -/
structure Declared where
  positionOf : List (String × Nat) := []
  generics : List (String × Generic) := []
  progress : Array Progress := #[]

namespace Declared

/-- The name is declared already. -/
def contains (d : Declared) (name : String) : Bool :=
  (d.positionOf.lookup name).isSome || (d.generics.lookup name).isSome

/-- What is wrong with the names that a definition declares. -/
def problem? (known : Declared) (name : String) (params : List String) : Option ResolveError :=
  if Primitive.isName name then some (.reservedName name)
  else if known.contains name then some (.duplicateName name)
  else (params.find? Primitive.isName).map .reservedName

/-- Declares the name of the next definition. -/
def add (known : Declared) (d : Definition) : Except ResolveError Declared :=
  let position := known.progress.size
  match d.name with
  | none => .ok { known with progress := known.progress.push .waiting }
  | some name =>
    match known.problem? name d.params with
    | some e => .error (e.within d.line (d.label position))
    | none =>
      if d.isGeneric then
        .ok { known with
          generics := (name, ⟨d.params, d.body, d.line⟩) :: known.generics
          progress := known.progress.push .generic }
      else
        .ok { known with
          positionOf := (name, position) :: known.positionOf
          progress := known.progress.push .waiting }

/-- Declares the names of all definitions. -/
def all (ds : List Definition) : Except ResolveError Declared := ds.foldlM add {}

/-! ## Generic bodies -/

/-- What is wrong with a use of a name with a number of arguments, inside a body over some
parameters. -/
def useProblem? (known : Declared) (params : List String) (name : String) (given : Nat) :
    Option ResolveError :=
  if params.contains name || (known.positionOf.lookup name).isSome || Primitive.isName name then
    if given = 0 then none else some (.notGeneric name)
  else match known.generics.lookup name with
    | none => some (.unknownType name)
    | some g =>
      if g.params.length = given then none
      else some (.genericArity name g.params.length given)

mutual

/-- Looks over the names in a type: each is known, and has as many arguments as it needs. -/
def checkNames (known : Declared) (params : List String) : TypeExpr → Except ResolveError Unit
  | .primitive name => if Primitive.isName name then .ok () else .error (.unknownPrimitive name)
  | .index position =>
    if position < known.progress.size then .ok () else .error (.unknownPlace position)
  | .named name args =>
    match known.useProblem? params name args.length with
    | some e => .error e
    | none => checkAll known params args
  | .compact inner => checkNames known params inner
  | .sequence element => checkNames known params element
  | .array element _ => checkNames known params element
  | .tuple members => checkAll known params members
  | .enum variants => checkPayloads known params variants
  | .struct fields => checkFields known params fields

/-- Looks over types from left to right. -/
def checkAll (known : Declared) (params : List String) :
    List TypeExpr → Except ResolveError Unit
  | [] => .ok ()
  | e :: es => do
    checkNames known params e
    checkAll known params es

/-- Looks over the payloads of variants. -/
def checkPayloads (known : Declared) (params : List String) :
    List (String × Option TypeExpr × Option Nat) → Except ResolveError Unit
  | [] => .ok ()
  | (_, some e, _) :: vs => do
    checkNames known params e
    checkPayloads known params vs
  | (_, none, _) :: vs => checkPayloads known params vs

/-- Looks over the types of fields. -/
def checkFields (known : Declared) (params : List String) :
    List (String × TypeExpr) → Except ResolveError Unit
  | [] => .ok ()
  | (_, e) :: fs => do
    checkNames known params e
    checkFields known params fs

end

/-- Looks over the bodies of the generic definitions. -/
def checkBodies (known : Declared) (ds : List Definition) : Except ResolveError Unit :=
  ds.zipIdx.forM fun (d, position) =>
    if d.isGeneric then
      (checkNames known d.params d.body).mapError (·.within d.line (d.label position))
    else .ok ()

end Declared

/-! ## The table -/

namespace Program

/-- Resolves every definition that is not generic, in order. -/
def resolveAll (p : Program) : Resolving Unit :=
  (List.range p.definitions.size).forM fun position => do
    match (← get).progress.getD position .generic with
    | .generic => pure ()
    | _ => discard <| p.resolve (.index position) [] 0

end Program

/-- The table of some definitions. -/
def Table.ofDefinitions (ds : List Definition) : Except ResolveError Table := do
  let known ← Declared.all ds
  known.checkBodies ds
  let table : Table := {
    positions := Array.replicate ds.length none
    positionNames := (ds.map (·.name)).toArray
    generics := known.generics }
  let p : Program := ⟨ds.toArray, known.positionOf⟩
  let (result, w) := p.resolveAll.run.run { table, progress := known.progress }
  result
  let t ← fillAll w.table w.aliases
  t.check 0
  return t

/-! ## Types that come later -/

/-- Resolves a type in a finished table, and adds the places that it needs. -/
def Table.extend (t : Table) (e : TypeExpr) : Except ResolveError TypeId × Table :=
  let (result, w) := (Program.resolve {} e [] 0).run.run { table := t }
  let finished : Except ResolveError (TypeId × Table) := do
    let id ← result
    let extended ← fillAll w.table w.aliases
    extended.check t.size
    return (id, extended)
  match finished with
  | .ok (id, extended) => (.ok id, extended)
  | .error e => (.error e, w.table.rollback t.size)

end Typewire
