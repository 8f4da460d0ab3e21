-- Written types become shapes of a table.
-- A type that is met again while it is being resolved is given a reserved place, which is
-- filled once its shape is known. That is allowed only behind at least one bracket of the
-- types that lead back to it; else the type would be equal to itself and nothing more.
import Typewire.Shape.Check

namespace Typewire

open Typewire.Language

/-! ## Work in progress -/

/-- A definition or a generic instance whose body is being resolved. -/
structure Underway where
  /-- How many brackets stood open where it was met first. -/
  nesting : Nat
  /-- The place given to those that met it again. -/
  reserved : Option TypeId
  deriving DecidableEq, Repr, Inhabited

/-- How far a definition has come. -/
inductive Progress where
  | waiting
  | underway (u : Underway)
  | done (id : TypeId)
  | generic
  deriving DecidableEq, Repr, Inhabited

/-- The definitions that are being resolved, with the positions of the names they declare. A
generic name has no position. -/
structure Program where
  definitions : Array Definition := #[]
  positionOf : List (String × Nat) := []

/-- What resolution changes as it goes. -/
structure Workspace where
  table : Table
  progress : Array Progress := #[]
  /-- The generic instances underway. -/
  instances : List (InstanceKey × Underway) := []
  /-- Reserved places, each with the place of a type that was itself without a shape. -/
  aliases : List (TypeId × TypeId) := []

/-- A step of resolution. What it has changed stays also where it fails. -/
abbrev Resolving := ExceptT ResolveError (StateM Workspace)

/-- The places that the parameters of a generic body stand for. -/
abbrev Bindings := List (String × TypeId)

/-- Resolves a type under some bindings, with a number of brackets open around it. -/
abbrev Resolver := TypeExpr → Bindings → Nat → Resolving TypeId

namespace Resolving

/-- Reads the table. -/
def table : Resolving Table := return (← get).table

/-- Changes the table. -/
def modifyTable (f : Table → Table) : Resolving Unit :=
  modify fun w => { w with table := f w.table }

/-- The place of a shape in the table. -/
def intern (s : Shape) : Resolving TypeId := do
  let (id, table) := (← table).intern s
  modifyTable fun _ => table
  return id

/-- A new place in the table, with a label. -/
def reserve (label : Option String) : Resolving TypeId := do
  let (id, table) := (← table).reserve
  modifyTable fun _ => match label with
    | some label => table.setLabel id label
    | none => table
  return id

/-- Notes how far a definition has come. -/
def setProgress (position : Nat) (p : Progress) : Resolving Unit :=
  modify fun w => { w with progress := w.progress.setIfInBounds position p }

/-- Names the definition in the errors of a step. -/
def within {α : Type} (line : Nat) (label : String) (step : Resolving α) : Resolving α :=
  tryCatch step fun e => throw (e.within line label)

end Resolving

open Resolving

/-- The place of a type whose body came to `id`. A place reserved for it takes over the shape
of the body, now or, where that has none yet, in the end. -/
def settle (u : Underway) (id : TypeId) (label : String) : Resolving TypeId := do
  match u.reserved with
  | none => return id
  | some slot =>
    if id = slot then throw (.infiniteType label)
    match (← table).shape? id with
    | some s => modifyTable (·.fill slot s)
    | none => modify fun w => { w with aliases := w.aliases ++ [(slot, id)] }
    return slot

/-- The place for a type that is met again while it is underway, and what is underway now. A
place reserved for it gets the second label. -/
def meetAgain (u : Underway) (nesting : Nat) (label : String) (reservedLabel : Option String) :
    Resolving (TypeId × Underway) := do
  if nesting ≤ u.nesting then throw (.infiniteType label)
  match u.reserved with
  | some slot => return (slot, u)
  | none =>
    let slot ← reserve reservedLabel
    return (slot, { u with reserved := some slot })

/-! ## Definitions -/

namespace Program

/-- What messages call the definition at a position. -/
def label (p : Program) (position : Nat) : String :=
  match p.definitions[position]? with
  | some d => d.label position
  | none => "#" ++ toString position

/-- The type of the definition at a position. The body of one that waits is resolved by
`enter`. -/
def resolveDefinition (p : Program) (enter : Resolver) (position nesting : Nat) :
    Resolving TypeId := do
  let d := p.definitions.getD position default
  let label := p.label position
  match (← get).progress.getD position .generic with
  | .done id => return id
  | .generic => throw (.missingArguments label)
  | .underway u =>
    let (slot, u) ← meetAgain u nesting label d.name
    setProgress position (.underway u)
    return slot
  | .waiting =>
    setProgress position (.underway ⟨nesting, none⟩)
    let id ← Resolving.within d.line label do
      let id ← enter d.body [] nesting
      match (← get).progress.getD position .generic with
      | .underway u => settle u id label
      | _ => return id
    setProgress position (.done id)
    modifyTable fun t => { t with positions := t.positions.setIfInBounds position (some id) }
    match d.name with
    | some name => modifyTable (·.bindName name id)
    | none => pure ()
    return id

/-- The type at a position: one of the definitions, else one of the table. -/
def resolveIndex (p : Program) (enter : Resolver) (position nesting : Nat) :
    Resolving TypeId := do
  if position < p.definitions.size then p.resolveDefinition enter position nesting
  else liftExcept ((← table).typeAt position)
where
  /-- An outcome as a step that changes nothing. -/
  liftExcept (r : Except ResolveError TypeId) : Resolving TypeId :=
    match r with
    | .ok id => return id
    | .error e => throw e

/-- The type of a name without arguments: a binding, a definition, a name of the table or a
primitive. -/
def resolveName (p : Program) (enter : Resolver) (name : String) (bindings : Bindings)
    (nesting : Nat) : Resolving TypeId := do
  if let some id := bindings.lookup name then return id
  if let some position := p.positionOf.lookup name then
    return ← p.resolveDefinition enter position nesting
  let t ← table
  if let some id := t.names.lookup name then return id
  if let some primitive := Primitive.ofName? name then return ← intern (.primitive primitive)
  if (t.generics.lookup name).isSome then throw (.missingArguments name)
  throw (.unknownType name)

/-! ## Generic instances -/

/-- The name leads to a type that takes no arguments. -/
def isConcrete (p : Program) (t : Table) (bindings : Bindings) (name : String) : Bool :=
  (bindings.lookup name).isSome || (p.positionOf.lookup name).isSome
    || (t.names.lookup name).isSome || Primitive.isName name

/-- The generic definition that a name with arguments stands for. -/
def genericOf (p : Program) (t : Table) (bindings : Bindings) (name : String) (given : Nat) :
    Except ResolveError Generic :=
  if p.isConcrete t bindings name then .error (.notGeneric name)
  else match t.generics.lookup name with
    | none => .error (.unknownType name)
    | some g =>
      if g.params.length = given then .ok g
      else .error (.genericArity name g.params.length given)

/-- What each parameter stands for; of two parameters of one name the later counts. -/
def bind (params : List String) (args : List TypeId) : Bindings := (params.zip args).reverse

/-- The label of a generic type with its arguments. -/
def instanceLabel (t : Table) (key : InstanceKey) : String :=
  key.name ++ "<" ++ commaJoined (key.args.map t.text) ++ ">"

/-- The type of a generic definition over places. Its body, if it is new, is resolved by
`enter`. -/
def instantiate (enter : Resolver) (g : Generic) (key : InstanceKey) (nesting : Nat) :
    Resolving TypeId := do
  let w ← get
  if let some id := w.table.instances.lookup key then return id
  let label := instanceLabel w.table key
  match w.instances.lookup key with
  | some u =>
    let (slot, u) ← meetAgain u nesting label label
    modify fun w => { w with instances := (key, u) :: w.instances.filter (·.1 != key) }
    return slot
  | none =>
    modify fun w => { w with instances := (key, ⟨nesting, none⟩) :: w.instances }
    let id ← Resolving.within g.line label do
      let body ← observing (enter g.body (bind g.params key.args) nesting)
      let u := ((← get).instances.lookup key).getD ⟨nesting, none⟩
      modify fun w => { w with instances := w.instances.filter (·.1 != key) }
      match body with
      | .ok id => settle u id label
      | .error e => throw e
    modifyTable fun t =>
      { t with instances := (key, id) :: t.instances }.setLabel id label
    return id
where
  /-- The outcome of a step as a value. -/
  observing (step : Resolving TypeId) : Resolving (Except ResolveError TypeId) :=
    tryCatch (Except.ok <$> step) (pure ∘ Except.error)

end Program

/-! ## Types -/

/-- The tag of a variant: the written one, else its place in the enum. -/
def tagOf (name : String) (tag : Option Nat) (place : Nat) : Except ResolveError UInt8 :=
  let n := tag.getD place
  if n < 256 then .ok (UInt8.ofNat n) else .error (.invalidTag name n)

/-- The place of a shape that keeps the rules for one shape. -/
def internChecked (s : Shape) : Resolving TypeId := do
  match s.check with
  | .ok () => intern s
  | .error e => throw e

mutual

/-- Resolves a type. The bodies of definitions are resolved by `enter`, those of generic
instances by `instance?`, which is missing where no more of them may be underway. -/
def resolveWith (p : Program) (enter : Resolver) (instance? : Option Resolver) :
    TypeExpr → Bindings → Nat → Resolving TypeId
  | .primitive name, _, _ =>
    match Primitive.ofName? name with
    | some primitive => intern (.primitive primitive)
    | none => throw (.unknownPrimitive name)
  | .index position, _, nesting => p.resolveIndex enter position nesting
  | .named name [], bindings, nesting => p.resolveName enter name bindings nesting
  | .named name (arg :: args), bindings, nesting => do
    match p.genericOf (← table) bindings name (args.length + 1), instance? with
    | .error e, _ => throw e
    | .ok _, none => throw (.instantiationTooDeep name)
    | .ok g, some enterInstance =>
      let id ← resolveWith p enter instance? arg bindings (nesting + 1)
      let ids ← resolveAll p enter instance? args bindings (nesting + 1)
      Program.instantiate enterInstance g ⟨name, id :: ids⟩ nesting
  | .compact inner, bindings, nesting => do
    intern (.compact (← resolveWith p enter instance? inner bindings (nesting + 1)))
  | .sequence element, bindings, nesting => do
    intern (.sequence (← resolveWith p enter instance? element bindings (nesting + 1)))
  | .array element length, bindings, nesting => do
    intern (.array (← resolveWith p enter instance? element bindings (nesting + 1)) length)
  | .tuple members, bindings, nesting => do
    intern (.tuple (← resolveAll p enter instance? members bindings (nesting + 1)))
  | .enum variants, bindings, nesting => do
    if variants.length > Shape.maxVariants then throw .tooManyVariants
    internChecked
      (.enum (← resolveVariants p enter instance? variants 0 bindings (nesting + 1)))
  | .struct fields, bindings, nesting => do
    internChecked (.struct (← resolveFields p enter instance? fields bindings (nesting + 1)))

/-- Resolves types from left to right. -/
def resolveAll (p : Program) (enter : Resolver) (instance? : Option Resolver) :
    List TypeExpr → Bindings → Nat → Resolving (List TypeId)
  | [], _, _ => return []
  | e :: es, bindings, nesting => do
    let id ← resolveWith p enter instance? e bindings nesting
    return id :: (← resolveAll p enter instance? es bindings nesting)

/-- Resolves variants, of which the first stands at `place` in its enum. -/
def resolveVariants (p : Program) (enter : Resolver) (instance? : Option Resolver) :
    List (String × Option TypeExpr × Option Nat) → Nat → Bindings → Nat →
      Resolving (List Variant)
  | [], _, _, _ => return []
  | (name, payload, tag) :: vs, place, bindings, nesting => do
    match tagOf name tag place with
    | .error e => throw e
    | .ok tag =>
      let payload ← match payload with
        | none => pure none
        | some e => some <$> resolveWith p enter instance? e bindings nesting
      return ⟨name, tag, payload⟩ ::
        (← resolveVariants p enter instance? vs (place + 1) bindings nesting)

/-- Resolves fields in order. -/
def resolveFields (p : Program) (enter : Resolver) (instance? : Option Resolver) :
    List (String × TypeExpr) → Bindings → Nat → Resolving (List Field)
  | [], _, _ => return []
  | (name, e) :: fs, bindings, nesting => do
    let id ← resolveWith p enter instance? e bindings nesting
    return ⟨name, id⟩ :: (← resolveFields p enter instance? fs bindings nesting)

end

/-! ## Depth -/

/-- At most this many generic instances are underway at once. -/
def maxInstances : Nat := 64

/-- Resolves a type while `room` more generic instances may be underway. The bodies of
definitions are resolved by `enter`, with the same room. -/
def resolveInRoom (p : Program) (enter : Nat → Resolver) : Nat → Resolver
  | 0 => resolveWith p (enter 0) none
  | room + 1 => resolveWith p (enter (room + 1)) (some (resolveInRoom p enter room))

/-- Resolves a type while at most `entries` more definitions are entered on the way down. No
way down enters a definition twice. -/
def resolveEntering (p : Program) : Nat → Nat → Resolver
  | 0 => resolveInRoom p fun _ _ _ _ => throw (.infiniteType "")
  | entries + 1 => resolveInRoom p (resolveEntering p entries)

/-- Resolves a type. -/
def Program.resolve (p : Program) : Resolver :=
  resolveEntering p p.definitions.size maxInstances

/-! ## Reserved places -/

/-- One pass over the aliases: fills those whose target has a shape, and keeps the others. -/
def fillAliases (t : Table) : List (TypeId × TypeId) → Table × List (TypeId × TypeId)
  | [] => (t, [])
  | (slot, target) :: rest =>
    match t.shape? target with
    | some s => fillAliases (t.fill slot s) rest
    | none =>
      let (t, pending) := fillAliases t rest
      (t, (slot, target) :: pending)

theorem length_fillAliases_le (t : Table) (aliases : List (TypeId × TypeId)) :
    (fillAliases t aliases).2.length ≤ aliases.length := by
  induction aliases generalizing t with
  | nil => simp [fillAliases]
  | cons a rest ih =>
    obtain ⟨slot, target⟩ := a
    unfold fillAliases
    split
    · exact Nat.le_trans (ih _) (Nat.le_succ _)
    · exact Nat.succ_le_succ (ih _)

/-- Fills the reserved places whose types came to other reserved places. -/
def fillAll (t : Table) (aliases : List (TypeId × TypeId)) : Except ResolveError Table :=
  match aliases with
  | [] => .ok t
  | a :: rest =>
    let pass := fillAliases t (a :: rest)
    if pass.2.length = (a :: rest).length then .error (.undefinedPlace a.1)
    else fillAll pass.1 pass.2
termination_by aliases.length
decreasing_by
  exact Nat.lt_of_le_of_ne (length_fillAliases_le t (a :: rest)) (by assumption)

end Typewire
