-- How a type is resolved, as rules: from a task and a workspace to an outcome and a workspace.
-- A rule says what one step does and which tasks it waits for, so a law of resolution is an
-- induction over the rules. What resolves a type below keeps to them.
import Typewire.Proofs.Shape.Steps

namespace Typewire

open Typewire.Language Resolving

/-! ## Built types -/

/-- The tag that a variant is given, where it fits in one byte. -/
def tagAt (tag : Option Nat) (place : Nat) : UInt8 := UInt8.ofNat (tag.getD place)

/-- The payloads of variants in order, each after what is wrong with the tag beside it. -/
def payloads : List (String × Option TypeExpr × Option Nat) → Nat →
    List (Except ResolveError TypeExpr)
  | [], _ => []
  | (name, payload, tag) :: vs, place =>
    match tagOf name tag place, payload with
    | .error e, _ => .error e :: payloads vs (place + 1)
    | .ok _, some e => .ok e :: payloads vs (place + 1)
    | .ok _, none => payloads vs (place + 1)

/-- The variants whose payloads came to some places. -/
def variantsOver : List (String × Option TypeExpr × Option Nat) → Nat → List TypeId →
    List Variant
  | [], _, _ => []
  | (name, none, tag) :: vs, place, ids =>
    ⟨name, tagAt tag place, none⟩ :: variantsOver vs (place + 1) ids
  | (name, some _, tag) :: vs, place, ids =>
    ⟨name, tagAt tag place, ids.head?⟩ :: variantsOver vs (place + 1) ids.tail

/-- The fields whose types came to some places. -/
def fieldsOver (fs : List (String × TypeExpr)) (ids : List TypeId) : List Field :=
  fs.zipWith (fun f id => ⟨f.1, id⟩) ids

/-- The types inside a built type in order, and what is wrong between them. -/
def parts : TypeExpr → List (Except ResolveError TypeExpr)
  | .primitive name => if Primitive.isName name then [] else [.error (.unknownPrimitive name)]
  | .compact e | .sequence e | .array e _ => [.ok e]
  | .tuple es => es.map .ok
  | .enum vs =>
    if vs.length > Shape.maxVariants then [.error .tooManyVariants] else payloads vs 0
  | .struct fs => fs.map (.ok ·.2)
  | .index _ | .named _ _ => []

/-- The shape of a built type whose parts came to some places. -/
def shapeOver : TypeExpr → List TypeId → Option Shape
  | .primitive name, _ => (Primitive.ofName? name).map .primitive
  | .compact _, [id] => some (.compact id)
  | .sequence _, [id] => some (.sequence id)
  | .array _ length, [id] => some (.array id length)
  | .tuple _, ids => some (.tuple ids)
  | .enum vs, ids => some (.enum (variantsOver vs 0 ids))
  | .struct fs, ids => some (.struct (fieldsOver fs ids))
  | _, _ => none

/-! ## Rules -/

/-- What is to be resolved. -/
inductive Task where
  /-- A type under some bindings. -/
  | type (e : TypeExpr) (bindings : Bindings)
  /-- Types from left to right, up to what is wrong between them. -/
  | parts (es : List (Except ResolveError TypeExpr)) (bindings : Bindings)
  | definition (position : Nat)
  /-- A generic definition over places. -/
  | generic (g : Generic) (key : InstanceKey)

namespace Workspace

/-- How far the definition at a position has come; past the last it counts as generic. -/
def progressAt (w : Workspace) (position : Nat) : Progress := w.progress.getD position .generic

/-- The workspace where the definition at a position has come that far. -/
def setProgress (w : Workspace) (position : Nat) (p : Progress) : Workspace :=
  { w with progress := w.progress.setIfInBounds position p }

/-- The workspace with that of a generic instance underway. -/
def setInstance (w : Workspace) (key : InstanceKey) (u : Underway) : Workspace :=
  { w with instances := (key, u) :: w.instances.filter (·.1 != key) }

/-- The workspace where a generic instance is underway first. -/
def enterInstance (w : Workspace) (key : InstanceKey) (nesting : Nat) : Workspace :=
  { w with instances := (key, ⟨nesting, none⟩) :: w.instances }

/-- The workspace where a generic instance is no longer underway. -/
def leaveInstance (w : Workspace) (key : InstanceKey) : Workspace :=
  { w with instances := w.instances.filter (·.1 != key) }

/-- The workspace with a shape in its table. -/
def intern (w : Workspace) (s : Shape) : Workspace := { w with table := (w.table.intern s).2 }

/-- The workspace where the definition at a position came to a place. -/
def finishDefinition (w : Workspace) (position : Nat) (name : Option String) (id : TypeId) :
    Workspace :=
  let t := { w.table with positions := w.table.positions.setIfInBounds position (some id) }
  { w.setProgress position (.done id) with
    table := match name with
      | some name => t.bindName name id
      | none => t }

/-- The workspace where a generic instance came to a place. -/
def finishInstance (w : Workspace) (key : InstanceKey) (label : String) (id : TypeId) :
    Workspace :=
  { w with
    table := { w.table with instances := (key, id) :: w.table.instances }.setLabel id label }

/-- How many definitions wait. -/
def waiting (w : Workspace) : Nat := w.progress.count .waiting

end Workspace

/-- The definition at a position. -/
def Program.definitionAt (p : Program) (position : Nat) : Definition :=
  p.definitions.getD position default

/-- Resolution step by step. A task is resolved while `room` more generic instances may be
underway and some brackets stand open; it comes to places, or to what is wrong. -/
inductive Resolves (p : Program) : Nat → Task → Nat → Workspace →
    Except ResolveError (List TypeId) → Workspace → Prop where
  | nil {room s n w} : Resolves p room (.parts [] s) n w (.ok []) w
  | fault {room s n w x es} : Resolves p room (.parts (.error x :: es) s) n w (.error x) w
  | stop {room s n w w' x e es} :
    Resolves p room (.type e s) n w (.error x) w' →
    Resolves p room (.parts (.ok e :: es) s) n w (.error x) w'
  | next {room s n w w' w'' id r e es} :
    Resolves p room (.type e s) n w (.ok [id]) w' →
    Resolves p room (.parts es s) n w' r w'' →
    Resolves p room (.parts (.ok e :: es) s) n w (r.map (id :: ·)) w''
  | unbuilt {room s n w w' x e} :
    Resolves p room (.parts (parts e) s) (n + 1) w (.error x) w' →
    Resolves p room (.type e s) n w (.error x) w'
  | unsound {room s n w w' x e ids shape} :
    Resolves p room (.parts (parts e) s) (n + 1) w (.ok ids) w' →
    shapeOver e ids = some shape → shape.check = .error x →
    Resolves p room (.type e s) n w (.error x) w'
  | built {room s n w w' e ids shape} :
    Resolves p room (.parts (parts e) s) (n + 1) w (.ok ids) w' →
    shapeOver e ids = some shape → shape.check = .ok () →
    Resolves p room (.type e s) n w (.ok [(w'.table.intern shape).1]) (w'.intern shape)
  | index {room s n w w' r i} : i < p.definitions.size →
    Resolves p room (.definition i) n w r w' →
    Resolves p room (.type (.index i) s) n w r w'
  | placed {room s n w i} : p.definitions.size ≤ i →
    Resolves p room (.type (.index i) s) n w ((w.table.typeAt i).map ([·])) w
  | bound {room s n w name id} : s.lookup name = some id →
    Resolves p room (.type (.named name []) s) n w (.ok [id]) w
  | declared {room s n w w' r name i} : s.lookup name = none →
    p.positionOf.lookup name = some i → Resolves p room (.definition i) n w r w' →
    Resolves p room (.type (.named name []) s) n w r w'
  | known {room s n w name id} : s.lookup name = none → p.positionOf.lookup name = none →
    w.table.names.lookup name = some id →
    Resolves p room (.type (.named name []) s) n w (.ok [id]) w
  | primitive {room s n w name prim} : s.lookup name = none →
    p.positionOf.lookup name = none → w.table.names.lookup name = none →
    Primitive.ofName? name = some prim →
    Resolves p room (.type (.named name []) s) n w
      (.ok [(w.table.intern (.primitive prim)).1]) (w.intern (.primitive prim))
  | unknown {room s n w name} : s.lookup name = none →
    p.positionOf.lookup name = none → w.table.names.lookup name = none →
    Primitive.ofName? name = none →
    Resolves p room (.type (.named name []) s) n w
      (.error (if (w.table.generics.lookup name).isSome then .missingArguments name
        else .unknownType name)) w
  | refused {room s n w x name e es} :
    p.genericOf w.table s name (es.length + 1) = .error x →
    Resolves p room (.type (.named name (e :: es)) s) n w (.error x) w
  | tooDeep {s n w g name e es} :
    p.genericOf w.table s name (es.length + 1) = .ok g →
    Resolves p 0 (.type (.named name (e :: es)) s) n w (.error (.instantiationTooDeep name)) w
  | unapplied {room s n w w' x g name e es} :
    p.genericOf w.table s name (es.length + 1) = .ok g →
    Resolves p (room + 1) (.parts ((e :: es).map .ok) s) (n + 1) w (.error x) w' →
    Resolves p (room + 1) (.type (.named name (e :: es)) s) n w (.error x) w'
  | applied {room s n w w' w'' r g name e es ids} :
    p.genericOf w.table s name (es.length + 1) = .ok g →
    Resolves p (room + 1) (.parts ((e :: es).map .ok) s) (n + 1) w (.ok ids) w' →
    Resolves p (room + 1) (.generic g ⟨name, ids⟩) n w' r w'' →
    Resolves p (room + 1) (.type (.named name (e :: es)) s) n w r w''
  | done {room n w i id} : w.progressAt i = .done id →
    Resolves p room (.definition i) n w (.ok [id]) w
  | bare {room n w i} : w.progressAt i = .generic →
    Resolves p room (.definition i) n w (.error (.missingArguments (p.label i))) w
  | flat {room n w w' i u x} : w.progressAt i = .underway u →
    outcome (meetAgain u n (p.label i) (p.definitionAt i).name) w = (.error x, w') →
    Resolves p room (.definition i) n w (.error x) w'
  | again {room n w w' i u u' id} : w.progressAt i = .underway u →
    outcome (meetAgain u n (p.label i) (p.definitionAt i).name) w = (.ok (id, u'), w') →
    Resolves p room (.definition i) n w (.ok [id]) (w'.setProgress i (.underway u'))
  | failed {room n w w' i x} : w.progressAt i = .waiting →
    Resolves p room (.type (p.definitionAt i).body []) n
      (w.setProgress i (.underway ⟨n, none⟩)) (.error x) w' →
    Resolves p room (.definition i) n w
      (.error (x.within (p.definitionAt i).line (p.label i))) w'
  | endless {room n w w' w'' i u id x} : w.progressAt i = .waiting →
    Resolves p room (.type (p.definitionAt i).body []) n
      (w.setProgress i (.underway ⟨n, none⟩)) (.ok [id]) w' →
    w'.progressAt i = .underway u → outcome (settle u id (p.label i)) w' = (.error x, w'') →
    Resolves p room (.definition i) n w
      (.error (x.within (p.definitionAt i).line (p.label i))) w''
  | defined {room n w w' w'' i u id id'} : w.progressAt i = .waiting →
    Resolves p room (.type (p.definitionAt i).body []) n
      (w.setProgress i (.underway ⟨n, none⟩)) (.ok [id]) w' →
    w'.progressAt i = .underway u → outcome (settle u id (p.label i)) w' = (.ok id', w'') →
    Resolves p room (.definition i) n w (.ok [id'])
      (w''.finishDefinition i (p.definitionAt i).name id')
  | cached {room n w g key id} : w.table.instances.lookup key = some id →
    Resolves p (room + 1) (.generic g key) n w (.ok [id]) w
  | flatInstance {room n w w' g key u x} : w.table.instances.lookup key = none →
    w.instances.lookup key = some u →
    outcome (meetAgain u n (Program.instanceLabel w.table key)
      (some (Program.instanceLabel w.table key))) w = (.error x, w') →
    Resolves p (room + 1) (.generic g key) n w (.error x) w'
  | againInstance {room n w w' g key u u' id} : w.table.instances.lookup key = none →
    w.instances.lookup key = some u →
    outcome (meetAgain u n (Program.instanceLabel w.table key)
      (some (Program.instanceLabel w.table key))) w = (.ok (id, u'), w') →
    Resolves p (room + 1) (.generic g key) n w (.ok [id]) (w'.setInstance key u')
  | failedInstance {room n w w' g key x} : w.table.instances.lookup key = none →
    w.instances.lookup key = none →
    Resolves p room (.type g.body (Program.bind g.params key.args)) n
      (w.enterInstance key n) (.error x) w' →
    Resolves p (room + 1) (.generic g key) n w
      (.error (x.within g.line (Program.instanceLabel w.table key))) (w'.leaveInstance key)
  | endlessInstance {room n w w' w'' g key u id x} : w.table.instances.lookup key = none →
    w.instances.lookup key = none →
    Resolves p room (.type g.body (Program.bind g.params key.args)) n
      (w.enterInstance key n) (.ok [id]) w' →
    w'.instances.lookup key = some u →
    outcome (settle u id (Program.instanceLabel w.table key)) (w'.leaveInstance key)
      = (.error x, w'') →
    Resolves p (room + 1) (.generic g key) n w
      (.error (x.within g.line (Program.instanceLabel w.table key))) w''
  | instantiated {room n w w' w'' g key u id id'} : w.table.instances.lookup key = none →
    w.instances.lookup key = none →
    Resolves p room (.type g.body (Program.bind g.params key.args)) n
      (w.enterInstance key n) (.ok [id]) w' →
    w'.instances.lookup key = some u →
    outcome (settle u id (Program.instanceLabel w.table key)) (w'.leaveInstance key)
      = (.ok id', w'') →
    Resolves p (room + 1) (.generic g key) n w (.ok [id'])
      (w''.finishInstance key (Program.instanceLabel w.table key) id')

/-- A position past the definitions that the table knows comes to its place. -/
theorem Resolves.of_typeAt {p : Program} {room n i : Nat} {w : Workspace} {s : Bindings}
    {id : TypeId} (hi : p.definitions.size ≤ i) (hplace : w.table.typeAt i = .ok id) :
    Resolves p room (.type (.index i) s) n w (.ok [id]) w := by
  have h : Resolves p room (.type (.index i) s) n w _ w := .placed hi
  rwa [hplace] at h

/-- What comes to places comes there by the rules that do, and so do the tasks that it waits for:
a law of it has one case for each of those rules, and none for those that find what is wrong. -/
@[elab_as_elim]
theorem Resolves.ok_induction {p : Program}
    {motive : ∀ (room : Nat) (task : Task) (n : Nat) (w : Workspace) (ids : List TypeId)
      (w' : Workspace), Resolves p room task n w (.ok ids) w' → Prop}
    (nil : ∀ {room n : Nat} {w : Workspace} {s : Bindings},
      motive room (.parts [] s) n w [] w .nil)
    (next : ∀ {room n : Nat} {w w' w'' : Workspace} {s : Bindings} {id : TypeId}
      {ids : List TypeId} {e : TypeExpr} {es : List (Except ResolveError TypeExpr)}
      (hfirst : Resolves p room (.type e s) n w (.ok [id]) w')
      (hrest : Resolves p room (.parts es s) n w' (.ok ids) w''),
      motive room (.type e s) n w [id] w' hfirst → motive room (.parts es s) n w' ids w'' hrest →
      motive room (.parts (.ok e :: es) s) n w (id :: ids) w'' (.next hfirst hrest))
    (built : ∀ {room n : Nat} {w w' : Workspace} {s : Bindings} {e : TypeExpr} {ids : List TypeId}
      {shape : Shape} (hparts : Resolves p room (.parts (parts e) s) (n + 1) w (.ok ids) w')
      (hover : shapeOver e ids = some shape) (hcheck : shape.check = .ok ()),
      motive room (.parts (parts e) s) (n + 1) w ids w' hparts →
      motive room (.type e s) n w [(w'.table.intern shape).1] (w'.intern shape)
        (.built hparts hover hcheck))
    (index : ∀ {room n : Nat} {w w' : Workspace} {s : Bindings} {ids : List TypeId} {i : Nat}
      (hi : i < p.definitions.size) (hrun : Resolves p room (.definition i) n w (.ok ids) w'),
      motive room (.definition i) n w ids w' hrun →
      motive room (.type (.index i) s) n w ids w' (.index hi hrun))
    (placed : ∀ {room n : Nat} {w : Workspace} {s : Bindings} {i : Nat} {id : TypeId}
      (hi : p.definitions.size ≤ i) (hplace : w.table.typeAt i = .ok id),
      motive room (.type (.index i) s) n w [id] w (.of_typeAt hi hplace))
    (bound : ∀ {room n : Nat} {w : Workspace} {s : Bindings} {name : String} {id : TypeId}
      (hs : s.lookup name = some id), motive room (.type (.named name []) s) n w [id] w (.bound hs))
    (declared : ∀ {room n : Nat} {w w' : Workspace} {s : Bindings} {ids : List TypeId}
      {name : String} {i : Nat} (hs : s.lookup name = none)
      (hi : p.positionOf.lookup name = some i)
      (hrun : Resolves p room (.definition i) n w (.ok ids) w'),
      motive room (.definition i) n w ids w' hrun →
      motive room (.type (.named name []) s) n w ids w' (.declared hs hi hrun))
    (known : ∀ {room n : Nat} {w : Workspace} {s : Bindings} {name : String} {id : TypeId}
      (hs : s.lookup name = none) (hi : p.positionOf.lookup name = none)
      (hid : w.table.names.lookup name = some id),
      motive room (.type (.named name []) s) n w [id] w (.known hs hi hid))
    (primitive : ∀ {room n : Nat} {w : Workspace} {s : Bindings} {name : String}
      {prim : Primitive} (hs : s.lookup name = none) (hi : p.positionOf.lookup name = none)
      (hfree : w.table.names.lookup name = none) (hprim : Primitive.ofName? name = some prim),
      motive room (.type (.named name []) s) n w [(w.table.intern (.primitive prim)).1]
        (w.intern (.primitive prim)) (.primitive hs hi hfree hprim))
    (applied : ∀ {room n : Nat} {w w' w'' : Workspace} {s : Bindings} {g : Generic}
      {name : String} {e : TypeExpr} {es : List TypeExpr} {args ids : List TypeId}
      (hg : p.genericOf w.table s name (es.length + 1) = .ok g)
      (hparts : Resolves p (room + 1) (.parts ((e :: es).map .ok) s) (n + 1) w (.ok args) w')
      (hinst : Resolves p (room + 1) (.generic g ⟨name, args⟩) n w' (.ok ids) w''),
      motive (room + 1) (.parts ((e :: es).map .ok) s) (n + 1) w args w' hparts →
      motive (room + 1) (.generic g ⟨name, args⟩) n w' ids w'' hinst →
      motive (room + 1) (.type (.named name (e :: es)) s) n w ids w'' (.applied hg hparts hinst))
    (done : ∀ {room n : Nat} {w : Workspace} {i : Nat} {id : TypeId}
      (hi : w.progressAt i = .done id), motive room (.definition i) n w [id] w (.done hi))
    (again : ∀ {room n : Nat} {w w' : Workspace} {i : Nat} {u u' : Underway} {id : TypeId}
      (hi : w.progressAt i = .underway u)
      (hmeet : outcome (meetAgain u n (p.label i) (p.definitionAt i).name) w = (.ok (id, u'), w')),
      motive room (.definition i) n w [id] (w'.setProgress i (.underway u')) (.again hi hmeet))
    (defined : ∀ {room n : Nat} {w w' w'' : Workspace} {i : Nat} {u : Underway} {id id' : TypeId}
      (hi : w.progressAt i = .waiting)
      (hbody : Resolves p room (.type (p.definitionAt i).body []) n
        (w.setProgress i (.underway ⟨n, none⟩)) (.ok [id]) w')
      (hu : w'.progressAt i = .underway u)
      (hsettle : outcome (settle u id (p.label i)) w' = (.ok id', w'')),
      motive room (.type (p.definitionAt i).body []) n (w.setProgress i (.underway ⟨n, none⟩))
        [id] w' hbody →
      motive room (.definition i) n w [id'] (w''.finishDefinition i (p.definitionAt i).name id')
        (.defined hi hbody hu hsettle))
    (cached : ∀ {room n : Nat} {w : Workspace} {g : Generic} {key : InstanceKey} {id : TypeId}
      (hid : w.table.instances.lookup key = some id),
      motive (room + 1) (.generic g key) n w [id] w (.cached hid))
    (againInstance : ∀ {room n : Nat} {w w' : Workspace} {g : Generic} {key : InstanceKey}
      {u u' : Underway} {id : TypeId} (hnone : w.table.instances.lookup key = none)
      (hkey : w.instances.lookup key = some u)
      (hmeet : outcome (meetAgain u n (Program.instanceLabel w.table key)
        (some (Program.instanceLabel w.table key))) w = (.ok (id, u'), w')),
      motive (room + 1) (.generic g key) n w [id] (w'.setInstance key u')
        (.againInstance hnone hkey hmeet))
    (instantiated : ∀ {room n : Nat} {w w' w'' : Workspace} {g : Generic} {key : InstanceKey}
      {u : Underway} {id id' : TypeId} (hnone : w.table.instances.lookup key = none)
      (hkey : w.instances.lookup key = none)
      (hbody : Resolves p room (.type g.body (Program.bind g.params key.args)) n
        (w.enterInstance key n) (.ok [id]) w')
      (hu : w'.instances.lookup key = some u)
      (hsettle : outcome (settle u id (Program.instanceLabel w.table key)) (w'.leaveInstance key)
        = (.ok id', w'')),
      motive room (.type g.body (Program.bind g.params key.args)) n (w.enterInstance key n) [id] w'
        hbody →
      motive (room + 1) (.generic g key) n w [id']
        (w''.finishInstance key (Program.instanceLabel w.table key) id')
        (.instantiated hnone hkey hbody hu hsettle))
    {room : Nat} {task : Task} {n : Nat} {w : Workspace} {ids : List TypeId} {w' : Workspace}
    (h : Resolves p room task n w (.ok ids) w') : motive room task n w ids w' h := by
  obtain ⟨r, hr⟩ : ∃ r, r = Except.ok ids := ⟨_, rfl⟩
  have hrun := h
  rw [← hr] at hrun
  induction hrun generalizing ids with
  | fault | stop | unbuilt | unsound | unknown | refused | tooDeep | unapplied | bare | flat
  | failed | endless | flatInstance | failedInstance | endlessInstance => cases hr
  | nil =>
    cases hr
    exact nil
  | @next room s n w w' w'' id r e es hfirst hrest ih ih' =>
    cases r with
    | error x => cases hr
    | ok ids =>
      cases hr
      exact next hfirst hrest (ih hfirst rfl) (ih' hrest rfl)
  | built hparts hover hcheck ih =>
    cases hr
    exact built hparts hover hcheck (ih hparts rfl)
  | index hi hrun ih =>
    subst hr
    exact index hi hrun (ih hrun rfl)
  | @placed room s n w i hi =>
    cases hplace : w.table.typeAt i with
    | error x =>
      rw [hplace] at hr
      cases hr
    | ok id =>
      rw [hplace] at hr
      cases hr
      exact placed hi hplace
  | bound hs =>
    cases hr
    exact bound hs
  | declared hs hi hrun ih =>
    subst hr
    exact declared hs hi hrun (ih hrun rfl)
  | known hs hi hid =>
    cases hr
    exact known hs hi hid
  | primitive hs hi hfree hprim =>
    cases hr
    exact primitive hs hi hfree hprim
  | applied hg hparts hinst ih ih' =>
    subst hr
    exact applied hg hparts hinst (ih hparts rfl) (ih' hinst rfl)
  | done hi =>
    cases hr
    exact done hi
  | again hi hmeet =>
    cases hr
    exact again hi hmeet
  | defined hi hbody hu hsettle ih =>
    cases hr
    exact defined hi hbody hu hsettle (ih hbody rfl)
  | cached hid =>
    cases hr
    exact cached hid
  | againInstance hnone hkey hmeet =>
    cases hr
    exact againInstance hnone hkey hmeet
  | instantiated hnone hkey hbody hu hsettle ih =>
    cases hr
    exact instantiated hnone hkey hbody hu hsettle (ih hbody rfl)

end Typewire
