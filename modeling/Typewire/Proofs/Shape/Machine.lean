-- Resolution as a machine, one step at a time. Its stack says what is in progress at each moment.
-- What the rules resolve, the machine resolves in as many steps as that takes.
import Mathlib.Logic.Relation
import Typewire.Proofs.Shape.Rules

namespace Typewire.Machine

open Typewire.Language

/-! ## States -/

/-- What waits for the task above it on the stack. -/
inductive Frame where
  /-- The types that come after one in a row. -/
  | rest (es : List (Except ResolveError TypeExpr)) (bindings : Bindings) (nesting : Nat)
  /-- The place of a type that stands before the others in a row. -/
  | first (id : TypeId)
  /-- A built type, whose parts are in progress. -/
  | build (e : TypeExpr)
  /-- A generic type, whose arguments are in progress. -/
  | apply (g : Generic) (name : String) (nesting : Nat)
  /-- A definition, whose body is in progress. -/
  | definition (position : Nat)
  /-- A generic type with its label, whose body is in progress. -/
  | generic (g : Generic) (key : InstanceKey) (label : String)
  /-- The definitions that come after one. -/
  | order (positions : List Nat)

/-- What the machine does next. -/
inductive Control where
  /-- It takes up a task. -/
  | start (task : Task) (nesting : Nat)
  /-- It has come to places, or to what is wrong. -/
  | give (r : Except ResolveError (List TypeId))
  /-- It takes up the definitions at some positions in order. -/
  | order (positions : List Nat)
  /-- It goes over the reserved places that have no shape yet. -/
  | fill (ids : List TypeId)
  /-- It is done. -/
  | halt (r : Except ResolveError (List TypeId × Table))

structure State where
  workspace : Workspace
  stack : List Frame
  control : Control

/-- The frame is that of a generic body. -/
def Frame.isGeneric : Frame → Bool
  | .generic .. => true
  | _ => false

/-- How many generic bodies are in progress. -/
def genericBodies (stack : List Frame) : Nat := (stack.filter Frame.isGeneric).length

/-! ## Steps -/

/-- A name without arguments is looked up: a binding, a definition, a name of the table or a
primitive. -/
def startName (p : Program) (w : Workspace) (name : String) (s : Bindings) (n : Nat) :
    Workspace × Control :=
  match s.lookup name, p.positionOf.lookup name, w.table.names.lookup name,
    Primitive.ofName? name with
  | some id, _, _, _ => (w, .give (.ok [id]))
  | none, some i, _, _ => (w, .start (.definition i) n)
  | none, none, some id, _ => (w, .give (.ok [id]))
  | none, none, none, some prim =>
    (w.intern (.primitive prim), .give (.ok [(w.table.intern (.primitive prim)).1]))
  | none, none, none, none =>
    (w, .give (.error (if (w.table.generics.lookup name).isSome then .missingArguments name
      else .unknownType name)))

/-- A type is taken up. -/
def startType (p : Program) (w : Workspace) (k : List Frame) (s : Bindings) (n : Nat) :
    TypeExpr → State
  | .index i =>
    if i < p.definitions.size then ⟨w, k, .start (.definition i) n⟩
    else ⟨w, k, .give ((w.table.typeAt i).map ([·]))⟩
  | .named name [] =>
    let (w, control) := startName p w name s n
    ⟨w, k, control⟩
  | .named name (e :: es) =>
    match p.genericOf w.table s name (es.length + 1) with
    | .error x => ⟨w, k, .give (.error x)⟩
    | .ok g =>
      if genericBodies k < maxInstances then
        ⟨w, .apply g name n :: k, .start (.parts ((e :: es).map .ok) s) (n + 1)⟩
      else ⟨w, k, .give (.error (.instantiationTooDeep name))⟩
  | e => ⟨w, .build e :: k, .start (.parts (parts e) s) (n + 1)⟩

/-- A definition is taken up. Its body is entered where it waits. -/
def startDefinition (p : Program) (w : Workspace) (k : List Frame) (i n : Nat) : State :=
  match w.progressAt i with
  | .done id => ⟨w, k, .give (.ok [id])⟩
  | .generic => ⟨w, k, .give (.error (.missingArguments (p.label i)))⟩
  | .underway u =>
    match outcome (meetAgain u n (p.label i) (p.definitionAt i).name) w with
    | (.error x, w) => ⟨w, k, .give (.error x)⟩
    | (.ok (id, u), w) => ⟨w.setProgress i (.underway u), k, .give (.ok [id])⟩
  | .waiting =>
    ⟨w.setProgress i (.underway ⟨n, none⟩), .definition i :: k,
      .start (.type (p.definitionAt i).body []) n⟩

/-- A generic type is taken up. Its body is entered where it is new. -/
def startGeneric (w : Workspace) (k : List Frame) (g : Generic) (key : InstanceKey) (n : Nat) :
    State :=
  let label := Program.instanceLabel w.table key
  match w.table.instances.lookup key, w.instances.lookup key with
  | some id, _ => ⟨w, k, .give (.ok [id])⟩
  | none, some u =>
    match outcome (meetAgain u n label (some label)) w with
    | (.error x, w) => ⟨w, k, .give (.error x)⟩
    | (.ok (id, u), w) => ⟨w.setInstance key u, k, .give (.ok [id])⟩
  | none, none =>
    ⟨w.enterInstance key n, .generic g key label :: k,
      .start (.type g.body (Program.bind g.params key.args)) n⟩

/-- A task is taken up. -/
def start (p : Program) (w : Workspace) (k : List Frame) (n : Nat) : Task → State
  | .parts [] _ => ⟨w, k, .give (.ok [])⟩
  | .parts (.error x :: _) _ => ⟨w, k, .give (.error x)⟩
  | .parts (.ok e :: es) s => ⟨w, .rest es s n :: k, .start (.type e s) n⟩
  | .type e s => startType p w k s n e
  | .definition i => startDefinition p w k i n
  | .generic g key => startGeneric w k g key n

/-- What waits goes on with the places that were come to. -/
def resume (p : Program) (w : Workspace) (k : List Frame) : Frame → List TypeId → Option State
  | .rest es s n, [id] => some ⟨w, .first id :: k, .start (.parts es s) n⟩
  | .first id, ids => some ⟨w, k, .give (.ok (id :: ids))⟩
  | .build e, ids =>
    (shapeOver e ids).map fun shape =>
      match shape.check with
      | .error x => ⟨w, k, .give (.error x)⟩
      | .ok () => ⟨w.intern shape, k, .give (.ok [(w.table.intern shape).1])⟩
  | .apply g name n, ids => some ⟨w, k, .start (.generic g ⟨name, ids⟩) n⟩
  | .definition i, [id] =>
    match w.progressAt i with
    | .underway u =>
      match outcome (settle u id (p.label i)) w with
      | (.error x, w) =>
        some ⟨w, k, .give (.error (x.within (p.definitionAt i).line (p.label i)))⟩
      | (.ok id, w) =>
        some ⟨w.finishDefinition i (p.definitionAt i).name id, k, .give (.ok [id])⟩
    | _ => none
  | .generic g key label, [id] =>
    (w.instances.lookup key).map fun u =>
      match outcome (settle u id label) (w.leaveInstance key) with
      | (.error x, w) => ⟨w, k, .give (.error (x.within g.line label))⟩
      | (.ok id, w) => ⟨w.finishInstance key label id, k, .give (.ok [id])⟩
  | .order is, _ => some ⟨w, k, .order is⟩
  | _, _ => none

/-- What waits learns what is wrong. -/
def fail (p : Program) (w : Workspace) (k : List Frame) (x : ResolveError) : Frame → State
  | .definition i => ⟨w, k, .give (.error (x.within (p.definitionAt i).line (p.label i)))⟩
  | .generic g key label => ⟨w.leaveInstance key, k, .give (.error (x.within g.line label))⟩
  | _ => ⟨w, k, .give (.error x)⟩

/-- The definitions in order: one that is generic is left alone. -/
def takeNext (w : Workspace) (k : List Frame) : List Nat → State
  | [] => ⟨w, k, .give (.ok [])⟩
  | i :: is =>
    match w.progressAt i with
    | .generic => ⟨w, k, .order is⟩
    | _ => ⟨w, .order is :: k, .start (.definition i) 0⟩

/-- One pass over the reserved places without a shape. -/
def pass (w : Workspace) (ids : List TypeId) : State :=
  match w.aliases with
  | [] => ⟨w, [], .halt (.ok (ids, w.table))⟩
  | a :: rest =>
    let (t, pending) := fillAliases w.table (a :: rest)
    if pending.length = (a :: rest).length then ⟨w, [], .halt (.error (.undefinedPlace a.1))⟩
    else ⟨{ w with table := t, aliases := pending }, [], .fill ids⟩

/-- One step; there is none where the machine is done. -/
def step (p : Program) : State → Option State
  | ⟨w, k, .start task n⟩ => some (start p w k n task)
  | ⟨w, k, .order is⟩ => some (takeNext w k is)
  | ⟨w, f :: k, .give (.ok ids)⟩ => resume p w k f ids
  | ⟨w, f :: k, .give (.error x)⟩ => some (fail p w k x f)
  | ⟨w, [], .give (.ok ids)⟩ => some ⟨w, [], .fill ids⟩
  | ⟨w, [], .give (.error x)⟩ => some ⟨w, [], .halt (.error x)⟩
  | ⟨w, _, .fill ids⟩ => some (pass w ids)
  | ⟨_, _, .halt _⟩ => none

/-- The machine comes from one state to another, in any number of steps. -/
def Runs (p : Program) : State → State → Prop :=
  Relation.ReflTransGen fun σ σ' => step p σ = some σ'

/-! ## The rules as runs -/

variable {p : Program}

theorem Runs.head {σ σ' σ'' : State} (h : step p σ = some σ') (h' : Runs p σ' σ'') :
    Runs p σ σ'' := Relation.ReflTransGen.head h h'

theorem Runs.single {σ σ' : State} (h : step p σ = some σ') : Runs p σ σ' :=
  Relation.ReflTransGen.single h

theorem Runs.trans {σ σ' σ'' : State} (h : Runs p σ σ') (h' : Runs p σ' σ'') : Runs p σ σ'' :=
  Relation.ReflTransGen.trans h h'

/-- Taking up the task, the machine comes to the outcome over any stack that leaves the room. -/
def Computes (p : Program) (room : Nat) (task : Task) (n : Nat) (w : Workspace)
    (r : Except ResolveError (List TypeId)) (w' : Workspace) : Prop :=
  ∀ k, genericBodies k + room = maxInstances →
    Runs p ⟨w, k, .start task n⟩ ⟨w', k, .give r⟩

/-- A type that is neither a position nor a name is built of its parts. -/
theorem step_built {w : Workspace} {k : List Frame} {e : TypeExpr} {s : Bindings} {n : Nat}
    (hindex : ∀ i, e ≠ .index i) (hnamed : ∀ name es, e ≠ .named name es) :
    step p ⟨w, k, .start (.type e s) n⟩
      = some ⟨w, .build e :: k, .start (.parts (parts e) s) (n + 1)⟩ := by
  cases e with
  | index i => exact absurd rfl (hindex i)
  | named name es => exact absurd rfl (hnamed name es)
  | _ => rfl

theorem step_shaped {w : Workspace} {k : List Frame} {e : TypeExpr} {s : Bindings} {n : Nat}
    {ids : List TypeId} {shape : Shape} (h : shapeOver e ids = some shape) :
    step p ⟨w, k, .start (.type e s) n⟩
      = some ⟨w, .build e :: k, .start (.parts (parts e) s) (n + 1)⟩ := by
  refine step_built ?_ ?_
  · rintro i rfl
    cases h
  · rintro name es rfl
    cases h

/-- What the rules resolve, the machine resolves. -/
theorem computes_of_resolves {room n : Nat} {task : Task} {w w' : Workspace}
    {r : Except ResolveError (List TypeId)} (h : Resolves p room task n w r w') :
    Computes p room task n w r w' := by
  induction h with
  | nil => exact fun k _ => .single rfl
  | fault => exact fun k _ => .single rfl
  | @stop room s n w w' x e es _ ih =>
    intro k hk
    refine .head rfl ((ih (.rest es s n :: k) hk).trans ?_)
    exact .single rfl
  | @next room s n w w' w'' id r e es _ _ ihe ihes =>
    intro k hk
    refine .head rfl ((ihe (.rest es s n :: k) hk).trans ?_)
    refine .head rfl ((ihes (.first id :: k) hk).trans ?_)
    cases r <;> exact .single rfl
  | @unbuilt room s n w w' x e hparts ih =>
    intro k hk
    refine .head (step_built ?_ ?_) ((ih (.build e :: k) hk).trans (.single rfl))
    · rintro i rfl
      cases hparts
    · rintro name es rfl
      cases hparts
  | @unsound room s n w w' x e ids shape _ hshape hcheck ih =>
    intro k hk
    refine .head (step_shaped hshape) ((ih (.build e :: k) hk).trans (.single ?_))
    simp only [step, resume, hshape, hcheck, Option.map_some]
  | @built room s n w w' e ids shape _ hshape hcheck ih =>
    intro k hk
    refine .head (step_shaped hshape) ((ih (.build e :: k) hk).trans (.single ?_))
    simp only [step, resume, hshape, hcheck, Option.map_some]
  | @index room s n w w' r i hi _ ih =>
    intro k hk
    refine .head ?_ (ih k hk)
    exact congrArg some (if_pos hi)
  | @placed room s n w i hi =>
    intro k hk
    refine .single ?_
    exact congrArg some (if_neg (Nat.not_lt.mpr hi))
  | @bound room s n w name id hid =>
    intro k hk
    refine .single ?_
    simp only [step, start, startType, startName, hid]
  | @declared room s n w w' r name i hs hi _ ih =>
    intro k hk
    refine .head ?_ (ih k hk)
    simp only [step, start, startType, startName, hs, hi]
  | known hs hi hid =>
    intro k hk
    refine .single ?_
    simp only [step, start, startType, startName, hs, hi, hid]
  | primitive hs hi hid hprim =>
    intro k hk
    refine .single ?_
    simp only [step, start, startType, startName, hs, hi, hid, hprim]
  | unknown hs hi hid hprim =>
    intro k hk
    refine .single ?_
    simp only [step, start, startType, startName, hs, hi, hid, hprim]
  | refused hx =>
    intro k hk
    refine .single ?_
    simp only [step, start, startType, hx]
  | tooDeep hg =>
    intro k hk
    have hfull : ¬ genericBodies k < maxInstances := by omega
    refine .single ?_
    simp only [step, start, startType, hg, if_neg hfull]
  | @unapplied room s n w w' x g name e es hg _ ih =>
    intro k hk
    have hroom : genericBodies k < maxInstances := by omega
    refine .head ?_ ((ih (.apply g name n :: k) hk).trans (.single rfl))
    simp only [step, start, startType, hg, if_pos hroom]
  | @applied room s n w w' w'' r g name e es ids hg _ _ ihargs ih =>
    intro k hk
    have hroom : genericBodies k < maxInstances := by omega
    refine .head ?_ ((ihargs (.apply g name n :: k) hk).trans (.head rfl (ih k hk)))
    simp only [step, start, startType, hg, if_pos hroom]
  | done hi =>
    intro k hk
    refine .single ?_
    simp only [step, start, startDefinition, hi]
  | bare hi =>
    intro k hk
    refine .single ?_
    simp only [step, start, startDefinition, hi]
  | flat hi hmeet =>
    intro k hk
    refine .single ?_
    simp only [step, start, startDefinition, hi, hmeet]
  | again hi hmeet =>
    intro k hk
    refine .single ?_
    simp only [step, start, startDefinition, hi, hmeet]
  | @failed room n w w' i x hi _ ih =>
    intro k hk
    refine .head ?_ ((ih (.definition i :: k) hk).trans (.single rfl))
    simp only [step, start, startDefinition, hi]
  | @endless room n w w' w'' i u id x hi _ hu hsettle ih =>
    intro k hk
    refine .head ?_ ((ih (.definition i :: k) hk).trans (.single ?_))
    · simp only [step, start, startDefinition, hi]
    · simp only [step, resume, hu, hsettle]
  | @defined room n w w' w'' i u id id' hi _ hu hsettle ih =>
    intro k hk
    refine .head ?_ ((ih (.definition i :: k) hk).trans (.single ?_))
    · simp only [step, start, startDefinition, hi]
    · simp only [step, resume, hu, hsettle]
  | cached hid =>
    intro k hk
    refine .single ?_
    simp only [step, start, startGeneric, hid]
  | flatInstance hnew hu hmeet =>
    intro k hk
    refine .single ?_
    simp only [step, start, startGeneric, hnew, hu, hmeet]
  | againInstance hnew hu hmeet =>
    intro k hk
    refine .single ?_
    simp only [step, start, startGeneric, hnew, hu, hmeet]
  | @failedInstance room n w w' g key x hnew hfirst _ ih =>
    intro k hk
    have hk' : genericBodies k + 1 + room = maxInstances := by omega
    let label := Program.instanceLabel w.table key
    refine .head ?_ ((ih (.generic g key label :: k) hk').trans (.single rfl))
    simp only [step, start, startGeneric, hnew, hfirst, label]
  | @endlessInstance room n w w' w'' g key u id x hnew hfirst _ hu hsettle ih =>
    intro k hk
    have hk' : genericBodies k + 1 + room = maxInstances := by omega
    let label := Program.instanceLabel w.table key
    refine .head ?_ ((ih (.generic g key label :: k) hk').trans (.single ?_))
    · simp only [step, start, startGeneric, hnew, hfirst, label]
    · simp only [step, resume, hu, hsettle, label, Option.map_some]
  | @instantiated room n w w' w'' g key u id id' hnew hfirst _ hu hsettle ih =>
    intro k hk
    have hk' : genericBodies k + 1 + room = maxInstances := by omega
    let label := Program.instanceLabel w.table key
    refine .head ?_ ((ih (.generic g key label :: k) hk').trans (.single ?_))
    · simp only [step, start, startGeneric, hnew, hfirst, label]
    · simp only [step, resume, hu, hsettle, label, Option.map_some]

end Typewire.Machine
