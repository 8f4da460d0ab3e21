-- A table of definitions is a model of them. Each type denotes what it is written as: a relation
-- between places and types holds of every definition, and where it holds of a type it says what
-- shape the place has and holds of the parts.
import Typewire.Proofs.Shape.Definitions
import Typewire.Proofs.Shape.Denotation

namespace Typewire

open Typewire.Language Resolving

/-! ## Models -/

/-- The definition at a position declares a name. -/
def Declares (ds : List Definition) (i : Nat) (d : Definition) (name : String) : Prop :=
  ds[i]? = some d ∧ d.name = some name

/-- A generic type is known by what its definition says. -/
theorem Declared.Of.generic_eq {ds : List Definition} {known : Declared} (h : Of ds known)
    {name : String} {g : Generic} (hg : known.generics.lookup name = some g) :
    ∃ i d, Declares ds i d name ∧ d.isGeneric = true ∧ g = ⟨d.params, d.body, d.line⟩ := by
  obtain ⟨i, d, hd, hname, hgeneric⟩ := h.generic name g hg
  have hbody := (h.named i d name hd hname).2
  rw [if_pos hgeneric, hg] at hbody
  cases hbody
  exact ⟨i, d, ⟨hd, hname⟩, hgeneric, rfl⟩

/-- The variant is the one that is written at a place of an enum: it has the name, the tag that is
written or else the place, and a payload where one is written. -/
structure Variant.Written (R : TypeId → TypeExpr → Prop) (place : Nat)
    (x : String × Option TypeExpr × Option Nat) (v : Variant) : Prop where
  name : v.name = x.1
  tag : v.tag.toNat = x.2.2.getD place
  bare : x.2.1 = none → v.payload = none
  payload : ∀ e, x.2.1 = some e → ∃ inner, v.payload = some inner ∧ R inner e

/-- The relation says of a place of the table what it is written as: each place has a shape, the
shape is that of the type under some bindings of parameters, and the parts of the shape are
written as the parts of the type. -/
structure Models (ds : List Definition) (t : Table) (R : TypeId → TypeExpr → Bindings → Prop) :
    Prop where
  known : ∀ id e s, R id e s → ∃ shape, t.shape? id = some shape
  primitive : ∀ id name s, R id (.primitive name) s →
    ∃ prim, Primitive.ofName? name = some prim ∧ t.shape? id = some (.primitive prim)
  primitiveName : ∀ id name s prim, R id (.named name []) s → Primitive.ofName? name = some prim →
    t.shape? id = some (.primitive prim)
  index : ∀ id i s, R id (.index i) s →
    ∃ other, t.typeAt i = .ok other ∧ t.shape? id = t.shape? other
  bound : ∀ id name s other, R id (.named name []) s → s.lookup name = some other →
    t.shape? id = t.shape? other
  declared : ∀ id name s i d, R id (.named name []) s → s.lookup name = none →
    Declares ds i d name → ∃ other, d.isGeneric = false ∧ t.names.lookup name = some other ∧
      t.typeAt i = .ok other ∧ t.shape? id = t.shape? other
  named : ∀ id name s, R id (.named name []) s → (s.lookup name).isSome = true ∨
    (∃ i d, Declares ds i d name) ∨ Primitive.isName name = true
  applied : ∀ id name e es s, R id (.named name (e :: es)) s → ∃ i d ids, Declares ds i d name ∧
    d.isGeneric = true ∧ d.params.length = es.length + 1 ∧ ids.length = es.length + 1 ∧
    (∀ q ∈ ids.zip (e :: es), R q.1 q.2 s) ∧ R id d.body (Program.bind d.params ids)
  compact : ∀ id e s, R id (.compact e) s →
    ∃ inner, t.shape? id = some (.compact inner) ∧ R inner e s
  sequence : ∀ id e s, R id (.sequence e) s →
    ∃ element, t.shape? id = some (.sequence element) ∧ R element e s
  array : ∀ id e length s, R id (.array e length) s →
    ∃ element, t.shape? id = some (.array element length) ∧ R element e s
  tuple : ∀ id es s, R id (.tuple es) s → ∃ members, t.shape? id = some (.tuple members) ∧
    members.length = es.length ∧ ∀ q ∈ members.zip es, R q.1 q.2 s
  enum : ∀ id vs s, R id (.enum vs) s → ∃ variants, t.shape? id = some (.enum variants) ∧
    variants.length = vs.length ∧ ∀ (k : Nat) (v : Variant) (x), variants[k]? = some v →
      vs[k]? = some x → v.Written (fun inner e => R inner e s) k x
  struct : ∀ id fs s, R id (.struct fs) s → ∃ fields, t.shape? id = some (.struct fields) ∧
    fields.length = fs.length ∧ ∀ q ∈ fields.zip fs, q.1.name = q.2.1 ∧ R q.1.type q.2.2 s

/-! ## Denoting in a row -/

variable {p : Program} {t : Table} {s : Bindings}

theorem DenoteAll.of_map {es : List TypeExpr} {ids : List TypeId}
    (h : DenoteAll p t (es.map .ok) s ids) :
    ids.length = es.length ∧ ∀ q ∈ ids.zip es, Denotes p t q.2 s q.1 := by
  induction es generalizing ids with
  | nil =>
    cases h
    exact ⟨rfl, fun q hq => by cases hq⟩
  | cons e es ih =>
    cases h with
    | cons hfirst hrest =>
      obtain ⟨hlength, hothers⟩ := ih hrest
      refine ⟨congrArg Nat.succ hlength, fun q hq => ?_⟩
      rcases List.mem_cons.mp hq with rfl | hq
      · exact hfirst
      · exact hothers q hq

theorem toNat_of_tagOf {name : String} {tag : Option Nat} {place : Nat} {b : UInt8}
    (h : tagOf name tag place = .ok b) : (tagAt tag place).toNat = tag.getD place := by
  simp only [tagOf] at h
  split at h
  · rename_i hlt
    rw [tagAt, UInt8.toNat_ofNat']
    exact Nat.mod_eq_of_lt hlt
  · cases h

/-- The variants of an enum are those that are written. -/
theorem DenoteAll.of_payloads {vs : List (String × Option TypeExpr × Option Nat)} {place : Nat}
    {ids : List TypeId} (h : DenoteAll p t (payloads vs place) s ids) :
    (variantsOver vs place ids).length = vs.length ∧
      ∀ (k : Nat) (v : Variant) (x), (variantsOver vs place ids)[k]? = some v → vs[k]? = some x →
        v.Written (fun inner e => Denotes p t e s inner) (place + k) x := by
  induction vs generalizing place ids with
  | nil => exact ⟨rfl, fun k v x hv => by cases hv⟩
  | cons x vs ih =>
    obtain ⟨name, payload, tag⟩ := x
    simp only [payloads] at h
    cases htag : tagOf name tag place with
    | error x =>
      simp only [htag] at h
      cases h
    | ok b =>
      have hb := toNat_of_tagOf htag
      have hlater {ids : List TypeId} {v : Variant} {x} {k : Nat}
          (hrest : DenoteAll p t (payloads vs (place + 1)) s ids)
          (hv : (variantsOver vs (place + 1) ids)[k]? = some v) (hx : vs[k]? = some x) :
          v.Written (fun inner e => Denotes p t e s inner) (place + (k + 1)) x := by
        rw [← Nat.add_assoc, Nat.add_right_comm]
        exact (ih hrest).2 k v x hv hx
      cases payload with
      | none =>
        simp only [htag] at h
        refine ⟨congrArg Nat.succ (ih h).1, fun k v x hv hx => ?_⟩
        cases k with
        | zero =>
          cases hv
          cases hx
          exact ⟨rfl, hb, fun _ => rfl, fun e he => by cases he⟩
        | succ k => exact hlater h hv hx
      | some e =>
        simp only [htag] at h
        cases h with
        | @cons _ _ _ id ids hfirst hrest =>
          refine ⟨congrArg Nat.succ (ih hrest).1, fun k v x hv hx => ?_⟩
          cases k with
          | zero =>
            cases hv
            cases hx
            refine ⟨rfl, hb, fun hnone => (by cases hnone), fun e' he => ?_⟩
            cases he
            exact ⟨id, rfl, hfirst⟩
          | succ k => exact hlater hrest hv hx

theorem DenoteAll.of_fields {fs : List (String × TypeExpr)} {ids : List TypeId}
    (h : DenoteAll p t (fs.map (.ok ·.2)) s ids) :
    (fieldsOver fs ids).length = fs.length ∧
      ∀ q ∈ (fieldsOver fs ids).zip fs, q.1.name = q.2.1 ∧ Denotes p t q.2.2 s q.1.type := by
  induction fs generalizing ids with
  | nil => exact ⟨rfl, fun q hq => by cases hq⟩
  | cons f fs ih =>
    cases h with
    | cons hfirst hrest =>
      obtain ⟨hlength, hothers⟩ := ih hrest
      refine ⟨congrArg Nat.succ hlength, fun q hq => ?_⟩
      rcases List.mem_cons.mp hq with rfl | hq
      · exact ⟨rfl, hfirst⟩
      · exact hothers q hq

/-! ## What a type denotes -/

theorem Denotes.of_built {e : TypeExpr} {id : TypeId} (h : Denotes p t e s id)
    (hnamed : ∀ name args, e ≠ .named name args) (hindex : ∀ i, e ≠ .index i) :
    ∃ ids shape, shapeOver e ids = some shape ∧ DenoteAll p t (parts e) s ids ∧
      t.shape? id = some shape := by
  cases h with
  | built hover hparts hid => exact ⟨_, _, hover, hparts, hid⟩
  | index => exact absurd rfl (hindex _)
  | bound | declared | primitive | applied => exact absurd rfl (hnamed _ _)

/-- A type around one other denotes a shape around what that denotes. -/
theorem Denotes.of_around {e inner : TypeExpr} {id : TypeId} (h : Denotes p t e s id)
    (hparts : parts e = [.ok inner]) (hnamed : ∀ name args, e ≠ .named name args)
    (hindex : ∀ i, e ≠ .index i) :
    ∃ x shape, Denotes p t inner s x ∧ shapeOver e [x] = some shape ∧ t.shape? id = some shape := by
  obtain ⟨ids, shape, hover, hall, hid⟩ := h.of_built hnamed hindex
  rw [hparts] at hall
  cases hall with
  | cons hfirst hrest =>
    cases hrest
    exact ⟨_, shape, hfirst, hover, hid⟩

theorem Denotes.of_index {i : Nat} {id : TypeId} (h : Denotes p t (.index i) s id) :
    ∃ other, t.positions[i]? = some (some other) ∧ t.shape? id = t.shape? other := by
  cases h with
  | index hi hid => exact ⟨_, hi, hid⟩
  | built hover => cases hover

theorem Denotes.of_name {name : String} {id : TypeId} (h : Denotes p t (.named name []) s id) :
    (∃ other, s.lookup name = some other ∧ t.shape? id = t.shape? other) ∨
      (s.lookup name = none ∧ ∃ i other, p.positionOf.lookup name = some i ∧
        t.positions[i]? = some (some other) ∧ t.shape? id = t.shape? other) ∨
      (s.lookup name = none ∧ p.positionOf.lookup name = none ∧
        ∃ prim, Primitive.ofName? name = some prim ∧ t.shape? id = some (.primitive prim)) := by
  cases h with
  | bound hs hid => exact Or.inl ⟨_, hs, hid⟩
  | declared hs hname hi hid => exact Or.inr (Or.inl ⟨hs, _, _, hname, hi, hid⟩)
  | primitive hs hname hprim hid => exact Or.inr (Or.inr ⟨hs, hname, _, hprim, hid⟩)
  | built hover => cases hover

theorem Denotes.of_applied {name : String} {e : TypeExpr} {es : List TypeExpr} {id : TypeId}
    (h : Denotes p t (.named name (e :: es)) s id) :
    ∃ g ids other, t.generics.lookup name = some g ∧ g.params.length = es.length + 1 ∧
      DenoteAll p t ((e :: es).map .ok) s ids ∧
      t.instances.lookup ⟨name, ids⟩ = some other ∧ t.shape? id = t.shape? other := by
  cases h with
  | applied hg hlength hargs hinst hid => exact ⟨_, _, _, hg, hlength, hargs, hinst, hid⟩
  | built hover => cases hover

/-! ## Tables of definitions -/

/-- What a table of definitions comes with: its generic definitions are those that were declared,
each definition and each generic instance stands at a place that it denotes, and every place has
a shape. -/
structure Denoted (ds : List Definition) (known : Declared) (t : Table) : Prop where
  generics : t.generics = known.generics
  closed : t.Closed
  shapes : ∀ id, id < t.size → ∃ shape, t.shape? id = some shape
  definitions : ∀ (i : Nat) (d : Definition), ds[i]? = some d → d.isGeneric = false →
    ∃ id, t.positions[i]? = some (some id) ∧ Denotes (known.program ds) t d.body [] id ∧
      ∀ name, d.name = some name → t.names.lookup name = some id
  instances : ∀ key id, t.instances.lookup key = some id →
    ∃ g, t.generics.lookup key.name = some g ∧
      Denotes (known.program ds) t g.body (Program.bind g.params key.args) id

theorem sameNotes_fillAll {t t' : Table} {aliases : List (TypeId × TypeId)}
    (h : fillAll t aliases = .ok t') : t.SameNotes t' :=
  fillAll_keeps (P := fun u => t.SameNotes u)
    (fun _ _ _ _ hu => ⟨hu.positions, hu.names, hu.instances, hu.generics, hu.expressions⟩)
    (.refl t) h

theorem Workspace.Idle.instancePlace {w : Workspace} (h : w.Idle) {key : InstanceKey} {id : TypeId}
    (hkey : w.instancePlace key = some id) : w.table.instances.lookup key = some id := by
  cases hu : w.instances.lookup key with
  | some u => exact (h.instances key u hu).elim
  | none => rwa [Workspace.instancePlace, hu, Option.bind_none, Option.or_none] at hkey

/-- When nothing is underway only aliases hold reserved places. -/
theorem Workspace.Idle.linked {w : Workspace} (h : w.Idle) {holder : Holder} {id : TypeId}
    (hid : w.reservedBy holder = some id) : ∃ a ∈ w.aliases, a.1 = id := by
  cases holder with
  | definition i =>
    cases hi : w.progressAt i with
    | underway u => exact (h.definitions i u hi).elim
    | waiting | done | generic =>
      rw [Workspace.reservedBy, hi] at hid
      cases hid
  | generic key =>
    obtain ⟨u, hu, -⟩ := Option.bind_eq_some_iff.mp hid
    exact (h.instances key u hu).elim
  | linked k =>
    obtain ⟨a, ha, rfl⟩ := Option.map_eq_some_iff.mp hid
    exact ⟨a, List.mem_of_getElem? ha, rfl⟩

/-- When nothing is underway and all reserved places are filled, every promise is kept. -/
theorem Workspace.Faithful.keptBy_fillAll {w : Workspace} (h : w.Faithful p) (hidle : w.Idle)
    {t : Table} (hfill : fillAll w.table w.aliases = .ok t) : w.KeptBy t := by
  obtain ⟨hshapes, haliases⟩ := h.orderly.pending.fillAll hfill
  have hnotes := sameNotes_fillAll hfill
  refine ⟨hshapes, haliases, ?_, ?_, hnotes.generics⟩
  · intro i id hi
    rw [hnotes.positions]
    rw [Workspace.placeOf] at hi
    cases hp : w.progressAt i with
    | done other =>
      rw [hp] at hi
      cases hi
      exact h.done i id hp
    | underway u => exact (hidle.definitions i u hp).elim
    | waiting =>
      rw [hp] at hi
      cases hi
    | generic =>
      rw [hp] at hi
      cases hi
  · intro key id hkey
    rw [hnotes.instances]
    exact hidle.instancePlace hkey

theorem shapes_of_check {t : Table} (h : t.check 0 = .ok ()) {id : TypeId} (hid : id < t.size) :
    ∃ shape, t.shape? id = some shape := by
  obtain ⟨u, hplaces, -⟩ := except_bind_ok h
  have hplace := forM_ok hplaces id (by simpa using hid)
  cases hs : t.shape? id with
  | some shape => exact ⟨shape, rfl⟩
  | none =>
    unfold Table.checkPlace at hplace
    rw [hs] at hplace
    cases hplace

theorem Declared.Of.positionOf {ds : List Definition} {known : Declared}
    (h : Declared.Of ds known) {i : Nat} {d : Definition} {name : String} (hd : ds[i]? = some d)
    (hname : d.name = some name) (hg : d.isGeneric = false) :
    known.positionOf.lookup name = some i := by
  have := (h.named i d name hd hname).2
  rwa [hg, if_neg (by simp)] at this

theorem definitionAt_program {ds : List Definition} {known : Declared} {i : Nat} {d : Definition}
    (hd : ds[i]? = some d) : (known.program ds).definitionAt i = d := by
  simp [Program.definitionAt, Declared.program, hd]

theorem size_program (ds : List Definition) (known : Declared) :
    (known.program ds).definitions.size = ds.length := by
  simp [Declared.program]

theorem lt_size_program {ds : List Definition} {known : Declared} {i : Nat} {d : Definition}
    (hd : ds[i]? = some d) : i < (known.program ds).definitions.size := by
  rw [size_program]
  exact (List.getElem?_eq_some_iff.mp hd).1

theorem orderly_start {ds : List Definition} {known : Declared} (h : Declared.Of ds known) :
    (known.start ds).Orderly := by
  have hfree : (known.start ds).reservedBy = fun _ => none := by
    funext holder
    cases holder with
    | definition i =>
      rcases progressAt_start_cases h i with hi | hi
      · rw [Workspace.reservedBy, hi]
        rfl
      · rw [Workspace.reservedBy, hi]
        rfl
    | generic key => rfl
    | linked k => rfl
  refine ⟨?_, fun key u hu => by cases hu⟩
  rw [hfree]
  exact .empty rfl rfl

theorem faithful_start {ds : List Definition} {known : Declared} (h : Declared.Of ds known) :
    (known.start ds).Faithful (known.program ds) := by
  have hnotDone (i : Nat) (id : TypeId) : (known.start ds).progressAt i ≠ .done id := by
    rcases progressAt_start_cases h i with hi | hi
    · rw [hi]
      exact Progress.noConfusion
    · rw [hi]
      exact Progress.noConfusion
  constructor
  case orderly => exact orderly_start h
  case size => simpa [Declared.start, Declared.program] using h.size
  case positions => simp [Declared.start, Declared.program]
  case done => exact fun i id hi => absurd hi (hnotDone i id)
  case declared =>
    intro i name hi hname
    have hlt := Workspace.lt_of_progressAt hi
    obtain ⟨d, hd⟩ : ∃ d, ds[i]? = some d := ⟨_, List.getElem?_eq_getElem (h.size ▸ hlt)⟩
    rw [definitionAt_program hd] at hname
    refine h.positionOf hd hname ?_
    rw [progressAt_start h hd, hname] at hi
    simpa using hi
  case bound => exact fun name id hname => by cases hname
  case named => exact fun i id name hi => absurd hi (hnotDone i id)
  case definitions => exact fun i id hi => absurd hi (hnotDone i id)
  case instances => exact fun key id hid => by cases hid

/-- When all definitions are done and every place has its shape, the table denotes what is
written. -/
theorem denoted_of_faithful {ds : List Definition} {known : Declared} {w : Workspace} {t : Table}
    (hof : Declared.Of ds known) (hfaithful : w.Faithful (known.program ds)) (hidle : w.Idle)
    (hgenerics : w.table.generics = known.generics)
    (hdone : ∀ i < (known.program ds).definitions.size,
      (known.start ds).progressAt i ≠ .generic → ∃ id, w.progressAt i = .done id)
    (hfill : fillAll w.table w.aliases = .ok t) (hclosed : t.Closed)
    (hshapes : ∀ id, id < t.size → ∃ shape, t.shape? id = some shape) : Denoted ds known t := by
  have hkept := hfaithful.keptBy_fillAll hidle hfill
  have hnotes := sameNotes_fillAll hfill
  refine ⟨hnotes.generics.trans hgenerics, hclosed, hshapes, ?_, ?_⟩
  · intro i d hd hg
    obtain ⟨id, hid⟩ := hdone i (lt_size_program hd) (start_not_generic hof hd hg)
    have hbody := hfaithful.definitions i id hid t hkept
    rw [definitionAt_program hd] at hbody
    refine ⟨id, hkept.definitions i id (Workspace.placeOf_eq hid), hbody, fun name hname => ?_⟩
    rw [hnotes.names]
    exact hfaithful.named i id name hid (by rw [definitionAt_program hd, hname])
  · intro key id hid
    rw [hnotes.instances] at hid
    obtain ⟨g, hg, hbody⟩ := hfaithful.instances key id hid
    exact ⟨g, by rw [hnotes.generics, hg], hbody t hkept⟩

/-- A faithful workspace stays so, with its generic definitions, where a definition is resolved. -/
theorem Resolves.faithful {i n room : Nat} {w w' : Workspace} {ids : List TypeId}
    (h : Resolves p room (.definition i) n w (.ok ids) w') (hw : w.Faithful p) :
    w'.Faithful p ∧ w'.table.generics = w.table.generics := by
  have harrives := h.arrives hw trivial
  exact ⟨harrives.faithful, harrives.refines.generics⟩

/-- Whatever is accepted as a table of definitions denotes what is written. -/
theorem denoted_ofDefinitions {ds : List Definition} {t : Table}
    (h : Table.ofDefinitions ds = .ok t) :
    ∃ known, Declared.Of ds known ∧ Denoted ds known t := by
  obtain ⟨known, w, hall, -, hrun, hfill, hcheck⟩ := ofDefinitions_ok h
  have hof := Declared.of_all hall
  refine ⟨known, hof, ?_⟩
  obtain ⟨⟨hfaithful, hgenerics⟩, hidle, hdone⟩ := resolveAll_keeps
    (P := fun w => w.Faithful (known.program ds) ∧ w.table.generics = known.generics)
    (fun i w ids w' hw _ hdef => by
      obtain ⟨hfaithful, hgenerics⟩ := hdef.faithful hw.1
      exact ⟨hfaithful, hgenerics.trans hw.2⟩)
    (waiting_start hof) (idle_start hof) ⟨faithful_start hof, rfl⟩ hrun
  exact denoted_of_faithful hof hfaithful hidle hgenerics hdone hfill (closed_ofDefinitions h)
    fun id => shapes_of_check hcheck

/-! ## The model -/

/-- The bindings are of names that are free for parameters, to places with a shape. -/
def BoundIn (t : Table) (s : Bindings) : Prop :=
  ∀ name id, s.lookup name = some id →
    Primitive.isName name = false ∧ ∃ shape, t.shape? id = some shape

/-- The place is written as the type under some bindings. -/
def WrittenAs (p : Program) (t : Table) (id : TypeId) (e : TypeExpr) (s : Bindings) : Prop :=
  Denotes p t e s id ∧ BoundIn t s

theorem Variant.Written.imp {R R' : TypeId → TypeExpr → Prop} {place : Nat}
    {x : String × Option TypeExpr × Option Nat} {v : Variant} (h : v.Written R place x)
    (himp : ∀ id e, R id e → R' id e) : v.Written R' place x where
  name := h.name
  tag := h.tag
  bare := h.bare
  payload e he := by
    obtain ⟨inner, hinner, hR⟩ := h.payload e he
    exact ⟨inner, hinner, himp inner e hR⟩

theorem typeAt_of_position {i : Nat} {id : TypeId} (h : t.positions[i]? = some (some id)) :
    t.typeAt i = .ok id := by
  rw [Table.typeAt, h]

namespace Denoted

variable {ds : List Definition} {known : Declared}

/-- Whatever a type denotes has a shape. -/
theorem shape_of_writtenAs (h : Denoted ds known t) {id : TypeId} {e : TypeExpr}
    (hwritten : WrittenAs (known.program ds) t id e s) : ∃ shape, t.shape? id = some shape := by
  obtain ⟨hdenotes, hs⟩ := hwritten
  cases hdenotes with
  | built _ _ hid => exact ⟨_, hid⟩
  | index hi hid | declared _ _ hi hid =>
    rw [hid]
    exact h.shapes _ (h.closed.positions _ _ hi)
  | bound hname hid =>
    rw [hid]
    exact (hs _ _ hname).2
  | primitive _ _ _ hid => exact ⟨_, hid⟩
  | applied _ _ _ hkey hid =>
    rw [hid]
    exact h.shapes _ (h.closed.instances _ (mem_of_lookup hkey))

/-- A name is bound, or it is declared and leads to the place of its definition, or it is the
name of a primitive. -/
theorem of_name (h : Denoted ds known t) (hof : Declared.Of ds known) {id : TypeId} {name : String}
    (hwritten : WrittenAs (known.program ds) t id (.named name []) s) :
    (∃ other, s.lookup name = some other ∧ Primitive.isName name = false ∧
        t.shape? id = t.shape? other) ∨
      (s.lookup name = none ∧ Primitive.isName name = false ∧ ∃ i d other, Declares ds i d name ∧
        d.isGeneric = false ∧ t.names.lookup name = some other ∧ t.typeAt i = .ok other ∧
        t.shape? id = t.shape? other) ∨
      (s.lookup name = none ∧ (∀ i d, ¬ Declares ds i d name) ∧
        ∃ prim, Primitive.ofName? name = some prim ∧ t.shape? id = some (.primitive prim)) := by
  obtain ⟨hdenotes, hs⟩ := hwritten
  rcases hdenotes.of_name with ⟨other, hname, hid⟩ | ⟨hname, i, other, hi, hplace, hid⟩ |
    ⟨hname, -, prim, hprim, hid⟩
  · exact Or.inl ⟨other, hname, (hs name other hname).1, hid⟩
  · obtain ⟨d, hd, hdname, hg⟩ := hof.position name i hi
    obtain ⟨id', hplace', -, hnames⟩ := h.definitions i d hd hg
    cases hplace.symm.trans hplace'
    exact Or.inr (Or.inl ⟨hname, (hof.named i d name hd hdname).1, i, d, other, ⟨hd, hdname⟩, hg,
      hnames name hdname, typeAt_of_position hplace, hid⟩)
  · refine Or.inr (Or.inr ⟨hname, fun i d hd => ?_, prim, hprim, hid⟩)
    have hfree := (hof.named i d name hd.1 hd.2).1
    rw [Primitive.isName, hprim] at hfree
    cases hfree

/-- The parameters of a generic definition are bound to the places of its arguments. -/
theorem boundIn_bind (h : Denoted ds known t) (hof : Declared.Of ds known) {i : Nat}
    {d : Definition} {name : String} (hd : Declares ds i d name) {ids : List TypeId}
    {es : List TypeExpr} (hlength : ids.length = es.length)
    (hids : ∀ q ∈ ids.zip es, WrittenAs (known.program ds) t q.1 q.2 s) :
    BoundIn t (Program.bind d.params ids) := by
  intro param id hlookup
  have hmem : (param, id) ∈ d.params.zip ids := List.mem_reverse.mp (mem_of_lookup hlookup)
  obtain ⟨hparam, hid⟩ := List.of_mem_zip hmem
  refine ⟨hof.params i d name hd.1 hd.2 param hparam, ?_⟩
  have hfst : (ids.zip es).map Prod.fst = ids := List.map_fst_zip (Nat.le_of_eq hlength)
  rw [← hfst] at hid
  obtain ⟨q, hq, rfl⟩ := List.mem_map.mp hid
  exact h.shape_of_writtenAs (hids q hq)

/-- A generic type with its arguments is written as the body over the places of the arguments. -/
theorem of_applied (h : Denoted ds known t) (hof : Declared.Of ds known) {id : TypeId}
    {name : String} {e : TypeExpr} {es : List TypeExpr}
    (hwritten : WrittenAs (known.program ds) t id (.named name (e :: es)) s) :
    ∃ i d ids, Declares ds i d name ∧ d.isGeneric = true ∧ d.params.length = es.length + 1 ∧
      ids.length = es.length + 1 ∧
      (∀ q ∈ ids.zip (e :: es), WrittenAs (known.program ds) t q.1 q.2 s) ∧
      WrittenAs (known.program ds) t id d.body (Program.bind d.params ids) := by
  obtain ⟨hdenotes, hs⟩ := hwritten
  obtain ⟨g, ids, other, hg, hparams, hargs, hkey, hid⟩ := hdenotes.of_applied
  obtain ⟨hlength, hids⟩ := hargs.of_map
  obtain ⟨i, d, hd, hgeneric, rfl⟩ := hof.generic_eq (h.generics ▸ hg)
  obtain ⟨g', hg', hdenotes'⟩ := h.instances ⟨name, ids⟩ other hkey
  cases hg.symm.trans hg'
  have hwritten : ∀ q ∈ ids.zip (e :: es), WrittenAs (known.program ds) t q.1 q.2 s :=
    fun q hq => ⟨hids q hq, hs⟩
  exact ⟨i, d, ids, hd, hgeneric, hparams, hlength, hwritten, hdenotes'.congr hid,
    h.boundIn_bind hof hd hlength hwritten⟩

theorem of_enum {id : TypeId} {vs : List (String × Option TypeExpr × Option Nat)}
    (hwritten : WrittenAs p t id (.enum vs) s) :
    ∃ variants, t.shape? id = some (.enum variants) ∧ variants.length = vs.length ∧
      ∀ (k : Nat) (v : Variant) (x), variants[k]? = some v → vs[k]? = some x →
        v.Written (fun inner e => WrittenAs p t inner e s) k x := by
  obtain ⟨hdenotes, hs⟩ := hwritten
  obtain ⟨ids, shape, hover, hparts, hid⟩ :=
    hdenotes.of_built (fun _ _ => TypeExpr.noConfusion) (fun _ => TypeExpr.noConfusion)
  cases hover
  simp only [parts] at hparts
  split at hparts
  · cases hparts
  · obtain ⟨hlength, hvariants⟩ := hparts.of_payloads
    refine ⟨_, hid, hlength, fun k v x hv hx => ?_⟩
    have hwritten := hvariants k v x hv hx
    rw [Nat.zero_add] at hwritten
    exact hwritten.imp fun _ _ hinner => ⟨hinner, hs⟩

theorem of_struct {id : TypeId} {fs : List (String × TypeExpr)}
    (hwritten : WrittenAs p t id (.struct fs) s) :
    ∃ fields, t.shape? id = some (.struct fields) ∧ fields.length = fs.length ∧
      ∀ q ∈ fields.zip fs, q.1.name = q.2.1 ∧ WrittenAs p t q.1.type q.2.2 s := by
  obtain ⟨hdenotes, hs⟩ := hwritten
  obtain ⟨ids, shape, hover, hparts, hid⟩ :=
    hdenotes.of_built (fun _ _ => TypeExpr.noConfusion) (fun _ => TypeExpr.noConfusion)
  cases hover
  obtain ⟨hlength, hfields⟩ := hparts.of_fields
  refine ⟨_, hid, hlength, fun q hq => ?_⟩
  obtain ⟨hname, hfield⟩ := hfields q hq
  exact ⟨hname, hfield, hs⟩

theorem of_tuple {id : TypeId} {es : List TypeExpr} (hwritten : WrittenAs p t id (.tuple es) s) :
    ∃ members, t.shape? id = some (.tuple members) ∧ members.length = es.length ∧
      ∀ q ∈ members.zip es, WrittenAs p t q.1 q.2 s := by
  obtain ⟨hdenotes, hs⟩ := hwritten
  obtain ⟨ids, shape, hover, hparts, hid⟩ :=
    hdenotes.of_built (fun _ _ => TypeExpr.noConfusion) (fun _ => TypeExpr.noConfusion)
  cases hover
  obtain ⟨hlength, hmembers⟩ := hparts.of_map
  exact ⟨_, hid, hlength, fun q hq => ⟨hmembers q hq, hs⟩⟩

theorem of_primitive {id : TypeId} {name : String}
    (hwritten : WrittenAs p t id (.primitive name) s) :
    ∃ prim, Primitive.ofName? name = some prim ∧ t.shape? id = some (.primitive prim) := by
  obtain ⟨ids, shape, hover, -, hid⟩ :=
    hwritten.1.of_built (fun _ _ => TypeExpr.noConfusion) (fun _ => TypeExpr.noConfusion)
  obtain ⟨prim, hprim, rfl⟩ := Option.map_eq_some_iff.mp hover
  exact ⟨prim, hprim, hid⟩

theorem of_around {id : TypeId} {e inner : TypeExpr} (hwritten : WrittenAs p t id e s)
    (hparts : parts e = [.ok inner]) (hnamed : ∀ name args, e ≠ .named name args)
    (hindex : ∀ i, e ≠ .index i) :
    ∃ x, t.shape? id = shapeOver e [x] ∧ WrittenAs p t x inner s := by
  obtain ⟨x, shape, hinner, hover, hid⟩ := hwritten.1.of_around hparts hnamed hindex
  exact ⟨x, hid.trans hover.symm, hinner, hwritten.2⟩

/-- A table that denotes what is written is a model of it. -/
theorem models (h : Denoted ds known t) (hof : Declared.Of ds known) :
    Models ds t (WrittenAs (known.program ds) t) where
  known _ _ _ hwritten := h.shape_of_writtenAs hwritten
  primitive _ _ _ hwritten := of_primitive hwritten
  primitiveName id name s prim hwritten hprim := by
    have hname : Primitive.isName name = true := by rw [Primitive.isName, hprim]; rfl
    rcases h.of_name hof hwritten with ⟨_, -, hfree, -⟩ | ⟨-, hfree, -⟩ | ⟨-, -, prim', hprim', hid⟩
    · cases hname.symm.trans hfree
    · cases hname.symm.trans hfree
    · cases hprim.symm.trans hprim'
      exact hid
  index _ _ _ hwritten := by
    obtain ⟨other, hi, hid⟩ := hwritten.1.of_index
    exact ⟨other, typeAt_of_position hi, hid⟩
  bound id name s other hwritten hname := by
    rcases h.of_name hof hwritten with ⟨other', hname', -, hid⟩ | ⟨hnone, -⟩ | ⟨hnone, -⟩
    · cases hname.symm.trans hname'
      exact hid
    · cases hnone.symm.trans hname
    · cases hnone.symm.trans hname
  declared id name s i d hwritten hname hd := by
    rcases h.of_name hof hwritten with
      ⟨_, hname', -⟩ | ⟨-, -, j, x, other, hx, hg, hnames, htype, hid⟩ | ⟨-, hno, -⟩
    · cases hname.symm.trans hname'
    · cases hof.distinct i j d x name hd.1 hx.1 hd.2 hx.2
      cases hd.1.symm.trans hx.1
      exact ⟨other, hg, hnames, htype, hid⟩
    · exact absurd hd (hno i d)
  named id name s hwritten := by
    rcases h.of_name hof hwritten with
      ⟨other, hname, -⟩ | ⟨-, -, i, d, _, hd, -⟩ | ⟨-, -, prim, hprim, -⟩
    · exact Or.inl (by rw [hname]; rfl)
    · exact Or.inr (Or.inl ⟨i, d, hd⟩)
    · exact Or.inr (Or.inr (by rw [Primitive.isName, hprim]; rfl))
  applied _ _ _ _ _ hwritten := h.of_applied hof hwritten
  compact _ _ _ hwritten :=
    of_around hwritten rfl (fun _ _ => TypeExpr.noConfusion) fun _ => TypeExpr.noConfusion
  sequence _ _ _ hwritten :=
    of_around hwritten rfl (fun _ _ => TypeExpr.noConfusion) fun _ => TypeExpr.noConfusion
  array _ _ _ _ hwritten :=
    of_around hwritten rfl (fun _ _ => TypeExpr.noConfusion) fun _ => TypeExpr.noConfusion
  tuple _ _ _ hwritten := of_tuple hwritten
  enum _ _ _ hwritten := of_enum hwritten
  struct _ _ _ hwritten := of_struct hwritten

end Denoted

end Typewire
