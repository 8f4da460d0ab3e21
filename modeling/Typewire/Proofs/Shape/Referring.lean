-- What goes wrong with references once a table is finished. The generic bodies were looked over, so
-- a generic type over arguments that have a type each fails to be resolved by a reference in one
-- way only: a body was allowed the position of any definition, also of one that is generic itself
-- and has no type without arguments.
import Typewire.Proofs.Shape.Recall
import Typewire.Proofs.Shape.Repeated
import Typewire.Proofs.Shape.Scopes

namespace Typewire

open Typewire.Language Resolving

variable {t t' : Table} {w w' : Workspace} {e : TypeExpr} {s : Bindings} {x : ResolveError}

/-! ## Tables -/

namespace Table

/-- What types may refer to in the table, when these positions are open to them. -/
def scope (t : Table) (position : Nat → Prop) : Scope where
  plain name := (∃ id, t.names.lookup name = some id) ∨ Primitive.isName name = true
  generic name given := ∃ g, t.generics.lookup name = some g ∧ g.params.length = given
  position := position

/-- The position is that of a type. -/
def Typed (t : Table) (i : Nat) : Prop := ∃ id, t.positions[i]? = some (some id)

/-- The position is that of a generic definition, and a generic body refers to it. -/
def IndexesGeneric (t : Table) (i : Nat) : Prop :=
  t.positions[i]? = some none ∧
    ∃ name g, t.generics.lookup name = some g ∧ g.body.Inside (.index i)

/-- What generic types over types of the table may refer to. -/
def bodyScope (t : Table) : Scope := t.scope fun i => t.Typed i ∨ t.IndexesGeneric i

/-- Generic types have parameters and names of their own, and refer to what is known. The positions
in their bodies are those of definitions, whether or not these have a type. -/
structure Referring (t : Table) : Prop where
  apart : t.Apart
  params : ∀ name g, t.generics.lookup name = some g → g.params ≠ []
  bodies : ∀ name g, t.generics.lookup name = some g →
    (t.scope (· < t.positions.size)).Covers g.binds g.body

/-- Where the error is about a reference, it is about the position of a generic definition in a
generic body. -/
def Excuses (t : Table) (x : ResolveError) : Prop :=
  x.bare.isReference = true →
    ∃ i, x.bare = .missingArguments ("#" ++ toString i) ∧ t.IndexesGeneric i

theorem Excuses.of_other (h : x.bare.isReference = false) : t.Excuses x := by
  intro href
  rw [h] at href
  cases href

theorem Excuses.within (h : t.Excuses x) (line : Nat) (label : String) :
    t.Excuses (x.within line label) := by
  unfold Excuses
  rw [ResolveError.bare_within]
  exact h

/-- A position that is open to types has a type, unless a generic body refers to it. -/
theorem excuses_typeAt {i : Nat} (hi : t.Typed i ∨ t.IndexesGeneric i)
    (h : t.typeAt i = .error x) : t.Excuses x := by
  unfold typeAt at h
  rcases hi with ⟨id, hid⟩ | hgeneric
  · rw [hid] at h
    cases h
  · rw [hgeneric.1] at h
    cases h
    exact fun _ => ⟨i, rfl, hgeneric⟩

theorem scope_extends (h : t.Extends t') (position : Nat → Prop) :
    t'.scope position = t.scope position := by
  unfold scope
  rw [h.names, h.generics]

namespace Referring

/-- The positions that a generic body refers to are those of types, or else of generic
definitions. -/
theorem covers_body (ht : t.Referring) {name : String} {g : Generic}
    (hg : t.generics.lookup name = some g) :
    t.bodyScope.Covers g.binds g.body := by
  refine (ht.bodies name g hg).of_positions rfl rfl fun i hin hi => ?_
  have hsome := Array.getElem?_eq_getElem (show i < t.positions.size from hi)
  cases hplace : t.positions[i] with
  | some id => exact Or.inl ⟨id, hplace ▸ hsome⟩
  | none => exact Or.inr ⟨hplace ▸ hsome, name, g, hg, hin⟩

theorem of_extends (ht : t.Referring) (hext : t.Extends t') : t'.Referring where
  apart := ht.apart.of_extends hext
  params name g hg := ht.params name g (hext.generics ▸ hg)
  bodies name g hg := by
    rw [scope_extends hext, hext.positions]
    exact ht.bodies name g (hext.generics ▸ hg)

end Referring

end Table

/-! ## Errors that are no references -/

theorem notReference_of_check {shape : Shape} (h : shape.check = .error x) :
    x.bare.isReference = false := by
  have hvariants (earlier vs : List Variant) (h : Shape.checkVariants earlier vs = .error x) :
      x.bare.isReference = false := by
    fun_induction Shape.checkVariants earlier vs with
    | case1 => cases h
    | case2 | case3 =>
      cases h
      rfl
    | case4 _ _ _ _ _ ih => exact ih h
  have hfields (earlier fs : List Field) (h : Shape.checkFields earlier fs = .error x) :
      x.bare.isReference = false := by
    fun_induction Shape.checkFields earlier fs with
    | case1 => cases h
    | case2 =>
      cases h
      rfl
    | case3 _ _ _ _ ih => exact ih h
  cases shape with
  | enum vs =>
    simp only [Shape.check] at h
    split at h
    · cases h
      rfl
    · exact hvariants [] vs h
  | struct fs => exact hfields [] fs h
  | primitive | compact | sequence | array | tuple => cases h

theorem notReference_of_payloads {vs : List (String × Option TypeExpr × Option Nat)} {place : Nat}
    (h : .error x ∈ payloads vs place) : x.bare.isReference = false := by
  induction vs generalizing place with
  | nil => cases h
  | cons v vs ih =>
    obtain ⟨name, payload, tag⟩ := v
    simp only [payloads] at h
    cases htag : tagOf name tag place with
    | error y =>
      rw [htag] at h
      rcases List.mem_cons.mp h with hsame | h
      · cases hsame
        simp only [tagOf] at htag
        split at htag
        · cases htag
        · cases htag
          rfl
      · exact ih h
    | ok b =>
      rw [htag] at h
      cases payload with
      | none => exact ih h
      | some e =>
        rcases List.mem_cons.mp h with hsame | h
        · cases hsame
        · exact ih h

/-- What is wrong between the parts of a type that is known is no reference. -/
theorem notReference_of_parts {c : Scope} {bound : String → Prop} (he : c.Knows bound e)
    (h : .error x ∈ parts e) : x.bare.isReference = false := by
  cases e with
  | primitive name =>
    simp only [parts, if_pos (show Primitive.isName name = true from he)] at h
    cases h
  | index | named => cases h
  | compact | sequence | array => cases List.mem_singleton.mp h
  | tuple es =>
    obtain ⟨_, -, hsame⟩ := List.mem_map.mp h
    cases hsame
  | enum vs =>
    simp only [parts] at h
    split at h
    · cases List.mem_singleton.mp h
      rfl
    · exact notReference_of_payloads h
  | struct fs =>
    obtain ⟨_, -, hsame⟩ := List.mem_map.mp h
    cases hsame

theorem notReference_of_meetAgain {u : Underway} {n : Nat} {label : String}
    {reservedLabel : Option String} (h : outcome (meetAgain u n label reservedLabel) w
      = (.error x, w')) : x.bare.isReference = false := by
  rcases meetAgain_cases u n label reservedLabel w with ⟨-, ho⟩ | ⟨-, _, -, ho⟩ | ⟨-, -, ho⟩
  · cases ho.symm.trans h
    rfl
  · cases ho.symm.trans h
  · cases ho.symm.trans h

theorem notReference_of_settle {u : Underway} {id : TypeId} {label : String}
    (h : outcome (settle u id label) w = (.error x, w')) : x.bare.isReference = false := by
  rcases settle_cases u id label w with
    ⟨-, ho⟩ | ⟨_, -, ⟨-, ho⟩ | ⟨_, -, -, ho⟩ | ⟨-, -, ho⟩⟩
  · cases ho.symm.trans h
  · cases ho.symm.trans h
    rfl
  · cases ho.symm.trans h
  · cases ho.symm.trans h

/-! ## Types that come to places -/

/-- All that the task refers to is in scope, and nothing is wrong between its parts. -/
def Task.Covered (c : Scope) : Task → Prop
  | .type e s => c.Covers (Bound s) e
  | .parts es s => ∀ part ∈ es, ∃ e, part = .ok e ∧ c.Covers (Bound s) e
  | .definition _ | .generic _ _ => True

/-- A name with arguments stands for a generic type where it is in scope. -/
theorem genericOf_iff {position : Nat → Prop} {name : String} {given : Nat} {g : Generic} :
    Program.genericOf {} t s name given = .ok g ↔
      ¬ (Bound s name ∨ (t.scope position).plain name) ∧
        t.generics.lookup name = some g ∧ g.params.length = given := by
  have hconcrete : Program.isConcrete {} t s name = true ↔
      Bound s name ∨ (t.scope position).plain name := by
    simp [Program.isConcrete, Bound, Table.scope, Option.isSome_iff_exists, or_assoc]
  rw [← hconcrete]
  constructor
  · intro h
    refine ⟨fun hname => ?_, genericOf_ok h⟩
    rw [Program.genericOf, if_pos hname] at h
    cases h
  · rintro ⟨hname, hg, hlength⟩
    simp [Program.genericOf, hname, hg, hlength]

/-- Whatever has come to a place refers to types only. -/
theorem Resolves.covered {room n : Nat} {task : Task} {ids : List TypeId}
    (h : Resolves {} room task n w (.ok ids) w') (hw : w.Since t) :
    task.Covered (t.scope t.Typed) := by
  induction h using Resolves.ok_induction with
  | done | again | defined | cached | againInstance | instantiated => trivial
  | nil => exact fun part hpart => by cases hpart
  | next hhead _ ih ih' => exact List.forall_mem_cons.mpr ⟨⟨_, rfl, ih hw⟩, ih' (hhead.since hw)⟩
  | @built _ _ _ _ _ e _ _ _ hover _ ih =>
    have hparts := ih hw
    refine Scope.covers_iff.mpr ⟨?_, fun inner hinner => ?_⟩
    · cases e with
      | primitive name =>
        obtain ⟨prim, hprim, -⟩ := Option.map_eq_some_iff.mp hover
        simp [Scope.Knows, Primitive.isName, hprim]
      | index | named => cases hover
      | compact | sequence | array | tuple | enum | struct => trivial
    · have hargs (name : String) (args : List TypeExpr) (hsame : e = .named name args) :
          args = [] := by
        subst hsame
        cases hover
      rcases parts_of_inside hargs hinner with hok | ⟨x, hx⟩
      · obtain ⟨_, hsame, hcovers⟩ := hparts _ hok
        cases hsame
        exact hcovers
      · obtain ⟨_, hsame, -⟩ := hparts _ hx
        cases hsame
  | index hi => exact absurd hi (Nat.not_lt_zero _)
  | placed _ hplace =>
    exact Scope.Knows.covers ⟨_, hw.extends.positions ▸ position_of_typeAt hplace⟩ rfl
  | bound hs => exact Scope.Knows.covers (Or.inl ⟨Or.inl ⟨_, hs⟩, rfl⟩) rfl
  | declared _ hi => cases hi
  | known _ _ hid =>
    rw [hw.extends.names] at hid
    exact Scope.Knows.covers (Or.inl ⟨Or.inr (Or.inl ⟨_, hid⟩), rfl⟩) rfl
  | @primitive _ _ _ _ name _ _ _ _ hprim =>
    have hname : Primitive.isName name = true := by rw [Primitive.isName, hprim]; rfl
    exact Scope.Knows.covers (Or.inl ⟨Or.inr (Or.inr hname), rfl⟩) rfl
  | applied hg _ _ ih =>
    rw [Table.Recalls.genericOf_congr hw.extends.names hw.extends.generics, genericOf_iff] at hg
    obtain ⟨hnot, hg, hlength⟩ := hg
    refine Scope.covers_iff.mpr ⟨Or.inr ⟨hnot, _, hg, hlength⟩, fun arg harg => ?_⟩
    obtain ⟨_, hsame, hcovers⟩ := ih hw (.ok arg) (List.mem_map_of_mem harg)
    cases hsame
    exact hcovers

/-! ## Errors that are references -/

/-- All that the task refers to is in scope, and what is wrong between its parts is no reference. -/
def Task.Refers (t : Table) : Task → Prop
  | .type e s => t.bodyScope.Covers (Bound s) e
  | .parts es s => (∀ e, .ok e ∈ es → t.bodyScope.Covers (Bound s) e) ∧
    ∀ x, .error x ∈ es → x.bare.isReference = false
  | .definition _ => False
  | .generic g key => key.Proper t.generics g

namespace Task.Refers

variable {es : List (Except ResolveError TypeExpr)}

theorem rest {part : Except ResolveError TypeExpr} (h : Refers t (.parts (part :: es) s)) :
    Refers t (.parts es s) :=
  ⟨fun e he => h.1 e (List.mem_cons_of_mem _ he), fun x hx => h.2 x (List.mem_cons_of_mem _ hx)⟩

theorem parts (h : Refers t (.type e s)) : Refers t (.parts (Typewire.parts e) s) :=
  ⟨fun _ hinner => Scope.Covers.inside h (inside_of_parts hinner),
    fun _ hx => notReference_of_parts (Scope.Covers.knows h) hx⟩

theorem args {name : String} {args : List TypeExpr} (h : Refers t (.type (.named name args) s)) :
    Refers t (.parts (args.map .ok) s) := by
  constructor
  · intro arg harg
    obtain ⟨_, harg, ⟨⟩⟩ := List.mem_map.mp harg
    exact Scope.Covers.inside h harg
  · intro x hx
    obtain ⟨_, -, ⟨⟩⟩ := List.mem_map.mp hx

theorem body (ht : t.Referring) {g : Generic} {key : InstanceKey}
    (h : Refers t (.generic g key)) :
    Refers t (.type g.body (Program.bind g.params key.args)) := by
  rw [Refers, Generic.bound_bind h.2]
  exact ht.covers_body h.1

/-- A name with arguments is that of a generic type over as many. -/
theorem genericOf {name : String} {arg : TypeExpr} {args : List TypeExpr}
    (h : Refers t (.type (.named name (arg :: args)) s)) :
    ∃ g, Program.genericOf {} t s name (args.length + 1) = .ok g := by
  rcases Scope.Covers.knows h with ⟨-, hnil⟩ | ⟨hnot, g, hg, hlength⟩
  · cases hnil
  · exact ⟨g, genericOf_iff.mpr ⟨hnot, hg, hlength⟩⟩

/-- A name without arguments is bound, or that of a plain type. -/
theorem plain (ht : t.Referring) {name : String} (h : Refers t (.type (.named name []) s)) :
    Bound s name ∨ t.bodyScope.plain name := by
  rcases Scope.Covers.knows h with ⟨hname, -⟩ | ⟨-, g, hg, hlength⟩
  · exact hname
  · exact absurd (List.eq_nil_of_length_eq_zero hlength) (ht.params name g hg)

end Task.Refers

/-- Whatever refers to what is in scope fails by a reference in one way only. -/
theorem Resolves.excuses (ht : t.Referring) {room n : Nat} {task : Task}
    {r : Except ResolveError (List TypeId)} (h : Resolves {} room task n w r w')
    (hr : r = .error x) (hw : w.Since t) (htask : task.Refers t) : t.Excuses x := by
  -- By induction on the run. A generic type is entered over its own parameters, so its body is in
  -- scope whatever the places of the arguments are.
  induction h generalizing x with
  | nil | built | bound | known | primitive | cached | againInstance | instantiated => cases hr
  | done | bare | flat | again | failed | endless | defined => exact htask.elim
  | index hi => exact absurd hi (Nat.not_lt_zero _)
  | declared _ hi => cases hi
  | fault =>
    cases hr
    exact .of_other (htask.2 _ List.mem_cons_self)
  | stop _ ih => exact ih hr hw (htask.1 _ List.mem_cons_self)
  | next hhead _ _ ih =>
    rename_i r _ _ _ _
    cases r with
    | ok ids => cases hr
    | error y =>
      cases hr
      exact ih rfl (hhead.since hw) htask.rest
  | unbuilt _ ih => exact ih hr hw htask.parts
  | unsound _ _ hcheck =>
    cases hr
    exact .of_other (notReference_of_check hcheck)
  | @placed _ _ _ w i =>
    rw [Table.typeAt_congr hw.extends.positions] at hr
    cases hplace : t.typeAt i with
    | ok id =>
      rw [hplace] at hr
      cases hr
    | error y =>
      rw [hplace] at hr
      cases hr
      exact Table.excuses_typeAt (Scope.Covers.knows htask) hplace
  | unknown hs _ hname hprim =>
    rw [hw.extends.names] at hname
    rcases htask.plain ht with hbound | ⟨id, hid⟩ | hprim'
    · exact absurd hbound (not_bound.mpr hs)
    · cases hname.symm.trans hid
    · simp [Primitive.isName, hprim] at hprim'
  | refused hg =>
    obtain ⟨g, hok⟩ := htask.genericOf
    rw [Table.Recalls.genericOf_congr hw.extends.names hw.extends.generics, hok] at hg
    cases hg
  | tooDeep =>
    cases hr
    exact .of_other rfl
  | unapplied _ _ ih => exact ih hr hw htask.args
  | applied hg hparts _ _ ih =>
    obtain ⟨hg', hlength⟩ := genericOf_ok hg
    refine ih hr (hparts.since hw) ⟨hw.extends.generics ▸ hg', ?_⟩
    simpa [length_of_resolves hparts] using hlength
  | flatInstance _ _ hmeet =>
    cases hr
    exact .of_other (notReference_of_meetAgain hmeet)
  | failedInstance _ _ _ ih =>
    cases hr
    exact (ih rfl (hw.enterInstance _ _) (htask.body ht)).within _ _
  | endlessInstance _ _ _ _ hsettle =>
    cases hr
    exact (Table.Excuses.of_other (notReference_of_settle hsettle)).within _ _

/-! ## Types that are taken up -/

theorem notReference_of_fillAll {aliases : List (TypeId × TypeId)}
    (h : fillAll t aliases = .error x) : x.bare.isReference = false := by
  fun_induction fillAll t aliases with
  | case1 => cases h
  | case2 =>
    cases h
    rfl
  | case3 _ _ _ _ _ ih => exact ih h

namespace Table

/-- A place whose shape is made of places of the table keeps the rules, or breaks one that is not
about a reference. -/
theorem notReference_of_checkPlace {id : TypeId}
    (hplaces : ∀ s, t.shape? id = some s → ∀ child ∈ s.references, child < t.size)
    (h : t.checkPlace id = .error x) : x.bare.isReference = false := by
  unfold checkPlace at h
  cases hs : t.shape? id with
  | none =>
    rw [hs] at h
    cases h
    rfl
  | some s =>
    have hfind : s.references.find? (!t.contains ·) = none :=
      List.find?_eq_none.mpr fun child hchild => by simpa [contains] using hplaces s hs child hchild
    simp only [hs, hfind] at h
    cases hcheck : s.check with
    | error y =>
      rw [hcheck] at h
      cases h
      exact notReference_of_check hcheck
    | ok u =>
      rw [hcheck] at h
      cases s with
      | compact inner =>
        cases hu : t.isUnsigned inner with
        | true =>
          simp only [hu] at h
          cases h
        | false =>
          simp only [hu] at h
          cases h
          rfl
      | primitive | sequence | array | tuple | enum | struct => cases h

theorem notReference_of_checkTable {mark : Nat}
    (hplaces : ∀ id s, t.shape? id = some s → ∀ child ∈ s.references, child < t.size)
    (h : t.check mark = .error x) : x.bare.isReference = false := by
  unfold check at h
  cases hall : ((List.range t.size).drop mark).forM t.checkPlace with
  | error y =>
    rw [hall] at h
    cases h
    obtain ⟨-, id, -, hid, -⟩ := Declared.forM_error hall
    exact notReference_of_checkPlace (hplaces id) hid
  | ok u =>
    rw [hall] at h
    change t.checkGuarded mark = .error x at h
    unfold checkGuarded at h
    split at h
    · cases h
    · cases h
      rfl

/-- A type is not taken up because it does not resolve, because a reserved place stays without a
shape, or because a new place breaks a rule. -/
theorem extend_error_cases (h : (t.extend e).1 = .error x) :
    (t.resolving e).1 = .error x ∨ ∃ id, (t.resolving e).1 = .ok id ∧
      (fillAll (t.resolving e).2.table (t.resolving e).2.aliases = .error x ∨
        ∃ t', fillAll (t.resolving e).2.table (t.resolving e).2.aliases = .ok t' ∧
          t'.check t.size = .error x) := by
  unfold extend at h
  rcases hrun : t.resolving e with ⟨y | id, w⟩
  · rw [show (Program.resolve {} e [] 0).run.run { table := t } = (.error y, w) from hrun] at h
    cases h
    exact Or.inl rfl
  · rw [show (Program.resolve {} e [] 0).run.run { table := t } = (.ok id, w) from hrun] at h
    simp only [bind, Except.bind] at h
    refine Or.inr ⟨id, rfl, ?_⟩
    cases hfill : fillAll w.table w.aliases with
    | error y =>
      simp only [hfill] at h
      cases h
      exact Or.inl rfl
    | ok t' =>
      refine Or.inr ⟨t', rfl, ?_⟩
      cases hcheck : t'.check t.size with
      | error y =>
        simp only [hfill, hcheck] at h
        cases h
        rfl
      | ok u =>
        simp only [hfill, hcheck] at h
        cases h

/-- A type that is taken up refers to types only. -/
theorem covers_extend (ht : t.Closed) {id : TypeId} (h : (t.extend e).1 = .ok id) :
    (t.scope t.Typed).Covers (Bound []) e := by
  rcases extend_cases t e with ⟨other, _, hid, -⟩ | ⟨y, hext⟩
  · have hrun := resolves_resolving t e
    rw [hid] at hrun
    exact hrun.covered (.start ht)
  · rw [hext] at h
    cases h

/-- A type that refers to what is in scope is taken up, or fails by a reference in one way only. -/
theorem Referring.excuses_extend (ht : t.Referring) (hworld : t.ClosedWorld)
    (he : t.bodyScope.Covers (Bound []) e) (h : (t.extend e).1 = .error x) : t.Excuses x := by
  have hrun := resolves_resolving t e
  rcases extend_error_cases h with herror | ⟨id, hid, hfill | ⟨t', hfill, hcheck⟩⟩
  · rw [herror] at hrun
    exact hrun.excuses ht rfl (.start hworld.closed) he
  · exact .of_other (notReference_of_fillAll hfill)
  · rw [hid] at hrun
    have hsound := hworld.soundBelow hrun hfill
    exact .of_other (notReference_of_checkTable (fun id s hs => (hsound id s hs).2) hcheck)

/-- A generic type over types is in scope. -/
theorem Referring.covers_applied (ht : t.Referring) {name : String} {g : Generic}
    {args : List TypeExpr} (hg : t.generics.lookup name = some g)
    (hlength : g.params.length = args.length)
    (hargs : ∀ arg ∈ args, (t.scope t.Typed).Covers (Bound []) arg) :
    t.bodyScope.Covers (Bound []) (.named name args) := by
  refine Scope.covers_iff.mpr ⟨Or.inr ⟨?_, g, hg, hlength⟩, fun arg harg => ?_⟩
  · obtain ⟨hname, hprim, -⟩ := ht.apart name g hg
    rintro (⟨id, ⟨⟩⟩ | ⟨id, hid⟩ | hprim')
    · cases hname.symm.trans hid
    · cases hprim.symm.trans hprim'
  · exact (hargs arg harg).of_positions rfl rfl fun _ _ => Or.inl

/-! ## Tables of definitions -/

section

variable {ds : List Definition}

/-- A table of definitions lets types refer to what the definitions do. -/
theorem scope_ofDefinitions (h : Table.ofDefinitions ds = .ok t) :
    t.scope (· < t.positions.size) = definitionScope ds := by
  obtain ⟨known, w, hall, -, hrun, hfill, -⟩ := ofDefinitions_ok h
  have hof := Declared.of_all hall
  obtain ⟨hgenerics, -, -, ht⟩ := settled_ofDefinitions h hof hrun hfill
  have hplain (name : String) : (∃ id, t.names.lookup name = some id) ↔
      ∃ i, known.positionOf.lookup name = some i := by
    constructor
    · rintro ⟨id, hid⟩
      obtain ⟨i, hi, -⟩ := ht.faithful.bound name id hid
      exact ⟨i, hi⟩
    · rintro ⟨i, hi⟩
      exact ht.declared name i hi
  have hsize : t.positions.size = known.progress.size := by
    rw [hof.size, ← size_program ds known]
    exact ht.faithful.positions
  rw [← hof.scope_eq]
  unfold scope Declared.scope
  simp only [hplain, hgenerics, hsize]

theorem generic_ofDefinitions (h : Table.ofDefinitions ds = .ok t) {i : Nat} {d : Definition}
    {name : String} (hd : Declares ds i d name) (hgeneric : d.isGeneric = true) :
    t.generics.lookup name = some ⟨d.params, d.body, d.line⟩ := by
  obtain ⟨known, hof, hdenoted⟩ := denoted_ofDefinitions h
  have hbody := (hof.named i d name hd.1 hd.2).2
  rwa [if_pos hgeneric, ← hdenoted.generics] at hbody

/-- Whatever is accepted as a table of definitions was looked over. -/
theorem referring_ofDefinitions (h : Table.ofDefinitions ds = .ok t) : t.Referring := by
  obtain ⟨known, w, hall, hbodies, hrun, hfill, -⟩ := ofDefinitions_ok h
  have hof := Declared.of_all hall
  obtain ⟨hgenerics, -, -, ht⟩ := settled_ofDefinitions h hof hrun hfill
  constructor
  case apart =>
    refine hof.apart hbodies hgenerics fun name id hid => ?_
    obtain ⟨i, hi, -⟩ := ht.faithful.bound name id hid
    exact ⟨i, hi⟩
  case params =>
    intro name g hg hnil
    obtain ⟨i, d, -, hgeneric, rfl⟩ := hof.generic_eq (hgenerics ▸ hg)
    simp only at hnil
    simp [Definition.isGeneric, hnil] at hgeneric
  case bodies =>
    intro name g hg
    obtain ⟨i, d, ⟨hd, -⟩, hgeneric, rfl⟩ := hof.generic_eq (hgenerics ▸ hg)
    rw [scope_ofDefinitions h]
    exact Declared.covers_of_checkBodies hof hbodies hd hgeneric

/-- A position without a type is that of a generic definition. -/
theorem bodyIndexesGeneric_ofDefinitions (h : Table.ofDefinitions ds = .ok t) {i : Nat}
    (hi : t.IndexesGeneric i) : BodyIndexesGeneric ds i := by
  obtain ⟨known, hof, hdenoted⟩ := denoted_ofDefinitions h
  obtain ⟨hnone, name, g, hg, hinside⟩ := hi
  obtain ⟨k, d', ⟨hd', -⟩, hgeneric', rfl⟩ := hof.generic_eq (hdenoted.generics ▸ hg)
  refine ⟨?_, d', List.mem_of_getElem? hd', hgeneric', hinside⟩
  have hposition := congrFun (congrArg Scope.position (scope_ofDefinitions h)) i
  have hlt : i < ds.length := hposition.mp (Array.getElem?_eq_some_iff.mp hnone).1
  refine ⟨ds[i], List.getElem?_eq_getElem hlt, ?_⟩
  cases hplain : ds[i].isGeneric with
  | true => rfl
  | false =>
    obtain ⟨id, hid, -⟩ := hdenoted.definitions i _ (List.getElem?_eq_getElem hlt) hplain
    cases hnone.symm.trans hid

end

end Table

end Typewire
