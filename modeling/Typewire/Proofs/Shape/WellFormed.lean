-- What well-formed definitions are, said of what is written alone. The names are declared once
-- and known, enums and structs tell their parts apart, compact forms stand around unsigned
-- integers, and no type holds itself. Then every way down from a type comes to its end.
import Mathlib.Data.Fintype.EquivFin
import Mathlib.Logic.Relation
import Typewire.Proofs.Shape.Guarded
import Typewire.Proofs.Shape.Model

namespace Typewire

open Typewire.Language

/-! ## Types inside types -/

namespace Language.TypeExpr

/-- The types that are written inside a type. -/
def inside : TypeExpr → List TypeExpr
  | primitive _ | index _ => []
  | named _ args => args
  | compact e | sequence e | array e _ => [e]
  | tuple es => es
  | enum vs => vs.filterMap (·.2.1)
  | struct fs => fs.map (·.2)

/-- The types inside a type of which every value of it holds a value. -/
def held : TypeExpr → List TypeExpr
  | compact e => [e]
  | array e length => if length = 0 then [] else [e]
  | tuple es => es
  | struct fs => fs.map (·.2)
  | primitive _ | index _ | named _ _ | sequence _ | enum _ => []

/-- The type is written as an unsigned integer primitive. -/
def isUnsigned : TypeExpr → Bool
  | primitive name | named name [] => (Primitive.ofName? name).any (·.isUnsigned)
  | _ => false

theorem inside_of_held {e inner : TypeExpr} (h : inner ∈ e.held) : inner ∈ e.inside := by
  cases e with
  | compact | tuple | struct => exact h
  | array e length =>
    change inner ∈ (if length = 0 then [] else [e]) at h
    split at h
    · cases h
    · exact h
  | primitive | index | named | sequence | enum => cases h

theorem sizeOf_inside {e inner : TypeExpr} (h : inner ∈ e.inside) : sizeOf inner < sizeOf e := by
  cases e with
  | primitive | index => cases h
  | compact e | sequence e =>
    cases List.mem_singleton.mp h
    simp only [compact.sizeOf_spec, sequence.sizeOf_spec]
    omega
  | array e length =>
    cases List.mem_singleton.mp h
    simp only [array.sizeOf_spec]
    omega
  | named name es | tuple es =>
    have hes := List.sizeOf_lt_of_mem (show inner ∈ es from h)
    simp only [named.sizeOf_spec, tuple.sizeOf_spec]
    omega
  | enum vs =>
    obtain ⟨⟨name, payload, tag⟩, hv, hinner⟩ := List.mem_filterMap.mp h
    cases hinner
    have hvs := List.sizeOf_lt_of_mem hv
    simp only [enum.sizeOf_spec, Prod.mk.sizeOf_spec, Option.some.sizeOf_spec] at hvs ⊢
    omega
  | struct fs =>
    obtain ⟨⟨name, e⟩, hf, rfl⟩ := List.mem_map.mp h
    have hfs := List.sizeOf_lt_of_mem hf
    simp only [struct.sizeOf_spec, Prod.mk.sizeOf_spec] at hfs ⊢
    omega

end Language.TypeExpr

/-- The type is written in one of the definitions, as its body or inside of it. -/
inductive Occurs (ds : List Definition) : TypeExpr → Prop where
  | body {d} : d ∈ ds → Occurs ds d.body
  | inside {e inner} : Occurs ds e → inner ∈ e.inside → Occurs ds inner

/-- No definition has parameters, and no type is given type arguments. -/
structure Plain (ds : List Definition) : Prop where
  params : ∀ d ∈ ds, d.params = []
  args : ∀ name args, Occurs ds (.named name args) → args = []

theorem Plain.isGeneric {ds : List Definition} (h : Plain ds) {i : Nat} {d : Definition}
    (hd : ds[i]? = some d) : d.isGeneric = false := by
  rw [Definition.isGeneric, h.params d (List.mem_of_getElem? hd)]
  rfl

/-! ## What is held -/

/-- A definition or a type. -/
inductive Part where
  | definition (position : Nat)
  | type (e : TypeExpr)

/-- Every value of the first part holds a value of the second, or is one. -/
inductive Contains (ds : List Definition) : Part → Part → Prop where
  | body {i d} : ds[i]? = some d → Contains ds (.definition i) (.type d.body)
  | index {i} : Contains ds (.type (.index i)) (.definition i)
  | named {i d name args} : Declares ds i d name →
    Contains ds (.type (.named name args)) (.definition i)
  | held {e inner} : inner ∈ e.held → Contains ds (.type e) (.type inner)

/-- The first type leads to the second by names and indices only. -/
inductive LeadsTo (ds : List Definition) : TypeExpr → TypeExpr → Prop where
  | refl {e} : LeadsTo ds e e
  | index {i d e} : ds[i]? = some d → LeadsTo ds d.body e → LeadsTo ds (.index i) e
  | named {i d name e} : Declares ds i d name → LeadsTo ds d.body e →
    LeadsTo ds (.named name []) e

/-- The tags of variants, of which the first stands at `place` in its enum: those that are
written, else the places. -/
def writtenTags : List (String × Option TypeExpr × Option Nat) → Nat → List Nat
  | [], _ => []
  | (_, _, tag) :: vs, place => tag.getD place :: writtenTags vs (place + 1)

/-- The definitions declare each name once and no primitive name, every name and index in them is
known, every enum and struct tells its parts apart, every compact form is around an unsigned
integer, and nothing holds itself. -/
structure WellFormed (ds : List Definition) : Prop where
  unreserved : ∀ i d name, Declares ds i d name → Primitive.isName name = false
  distinct : ∀ i j d x name, Declares ds i d name → Declares ds j x name → i = j
  primitives : ∀ name, Occurs ds (.primitive name) → Primitive.isName name = true
  indices : ∀ i, Occurs ds (.index i) → i < ds.length
  names : ∀ name, Occurs ds (.named name []) →
    (∃ i d, Declares ds i d name) ∨ Primitive.isName name = true
  variants : ∀ vs, Occurs ds (.enum vs) → vs.length ≤ 256 ∧ (vs.map (·.1)).Nodup
  tags : ∀ vs, Occurs ds (.enum vs) → (writtenTags vs 0).Nodup ∧
    ∀ tag ∈ writtenTags vs 0, tag ≤ 255
  fields : ∀ fs, Occurs ds (.struct fs) → (fs.map (·.1)).Nodup
  compacts : ∀ e, Occurs ds (.compact e) → ∃ inner, LeadsTo ds e inner ∧ inner.isUnsigned = true
  acyclic : ∀ part, ¬ Relation.TransGen (Contains ds) part part

/-! ## Ways down -/

variable {ds : List Definition}

/-- Every way down from the part comes to its end. -/
def Grounded (ds : List Definition) (part : Part) : Prop :=
  Acc (fun inner outer => Contains ds outer inner) part

/-- A type is grounded when the definitions that it leads to are, as it has an end itself. -/
theorem grounded_type (e : TypeExpr)
    (h : ∀ i, Relation.TransGen (Contains ds) (.type e) (.definition i) →
      Grounded ds (.definition i)) : Grounded ds (.type e) := by
  refine Acc.intro _ fun part hpart => ?_
  cases part with
  | definition i => exact h i (.single hpart)
  | type inner =>
    cases hpart with
    | held hinner =>
      have := TypeExpr.sizeOf_inside (TypeExpr.inside_of_held hinner)
      exact grounded_type inner fun i hi => h i (.head (.held hinner) hi)
termination_by sizeOf e

theorem grounded_past {i : Nat} (h : ds.length ≤ i) : Grounded ds (.definition i) := by
  refine Acc.intro _ fun part hpart => ?_
  cases hpart with
  | body hd =>
    rw [List.getElem?_eq_none h] at hd
    cases hd

/-- There are only so many definitions, so where none holds itself every way down from one of
them comes to its end. -/
theorem grounded_definition (h : ∀ part, ¬ Relation.TransGen (Contains ds) part part) (i : Nat) :
    Grounded ds (.definition i) := by
  let below (a b : Fin ds.length) : Prop :=
    Relation.TransGen (Contains ds) (.definition b) (.definition a)
  have : IsTrans (Fin ds.length) below := ⟨fun _ _ _ hab hbc => hbc.trans hab⟩
  have : Std.Irrefl below := ⟨fun a ha => h _ ha⟩
  have hwf : WellFounded below := Finite.wellFounded_of_trans_of_irrefl below
  have hall : ∀ a : Fin ds.length, Grounded ds (.definition a) := by
    intro a
    induction a using hwf.induction with
    | _ a ih =>
      refine Acc.intro _ fun part hpart => ?_
      cases hpart with
      | body hd =>
        refine grounded_type _ fun j hj => ?_
        rcases Nat.lt_or_ge j ds.length with hlt | hge
        · exact ih ⟨j, hlt⟩ (.head (.body hd) hj)
        · exact grounded_past hge
  rcases Nat.lt_or_ge i ds.length with hlt | hge
  · exact hall ⟨i, hlt⟩
  · exact grounded_past hge

theorem WellFormed.grounded (h : WellFormed ds) (e : TypeExpr) : Grounded ds (.type e) :=
  grounded_type e fun i _ => grounded_definition h.acyclic i

/-- Where every way down comes to its end nothing holds itself. -/
theorem acyclic_of_grounded (h : ∀ part, Grounded ds part) (part : Part) :
    ¬ Relation.TransGen (Contains ds) part part := by
  intro hpart
  exact not_transGen_of_acc (h part) (Relation.transGen_swap.mpr hpart)

end Typewire
