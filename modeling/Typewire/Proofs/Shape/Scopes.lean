-- What a type may refer to. A name without arguments is a parameter or the name of a plain type, a
-- name with arguments is that of a generic type over as many parameters, and a position is one of a
-- definition. The bodies of the generic definitions are looked over for this before anything is
-- resolved, so definitions with a body that refers to something else are refused there.
import Typewire.Proofs.Shape.Apart

namespace Typewire

open Typewire.Language

/-! ## Errors about references -/

namespace ResolveError

/-- What is wrong itself, whether or not a definition is named around it. -/
def bare (x : ResolveError) : ResolveError := x.cause?.getD x

/-- The error is about a name, a position or a number of arguments. -/
def isReference : ResolveError → Bool
  | unknownType _ | unknownPrimitive _ | unknownPlace _ | genericArity .. | notGeneric _
  | missingArguments _ => true
  | _ => false

theorem bare_within (x : ResolveError) (line : Nat) (label : String) :
    (x.within line label).bare = x.bare := by
  cases x <;> rfl

theorem within_of_isReference {x : ResolveError} (h : x.isReference = true) (line : Nat)
    (label : String) : x.within line label = .inDefinition line label x := by
  cases x with
  | inDefinition => cases h
  | _ => rfl

end ResolveError

/-! ## Scopes -/

/-- What a type may refer to. -/
structure Scope where
  /-- The names that take no arguments. -/
  plain : String → Prop
  /-- The names that take as many arguments. -/
  generic : String → Nat → Prop
  /-- The positions that have a type. -/
  position : Nat → Prop

/-- The one type is the other, or is written somewhere inside of it. -/
def Language.TypeExpr.Inside (e inner : TypeExpr) : Prop :=
  Relation.ReflTransGen (fun outer inner => inner ∈ outer.inside) e inner

namespace Scope

variable {c c' : Scope} {bound : String → Prop} {e : TypeExpr}

/-- The type, where the names in `bound` are parameters, is no reference itself, or one to
something in scope. -/
def Knows (c : Scope) (bound : String → Prop) : TypeExpr → Prop
  | .primitive name => Primitive.isName name = true
  | .index i => c.position i
  | .named name args =>
    ((bound name ∨ c.plain name) ∧ args = []) ∨
      (¬ (bound name ∨ c.plain name) ∧ c.generic name args.length)
  | _ => True

/-- All that the type refers to is in scope. -/
def Covers (c : Scope) (bound : String → Prop) (e : TypeExpr) : Prop :=
  ∀ inner, e.Inside inner → c.Knows bound inner

theorem covers_iff :
    c.Covers bound e ↔ c.Knows bound e ∧ ∀ inner ∈ e.inside, c.Covers bound inner := by
  constructor
  · intro h
    exact ⟨h e .refl, fun inner hinner other hother => h other (.head hinner hother)⟩
  · rintro ⟨hknows, hinside⟩ inner hinner
    rcases Relation.ReflTransGen.cases_head hinner with rfl | ⟨next, hnext, hrest⟩
    · exact hknows
    · exact hinside next hnext inner hrest

theorem Covers.knows (h : c.Covers bound e) : c.Knows bound e := (covers_iff.mp h).1

theorem Covers.inside (h : c.Covers bound e) {inner : TypeExpr} (hinner : inner ∈ e.inside) :
    c.Covers bound inner := (covers_iff.mp h).2 inner hinner

theorem Knows.covers (h : c.Knows bound e) (hleaf : e.inside = []) : c.Covers bound e :=
  covers_iff.mpr ⟨h, by simp [hleaf]⟩

/-- What is in scope stays so in a scope with the same names, which has the positions that the type
refers to. -/
theorem Covers.of_positions (h : c.Covers bound e) (hplain : c'.plain = c.plain)
    (hgeneric : c'.generic = c.generic)
    (hposition : ∀ i, e.Inside (.index i) → c.position i → c'.position i) : c'.Covers bound e := by
  intro inner hinner
  have hknows := h inner hinner
  cases inner with
  | index i => exact hposition i hinner hknows
  | named name args =>
    simp only [Knows, hplain, hgeneric]
    exact hknows
  | primitive | compact | sequence | array | tuple | enum | struct => exact hknows

end Scope

/-! ## Looking over a body -/

namespace Declared

variable {known : Declared} {params : List String} {ds : List Definition}

/-- What the declared names and the definitions let a body refer to. -/
def scope (known : Declared) : Scope where
  plain name := (∃ i, known.positionOf.lookup name = some i) ∨ Primitive.isName name = true
  generic name given := ∃ g, known.generics.lookup name = some g ∧ g.params.length = given
  position i := i < known.progress.size

/-- A check finds nothing where all is in scope, and else a reference that is wrong. -/
def Decides (check : Except ResolveError Unit) (covered : Prop) : Prop :=
  (check = .ok () ∧ covered) ∨ ∃ x, check = .error x ∧ x.isReference = true ∧ ¬ covered

namespace Decides

variable {check next : Except ResolveError Unit} {covered rest : Prop}

theorem congr (h : Decides check covered) (hiff : covered ↔ rest) : Decides check rest :=
  propext hiff ▸ h

theorem ok_iff (h : Decides check covered) : check = .ok () ↔ covered := by
  rcases h with ⟨hok, hcovered⟩ | ⟨x, herror, -, hnot⟩
  · exact iff_of_true hok hcovered
  · exact iff_of_false (by simp [herror]) hnot

/-- The second check is made where the first finds nothing. -/
theorem and (h : Decides check covered) (h' : Decides next rest) :
    Decides (check >>= fun _ => next) (covered ∧ rest) := by
  rcases h with ⟨rfl, hcovered⟩ | ⟨x, rfl, href, hnot⟩
  · exact h'.congr (by simp [hcovered])
  · exact Or.inr ⟨x, rfl, href, fun hboth => hnot hboth.1⟩

end Decides

theorem decides_all {P : TypeExpr → Prop} {es : List TypeExpr}
    (h : ∀ e ∈ es, Decides (known.checkNames params e) (P e)) :
    Decides (known.checkAll params es) (∀ e ∈ es, P e) := by
  induction es with
  | nil => exact Or.inl ⟨rfl, fun e he => by cases he⟩
  | cons e es ih =>
    obtain ⟨hfirst, hrest⟩ := List.forall_mem_cons.mp h
    exact (hfirst.and (ih hrest)).congr List.forall_mem_cons.symm

/-- A name may be used where it is known and takes as many arguments as it is given. -/
theorem useProblem_cases (name : String) (args : List TypeExpr) :
    (known.useProblem? params name args.length = none ∧
        known.scope.Knows (· ∈ params) (.named name args)) ∨
      ∃ x, known.useProblem? params name args.length = some x ∧ x.isReference = true ∧
        ¬ known.scope.Knows (· ∈ params) (.named name args) := by
  have hplain : (params.contains name || (known.positionOf.lookup name).isSome
      || Primitive.isName name) = true ↔ name ∈ params ∨ known.scope.plain name := by
    simp [scope, Option.isSome_iff_exists, or_assoc]
  unfold useProblem?
  by_cases hname : name ∈ params ∨ known.scope.plain name
  · rw [if_pos (hplain.mpr hname)]
    by_cases hargs : args = []
    · exact Or.inl ⟨by simp [hargs], Or.inl ⟨hname, hargs⟩⟩
    · refine Or.inr ⟨.notGeneric name, by simp [hargs], rfl, ?_⟩
      rintro (⟨-, hnone⟩ | ⟨hnot, -⟩)
      · exact hargs hnone
      · exact hnot hname
  · rw [if_neg (mt hplain.mp hname)]
    cases hg : known.generics.lookup name with
    | none =>
      refine Or.inr ⟨.unknownType name, rfl, rfl, ?_⟩
      rintro (⟨hyes, -⟩ | ⟨-, g, hg', -⟩)
      · exact hname hyes
      · cases hg.symm.trans hg'
    | some g =>
      by_cases hlength : g.params.length = args.length
      · exact Or.inl ⟨if_pos hlength, Or.inr ⟨hname, g, hg, hlength⟩⟩
      · refine Or.inr ⟨_, if_neg hlength, rfl, ?_⟩
        rintro (⟨hyes, -⟩ | ⟨-, g', hg', hlength'⟩)
        · exact hname hyes
        · cases hg.symm.trans hg'
          exact hlength hlength'

/-- Looking over a type finds nothing exactly where all that it refers to is in scope. -/
theorem decides_names (e : TypeExpr) :
    Decides (known.checkNames params e) (known.scope.Covers (· ∈ params) e) := by
  have hinside : ∀ inner ∈ e.inside,
      Decides (known.checkNames params inner) (known.scope.Covers (· ∈ params) inner) := by
    intro inner hinner
    have := TypeExpr.sizeOf_inside hinner
    exact decides_names inner
  refine Decides.congr ?_ Scope.covers_iff.symm
  cases e with
  | primitive name =>
    unfold checkNames
    by_cases hname : Primitive.isName name = true
    · exact Or.inl ⟨if_pos hname, hname, fun inner hinner => by cases hinner⟩
    · exact Or.inr ⟨_, if_neg hname, rfl, fun h => hname h.1⟩
  | index i =>
    unfold checkNames
    by_cases hi : i < known.progress.size
    · exact Or.inl ⟨if_pos hi, hi, fun inner hinner => by cases hinner⟩
    · exact Or.inr ⟨_, if_neg hi, rfl, fun h => hi h.1⟩
  | named name args =>
    unfold checkNames
    rcases @useProblem_cases known params name args with
      ⟨hnone, hknows⟩ | ⟨x, hx, href, hnot⟩
    · simp only [hnone]
      exact (decides_all hinside).congr (iff_and_self.mpr fun _ => hknows)
    · simp only [hx]
      exact Or.inr ⟨x, rfl, href, fun h => hnot h.1⟩
  | compact | sequence | array =>
    have hone := hinside _ (List.mem_singleton.mpr rfl)
    exact hone.congr ⟨fun h => ⟨trivial, fun inner hinner => List.mem_singleton.mp hinner ▸ h⟩,
      fun h => h.2 _ (List.mem_singleton.mpr rfl)⟩
  | tuple es => exact (decides_all hinside).congr (true_and _).symm.to_iff
  | enum vs =>
    have hall := decides_all hinside
    rw [show known.checkNames params (.enum vs) = known.checkAll params (vs.filterMap (·.2.1)) from
      checkPayloads_eq vs]
    exact hall.congr (true_and _).symm.to_iff
  | struct fs =>
    have hall := decides_all hinside
    rw [show known.checkNames params (.struct fs) = known.checkAll params (fs.map (·.2)) from
      checkFields_eq fs]
    exact hall.congr (true_and _).symm.to_iff
termination_by sizeOf e

/-! ## Looking over the definitions -/

end Declared

/-- What the bodies of some definitions may refer to: the names that they declare, the names of
primitives, and their positions. -/
def definitionScope (ds : List Definition) : Scope where
  plain name := (∃ i d, Declares ds i d name ∧ d.isGeneric = false) ∨ Primitive.isName name = true
  generic name given := ∃ i d, Declares ds i d name ∧ d.isGeneric = true ∧ d.params.length = given
  position i := i < ds.length

/-- A generic body refers to the position of a definition that is generic itself. -/
def BodyIndexesGeneric (ds : List Definition) (i : Nat) : Prop :=
  (∃ d, ds[i]? = some d ∧ d.isGeneric = true) ∧
    ∃ d ∈ ds, d.isGeneric = true ∧ d.body.Inside (.index i)

/-- The error names the first generic definition with a reference in its body that is out of scope,
and is about such a reference. -/
def BlamesBody (ds : List Definition) (x : ResolveError) : Prop :=
  ∃ (i : Nat) (d : Definition) (cause : ResolveError), ds[i]? = some d ∧ d.isGeneric = true ∧
    ¬ (definitionScope ds).Covers (· ∈ d.params) d.body ∧
    (∀ j < i, ∀ d', ds[j]? = some d' → d'.isGeneric = true →
      (definitionScope ds).Covers (· ∈ d'.params) d'.body) ∧
    cause.isReference = true ∧ x = .inDefinition d.line (d.label i) cause

namespace Declared

theorem Of.scope_eq (h : Of ds known) : known.scope = definitionScope ds := by
  have hplain (name : String) : (∃ i, known.positionOf.lookup name = some i) ↔
      ∃ i d, Declares ds i d name ∧ d.isGeneric = false := by
    constructor
    · rintro ⟨i, hi⟩
      obtain ⟨d, hd, hname, hg⟩ := h.position name i hi
      exact ⟨i, d, ⟨hd, hname⟩, hg⟩
    · rintro ⟨i, d, ⟨hd, hname⟩, hg⟩
      exact ⟨i, h.positionOf hd hname hg⟩
  have hgeneric (name : String) (given : Nat) :
      (∃ g, known.generics.lookup name = some g ∧ g.params.length = given) ↔
        ∃ i d, Declares ds i d name ∧ d.isGeneric = true ∧ d.params.length = given := by
    constructor
    · rintro ⟨g, hg, hlength⟩
      obtain ⟨i, d, hd, hgeneric, rfl⟩ := h.generic_eq hg
      exact ⟨i, d, hd, hgeneric, hlength⟩
    · rintro ⟨i, d, ⟨hd, hname⟩, hgeneric, hlength⟩
      have hbody := (h.named i d name hd hname).2
      rw [if_pos hgeneric] at hbody
      exact ⟨_, hbody, hlength⟩
  unfold scope definitionScope
  simp only [hplain, hgeneric, h.size]

/-- The body of a generic definition is in scope where the definitions are looked over without
fail. -/
theorem covers_of_checkBodies (h : Of ds known) (hbodies : known.checkBodies ds = .ok ()) {i : Nat}
    {d : Definition} (hd : ds[i]? = some d) (hgeneric : d.isGeneric = true) :
    (definitionScope ds).Covers (· ∈ d.params) d.body := by
  rw [← h.scope_eq]
  exact (decides_names d.body).ok_iff.mp (checkNames_of_checkBodies hbodies hd hgeneric)

/-- Checks in a row that fail do so at the first that fails. -/
theorem forM_error {ε α : Type} {f : α → Except ε Unit} {xs : List α} {x : ε}
    (h : xs.forM f = .error x) : ∃ (i : Nat) (a : α), xs[i]? = some a ∧ f a = .error x ∧
      ∀ j < i, ∀ b, xs[j]? = some b → f b = .ok () := by
  induction xs with
  | nil => cases h
  | cons a xs ih =>
    change (f a >>= fun _ => xs.forM f) = .error x at h
    cases ha : f a with
    | error y =>
      rw [ha] at h
      cases h
      exact ⟨0, a, rfl, ha, fun j hj => absurd hj (Nat.not_lt_zero j)⟩
    | ok u =>
      rw [ha] at h
      obtain ⟨i, b, hb, hbad, hbefore⟩ := ih h
      refine ⟨i + 1, b, hb, hbad, fun j hj c hc => ?_⟩
      cases j with
      | zero =>
        cases hc
        exact ha
      | succ j => exact hbefore j (Nat.lt_of_succ_lt_succ hj) c hc

/-- What is reported of the definitions is a reference in a generic body that is out of scope. -/
theorem blamesBody_of_checkBodies (h : Of ds known) {x : ResolveError}
    (hbodies : known.checkBodies ds = .error x) : BlamesBody ds x := by
  obtain ⟨i, ⟨d, k⟩, hi, hbad, hbefore⟩ := forM_error hbodies
  obtain ⟨d', hd, hsame⟩ := Option.map_eq_some_iff.mp (List.getElem?_zipIdx.symm.trans hi)
  cases hsame
  simp only [Nat.zero_add] at hbad
  split at hbad
  · rename_i hgeneric
    rcases @decides_names known d.params d.body with
      ⟨hok, -⟩ | ⟨cause, hcause, href, hnot⟩
    · rw [hok] at hbad
      cases hbad
    · rw [hcause] at hbad
      cases hbad
      refine ⟨i, d, cause, hd, hgeneric, h.scope_eq ▸ hnot, fun j hj e he hgeneric => ?_, href,
        ResolveError.within_of_isReference href _ _⟩
      have hok := hbefore j hj (e, j) (by rw [List.getElem?_zipIdx, he, Nat.zero_add]; rfl)
      simp only [if_pos hgeneric] at hok
      rw [← h.scope_eq]
      rcases @decides_names known e.params e.body with
        ⟨-, hcovered⟩ | ⟨y, hy, -⟩
      · exact hcovered
      · rw [hy] at hok
        cases hok
  · cases hbad

end Declared

/-- Definitions whose names are declared, but with a generic body that refers to something out of
scope, are refused with such a reference before anything is resolved. -/
theorem Table.ofDefinitions_blames {ds : List Definition} {known : Declared}
    (hall : Declared.all ds = .ok known) {i : Nat} {d : Definition} (hd : ds[i]? = some d)
    (hgeneric : d.isGeneric = true) (hnot : ¬ (definitionScope ds).Covers (· ∈ d.params) d.body) :
    ∃ x, Table.ofDefinitions ds = .error x ∧ BlamesBody ds x := by
  have hof := Declared.of_all hall
  cases hbodies : known.checkBodies ds with
  | ok u => exact absurd (Declared.covers_of_checkBodies hof hbodies hd hgeneric) hnot
  | error x =>
    refine ⟨x, ?_, Declared.blamesBody_of_checkBodies hof hbodies⟩
    unfold Table.ofDefinitions
    rw [hall]
    change (known.checkBodies ds >>= _) = _
    rw [hbodies]
    rfl

end Typewire
