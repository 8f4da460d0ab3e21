-- What stands at the head of a type. A type of its own stands there itself. A generic type passes
-- on to its body, and where a parameter heads the body, to the argument for that parameter. So the
-- head is a matter of what is written, and a type has one head or none.
import Mathlib.Data.List.Forall2
import Typewire.Proofs.Shape.WellFormed

namespace Typewire

open Typewire.Language

/-! ## Arguments -/

/-- The argument for a parameter; of two parameters of one name the later counts. -/
def Generic.argument {α : Type} (g : Generic) (args : List α) (param : String) : Option α :=
  (g.params.zip args).reverse.lookup param

/-- The name is one of the parameters. -/
def Generic.binds (g : Generic) (name : String) : Prop := name ∈ g.params

/-- The name is bound to a place. -/
def Bound (s : Bindings) (name : String) : Prop := ∃ id, s.lookup name = some id

theorem not_bound {s : Bindings} {name : String} : ¬ Bound s name ↔ s.lookup name = none := by
  unfold Bound
  cases s.lookup name with
  | none => simp
  | some id => simp

theorem Generic.argument_of_binds {α : Type} {g : Generic} {args : List α} {param : String}
    (hlength : g.params.length = args.length) (hparam : g.binds param) :
    ∃ arg, g.argument args param = some arg := by
  unfold Generic.argument
  have hfst : (g.params.zip args).map Prod.fst = g.params :=
    List.map_fst_zip (Nat.le_of_eq hlength)
  have hmem : param ∈ (g.params.zip args).reverse.map Prod.fst := by
    rw [List.map_reverse, List.mem_reverse, hfst]
    exact hparam
  exact Option.isSome_iff_exists.mp (mem_keys_iff.mp hmem)

theorem Generic.mem_of_argument {α : Type} {g : Generic} {args : List α} {param : String} {arg : α}
    (h : g.argument args param = some arg) : g.binds param ∧ arg ∈ args :=
  List.of_mem_zip (List.mem_reverse.mp (mem_of_lookup h))

/-- The parameters are what the places of the arguments are bound to. -/
theorem Generic.bound_bind {g : Generic} {args : List TypeId}
    (hlength : g.params.length = args.length) : Bound (Program.bind g.params args) = g.binds := by
  funext name
  apply propext
  constructor
  · rintro ⟨id, hid⟩
    exact (Generic.mem_of_argument hid).1
  · intro hname
    exact Generic.argument_of_binds hlength hname

theorem exists_of_forall₂ {α β : Type} {R : α → β → Prop} {xs : List α} {ys : List β}
    (h : List.Forall₂ R xs ys) {y : β} (hy : y ∈ ys) : ∃ x ∈ xs, R x y := by
  induction h with
  | nil => cases hy
  | cons hxy _ ih =>
    rcases List.mem_cons.mp hy with rfl | hy
    · exact ⟨_, List.mem_cons_self, hxy⟩
    · obtain ⟨x, hx, hR⟩ := ih hy
      exact ⟨x, List.mem_cons_of_mem _ hx, hR⟩

theorem lookup_zip_of_forall₂ {α β : Type} {R : α → β → Prop} {names : List String} {xs : List α}
    {ys : List β} (h : List.Forall₂ R xs ys) {param : String} :
    (∀ x, (names.zip xs).reverse.lookup param = some x →
        ∃ y, (names.zip ys).reverse.lookup param = some y ∧ R x y) ∧
      ((names.zip xs).reverse.lookup param = none →
        (names.zip ys).reverse.lookup param = none) := by
  induction h generalizing names with
  | nil => simp
  | @cons x y xs ys hxy _ ih =>
    cases names with
    | nil => simp
    | cons name names =>
      obtain ⟨hsome, hnone⟩ := @ih names
      simp only [List.zip_cons_cons, List.reverse_cons, List.lookup_append]
      cases hx : (names.zip xs).reverse.lookup param with
      | some x' =>
        obtain ⟨y', hy', hR⟩ := hsome x' hx
        rw [hy']
        refine ⟨fun z hz => ?_, fun hz => (by cases hz)⟩
        cases hz
        exact ⟨y', rfl, hR⟩
      | none =>
        rw [hnone hx]
        simp only [List.lookup_cons, List.lookup_nil, Option.none_or]
        cases param == name with
        | true =>
          refine ⟨fun z hz => ?_, fun hz => (by cases hz)⟩
          cases hz
          exact ⟨y, rfl, hxy⟩
        | false => exact ⟨fun z hz => (by cases hz), fun _ => rfl⟩

/-- Arguments that go together go together parameter by parameter. -/
theorem Generic.argument_forall₂ {α β : Type} {R : α → β → Prop} {g : Generic} {xs : List α}
    {ys : List β} (h : List.Forall₂ R xs ys) {param : String} {x : α}
    (hx : g.argument xs param = some x) : ∃ y, g.argument ys param = some y ∧ R x y :=
  (lookup_zip_of_forall₂ h).1 x hx

/-! ## Heads -/

/-- The type, where the names in `bound` are parameters, comes in so many steps to its head: a
parameter, or else a type of its own. -/
inductive Heads (generics : List (String × Generic)) :
    (String → Prop) → TypeExpr → Option String → Nat → Prop where
  | own {bound e} : (∀ name args, e ≠ .named name args) → Heads generics bound e none 0
  | param {bound name} : bound name → Heads generics bound (.named name []) (some name) 0
  | name {bound name} : ¬ bound name → Heads generics bound (.named name []) none 0
  | whole {bound name e es g k} : generics.lookup name = some g →
    Heads generics g.binds g.body none k →
    Heads generics bound (.named name (e :: es)) none (k + 1)
  | passed {bound name e es g param k arg head l} : generics.lookup name = some g →
    Heads generics g.binds g.body (some param) k →
    g.argument (e :: es) param = some arg → Heads generics bound arg head l →
    Heads generics bound (.named name (e :: es)) head (k + l + 1)

namespace Heads

variable {generics : List (String × Generic)} {bound : String → Prop} {e : TypeExpr}
  {head head' : Option String} {k k' : Nat}

/-- A type has one head at most, and one way to it. -/
theorem unique (h : Heads generics bound e head k) (h' : Heads generics bound e head' k') :
    head = head' ∧ k = k' := by
  induction h generalizing head' k' with
  | own hown =>
    cases h' with
    | own => exact ⟨rfl, rfl⟩
    | param | name | whole | passed => exact absurd rfl (hown _ _)
  | param hname =>
    cases h' with
    | own hown => exact absurd rfl (hown _ _)
    | param => exact ⟨rfl, rfl⟩
    | name hname' => exact absurd hname hname'
  | name hname =>
    cases h' with
    | own hown => exact absurd rfl (hown _ _)
    | param hname' => exact absurd hname' hname
    | name => exact ⟨rfl, rfl⟩
  | whole hg _ ih =>
    cases h' with
    | own hown => exact absurd rfl (hown _ _)
    | whole hg' hbody =>
      cases hg.symm.trans hg'
      obtain ⟨-, rfl⟩ := ih hbody
      exact ⟨rfl, rfl⟩
    | passed hg' hbody =>
      cases hg.symm.trans hg'
      cases (ih hbody).1
  | passed hg _ harg _ ih ih' =>
    cases h' with
    | own hown => exact absurd rfl (hown _ _)
    | whole hg' hbody =>
      cases hg.symm.trans hg'
      cases (ih hbody).1
    | passed hg' hbody harg' hrest =>
      cases hg.symm.trans hg'
      obtain ⟨hparam, rfl⟩ := ih hbody
      cases hparam
      cases harg.symm.trans harg'
      obtain ⟨rfl, rfl⟩ := ih' hrest
      exact ⟨rfl, rfl⟩

/-- A parameter at the head is one that is bound. -/
theorem bound_of_param {param : String} (h : Heads generics bound e (some param) k) :
    bound param := by
  generalize hhead : some param = head at h
  induction h with
  | own | name | whole => cases hhead
  | param hname =>
    cases hhead
    exact hname
  | passed _ _ _ _ _ ih => exact ih hhead

end Heads

/-! ## Tables -/

/-- The generic type has a head. -/
def Generic.Headed (generics : List (String × Generic)) (g : Generic) : Prop :=
  ∃ head k, Heads generics g.binds g.body head k

/-- The instance is one of a generic type that is known, with as many arguments as it takes. -/
def InstanceKey.Proper (generics : List (String × Generic)) (key : InstanceKey)
    (g : Generic) : Prop :=
  generics.lookup key.name = some g ∧ g.params.length = key.args.length

/-- Each instance is one over places of the table, of a generic type that has a head. -/
def Table.Headed (t : Table) : Prop := ∀ key id, t.instances.lookup key = some id →
  (∃ g, key.Proper t.generics g ∧ g.Headed t.generics) ∧ ∀ arg ∈ key.args, arg < t.size

variable {p : Program} {t : Table}

theorem DenoteAll.forall₂ {es : List TypeExpr} {s : Bindings} {ids : List TypeId}
    (h : DenoteAll p t (es.map .ok) s ids) :
    List.Forall₂ (fun e id => Denotes p t e s id) es ids := by
  induction es generalizing ids with
  | nil =>
    cases h
    exact .nil
  | cons e es ih =>
    cases h with
    | cons hfirst hrest => exact .cons hfirst (ih hrest)

/-- What denotes something in a table has a head. -/
theorem Denotes.headed (ht : t.Headed) {e : TypeExpr} {s : Bindings} {id : TypeId}
    (h : Denotes p t e s id) : ∃ head k, Heads t.generics (Bound s) e head k := by
  induction hsize : sizeOf e using Nat.strongRecOn generalizing e id with
  | ind size ih =>
  cases h with
  | built hover _ _ =>
    refine ⟨none, 0, .own ?_⟩
    rintro name args rfl
    cases args with
    | nil => cases hover
    | cons => cases hover
  | index => exact ⟨none, 0, .own fun _ _ => TypeExpr.noConfusion⟩
  | bound hs => exact ⟨_, 0, .param ⟨_, hs⟩⟩
  | declared hs | primitive hs => exact ⟨none, 0, .name (not_bound.mpr hs)⟩
  | @applied name e es _ g ids y _ hg hlength hargs hkey _ =>
    obtain ⟨⟨g', ⟨hg', -⟩, head, k, hbody⟩, -⟩ := ht _ _ hkey
    cases hg.symm.trans hg'
    cases head with
    | none => exact ⟨none, _, .whole hg hbody⟩
    | some param =>
      have hcount : g.params.length = (e :: es).length := hlength
      obtain ⟨arg, harg⟩ := Generic.argument_of_binds hcount hbody.bound_of_param
      obtain ⟨y, -, hy⟩ := Generic.argument_forall₂ hargs.forall₂ harg
      have hlt := TypeExpr.sizeOf_inside (e := .named name (e :: es))
        (Generic.mem_of_argument harg).2
      obtain ⟨head, l, hrest⟩ := ih (sizeOf arg) (hsize ▸ hlt) hy rfl
      exact ⟨head, _, .passed hg hbody harg hrest⟩

end Typewire
