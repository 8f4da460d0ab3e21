-- Types that are the same although they stand at different places. Two places are equivalent when
-- a relation pairs them that pairs only shapes made alike of parts that it pairs too. What one
-- written type denotes over places that are alike is such a pair: its head decides the shape, and
-- the parts below are denoted by the same written types again.
import Typewire.Proofs.Shape.Heads
import Typewire.Proofs.Shape.World

namespace Typewire

open Typewire.Language

/-! ## Shapes made alike -/

/-- The variants have one name and one tag, and payloads that are related, or none. -/
structure Variant.Matches (R : TypeId → TypeId → Prop) (v u : Variant) : Prop where
  name : v.name = u.name
  tag : v.tag = u.tag
  payload : Option.Rel R v.payload u.payload

/-- The fields have one name, and types that are related. -/
structure Field.Matches (R : TypeId → TypeId → Prop) (f g : Field) : Prop where
  name : f.name = g.name
  type : R f.type g.type

/-- The shapes are of one kind, with the same names, tags and lengths in the same order, and their
parts are related in pairs. -/
def Shape.Matches (R : TypeId → TypeId → Prop) : Shape → Shape → Prop
  | primitive p, primitive q => p = q
  | compact x, compact y | sequence x, sequence y => R x y
  | array x n, array y m => n = m ∧ R x y
  | tuple xs, tuple ys => List.Forall₂ R xs ys
  | enum vs, enum us => List.Forall₂ (Variant.Matches R) vs us
  | struct fs, struct gs => List.Forall₂ (Field.Matches R) fs gs
  | _, _ => False

namespace Table

/-- The relation pairs places of the table only where their shapes are made alike of parts that it
pairs. -/
def Bisimulation (t : Table) (R : TypeId → TypeId → Prop) : Prop := ∀ x y, R x y →
  ∃ s s', t.shape? x = some s ∧ t.shape? y = some s' ∧ s.Matches R s'

/-- The places hold the same type: the largest such relation pairs them. -/
def Equivalent (t : Table) (x y : TypeId) : Prop := ∃ R, t.Bisimulation R ∧ R x y

end Table

namespace Shape

variable {R R' : TypeId → TypeId → Prop} {s s' : Shape}

theorem forall₂_self {α : Type} {S : α → α → Prop} {xs : List α} (h : ∀ x ∈ xs, S x x) :
    List.Forall₂ S xs xs := List.forall₂_same.mpr h

/-- A shape is made like itself when its parts are related to themselves. -/
theorem Matches.refl (h : ∀ x ∈ s.references, R x x) : s.Matches R s := by
  cases s with
  | primitive => rfl
  | compact x | sequence x => exact h x List.mem_cons_self
  | array x n => exact ⟨rfl, h x List.mem_cons_self⟩
  | tuple xs => exact forall₂_self h
  | enum vs =>
    refine forall₂_self fun v hv => ⟨rfl, rfl, ?_⟩
    cases hp : v.payload with
    | none => exact .none
    | some x => exact .some (h x (List.mem_filterMap.mpr ⟨v, hv, hp⟩))
  | struct fs => exact forall₂_self fun f hf => ⟨rfl, h _ (List.mem_map_of_mem hf)⟩

theorem Matches.primitive {p : Primitive} (h : (Shape.primitive p).Matches R s) :
    s = .primitive p := by
  cases s with
  | primitive q => rw [show p = q from h]
  | compact | sequence | array | tuple | enum | struct => exact h.elim

theorem Matches.compact {x : TypeId} (h : s.Matches R (.compact x)) :
    ∃ y, s = .compact y ∧ R y x := by
  cases s with
  | compact y => exact ⟨y, rfl, h⟩
  | primitive | sequence | array | tuple | enum | struct => exact h.elim

/-- What values of the second shape hold is related to what values of the first hold. -/
theorem Matches.unguarded (h : s.Matches R s') {y : TypeId} (hy : y ∈ s'.unguarded) :
    ∃ x ∈ s.unguarded, R x y := by
  cases s' with
  | primitive | sequence | enum => cases hy
  | compact y' =>
    obtain ⟨x, rfl, hR⟩ := h.compact
    exact exists_of_forall₂ (.cons hR .nil) hy
  | array y' m =>
    cases s with
    | array x n =>
      obtain ⟨rfl, hR⟩ := h
      by_cases hn : n = 0
      · rw [Shape.unguarded, if_pos hn] at hy
        cases hy
      · rw [Shape.unguarded, if_neg hn] at hy ⊢
        exact exists_of_forall₂ (.cons hR .nil) hy
    | primitive | compact | sequence | tuple | enum | struct => exact h.elim
  | tuple ys =>
    cases s with
    | tuple xs => exact exists_of_forall₂ h hy
    | primitive | compact | sequence | array | enum | struct => exact h.elim
  | struct gs =>
    cases s with
    | struct fs =>
      refine exists_of_forall₂ ?_ hy
      exact List.forall₂_map_left_iff.mpr (List.forall₂_map_right_iff.mpr
        (List.Forall₂.imp (fun _ _ hfg => hfg.type) h))
    | primitive | compact | sequence | array | tuple | enum => exact h.elim

theorem forall₂_of_mem {α β : Type} {R S : α → β → Prop} {xs : List α} {ys : List β}
    (h : List.Forall₂ R xs ys) (hS : ∀ x, ∀ y ∈ ys, R x y → S x y) : List.Forall₂ S xs ys := by
  induction h with
  | nil => exact .nil
  | cons hxy _ ih =>
    obtain ⟨hfirst, hrest⟩ := List.forall_mem_cons.mp fun y hy x => hS x y hy
    exact .cons (hfirst _ hxy) (ih fun x y hy => hrest y hy x)

/-- Shapes stay alike when their parts are related as closely as the parts of the second allow. -/
theorem Matches.of_references {S : TypeId → TypeId → Prop} (h : s.Matches R s')
    (hS : ∀ x, ∀ y ∈ s'.references, R x y → S x y) : s.Matches S s' := by
  cases s' with
  | primitive =>
    cases s with
    | primitive => exact h
    | compact | sequence | array | tuple | enum | struct => exact h.elim
  | compact y =>
    cases s with
    | compact x => exact hS x y List.mem_cons_self h
    | primitive | sequence | array | tuple | enum | struct => exact h.elim
  | sequence y =>
    cases s with
    | sequence x => exact hS x y List.mem_cons_self h
    | primitive | compact | array | tuple | enum | struct => exact h.elim
  | array y m =>
    cases s with
    | array x n => exact ⟨h.1, hS x y List.mem_cons_self h.2⟩
    | primitive | compact | sequence | tuple | enum | struct => exact h.elim
  | tuple ys =>
    cases s with
    | tuple xs => exact forall₂_of_mem h hS
    | primitive | compact | sequence | array | enum | struct => exact h.elim
  | enum us =>
    cases s with
    | enum vs =>
      refine forall₂_of_mem h fun v u hu hvu => ⟨hvu.name, hvu.tag, ?_⟩
      obtain ⟨name, tag, p⟩ := v
      obtain ⟨name', tag', q⟩ := u
      cases hvu.payload with
      | none => exact .none
      | some hxy => exact .some (hS _ _ (List.mem_filterMap.mpr ⟨_, hu, rfl⟩) hxy)
    | primitive | compact | sequence | array | tuple | struct => exact h.elim
  | struct gs =>
    cases s with
    | struct fs =>
      exact forall₂_of_mem h fun f g hg hfg =>
        ⟨hfg.name, hS _ _ (List.mem_map_of_mem hg) hfg.type⟩
    | primitive | compact | sequence | array | tuple | enum => exact h.elim

/-! ## Rules for one shape -/

theorem any_of_forall₂ {α β : Type} {S : α → β → Prop} {xs : List α} {ys : List β} {f : α → Bool}
    {g : β → Bool} (h : List.Forall₂ S xs ys) (hfg : ∀ x y, S x y → f x = g y) :
    xs.any f = ys.any g := by
  induction h with
  | nil => rfl
  | cons hxy _ ih => rw [List.any_cons, List.any_cons, hfg _ _ hxy, ih]

theorem checkVariants_congr {vs us earlier earlier' : List Variant}
    (hearlier : List.Forall₂ (Variant.Matches R) earlier earlier')
    (h : List.Forall₂ (Variant.Matches R) vs us) :
    checkVariants earlier vs = checkVariants earlier' us := by
  induction h generalizing earlier earlier' with
  | nil => rfl
  | @cons v u vs us hv _ ih =>
    have hnames : earlier.any (·.name == v.name) = earlier'.any (·.name == u.name) :=
      any_of_forall₂ hearlier fun x y hxy => by rw [hxy.name, hv.name]
    have htags : earlier.any (·.tag == v.tag) = earlier'.any (·.tag == u.tag) :=
      any_of_forall₂ hearlier fun x y hxy => by rw [hxy.tag, hv.tag]
    rw [checkVariants, checkVariants, hnames, htags, hv.name, hv.tag, ih (.cons hv hearlier)]

theorem checkFields_congr {fs gs earlier earlier' : List Field}
    (hearlier : List.Forall₂ (Field.Matches R) earlier earlier')
    (h : List.Forall₂ (Field.Matches R) fs gs) :
    checkFields earlier fs = checkFields earlier' gs := by
  induction h generalizing earlier earlier' with
  | nil => rfl
  | @cons f g fs gs hf _ ih =>
    have hnames : earlier.any (·.name == f.name) = earlier'.any (·.name == g.name) :=
      any_of_forall₂ hearlier fun x y hxy => by rw [hxy.name, hf.name]
    rw [checkFields, checkFields, hnames, hf.name, ih (.cons hf hearlier)]

/-- Shapes that are made alike keep the same rules, or break the same one first. -/
theorem Matches.check_eq (h : s.Matches R s') : s.check = s'.check := by
  cases s' with
  | primitive | compact | sequence | array | tuple =>
    cases s with
    | primitive | compact | sequence | array | tuple => rfl
    | enum | struct => exact h.elim
  | enum us =>
    cases s with
    | enum vs =>
      have hvs : List.Forall₂ (Variant.Matches R) vs us := h
      rw [check, check, hvs.length_eq, checkVariants_congr .nil hvs]
    | primitive | compact | sequence | array | tuple | struct => exact h.elim
  | struct gs =>
    cases s with
    | struct fs => exact checkFields_congr .nil h
    | primitive | compact | sequence | array | tuple | enum => exact h.elim

/-! ## Built shapes -/

theorem forall₂_variantsOver (vs : List (String × Option TypeExpr × Option Nat)) (place : Nat)
    {ids ids' : List TypeId} (h : List.Forall₂ R ids ids') :
    List.Forall₂ (Variant.Matches R) (variantsOver vs place ids) (variantsOver vs place ids') := by
  induction vs generalizing place ids ids' with
  | nil => exact .nil
  | cons v vs ih =>
    obtain ⟨name, payload, tag⟩ := v
    cases payload with
    | none => exact .cons ⟨rfl, rfl, .none⟩ (ih _ h)
    | some e =>
      cases h with
      | nil => exact .cons ⟨rfl, rfl, .none⟩ (ih _ .nil)
      | cons hfirst hrest => exact .cons ⟨rfl, rfl, .some hfirst⟩ (ih _ hrest)

theorem forall₂_fieldsOver (fs : List (String × TypeExpr)) {ids ids' : List TypeId}
    (h : List.Forall₂ R ids ids') :
    List.Forall₂ (Field.Matches R) (fieldsOver fs ids) (fieldsOver fs ids') := by
  induction h generalizing fs with
  | nil => simp [fieldsOver]
  | cons hfirst _ ih =>
    cases fs with
    | nil => exact .nil
    | cons f fs => exact .cons ⟨rfl, hfirst⟩ (ih fs)

/-- One written type over parts that are related in pairs is made alike. -/
theorem matches_shapeOver {e : TypeExpr} {ids ids' : List TypeId}
    (h : List.Forall₂ R ids ids') (hs : shapeOver e ids = some s)
    (hs' : shapeOver e ids' = some s') : s.Matches R s' := by
  cases e with
  | primitive name =>
    obtain ⟨p, hp, rfl⟩ := Option.map_eq_some_iff.mp hs
    obtain ⟨q, hq, rfl⟩ := Option.map_eq_some_iff.mp hs'
    exact Option.some.inj (hp.symm.trans hq)
  | index | named => cases hs
  | compact | sequence | array =>
    cases h with
    | nil => cases hs
    | cons hfirst hrest =>
      cases hrest with
      | nil =>
        cases hs
        cases hs'
        first
          | exact hfirst
          | exact ⟨rfl, hfirst⟩
      | cons => cases hs
  | tuple =>
    cases hs
    cases hs'
    exact h
  | enum vs =>
    cases hs
    cases hs'
    exact forall₂_variantsOver vs 0 h
  | struct fs =>
    cases hs
    cases hs'
    exact forall₂_fieldsOver fs h

end Shape

/-! ## Places that are alike -/

/-- The places have one shape, or one written type is denoted by both over parameters that are
alike. -/
inductive Alike (p : Program) (t : Table) : TypeId → TypeId → Prop where
  | same {x y shape} : t.shape? x = some shape → t.shape? y = some shape → Alike p t x y
  | denoted {e s s' x y} : Denotes p t e s x → Denotes p t e s' y → Bound s = Bound s' →
    (∀ name a b, s.lookup name = some a → s'.lookup name = some b → Alike p t a b) →
    Alike p t x y

/-- Every place has a shape over places of the table, and each instance is denoted by the body of
its generic type, which has a head. -/
structure Table.Meant (p : Program) (t : Table) : Prop where
  filled : ∀ id, id < t.size → ∃ shape, t.shape? id = some shape
  references : ∀ id shape, t.shape? id = some shape → ∀ child ∈ shape.references, child < t.size
  positions : ∀ (i : Nat) (id : TypeId), t.positions[i]? = some (some id) → id < t.size
  headed : t.Headed
  instances : ∀ key id, t.instances.lookup key = some id →
    ∃ g, t.generics.lookup key.name = some g ∧
      Denotes p t g.body (Program.bind g.params key.args) id

variable {p : Program} {t : Table} {x y : TypeId}

namespace Alike

theorem parts {es : List (Except ResolveError TypeExpr)} {s s' : Bindings} {ids ids' : List TypeId}
    (h : DenoteAll p t es s ids) (h' : DenoteAll p t es s' ids') (hbound : Bound s = Bound s')
    (hs : ∀ name a b, s.lookup name = some a → s'.lookup name = some b → Alike p t a b) :
    List.Forall₂ (Alike p t) ids ids' := by
  induction es generalizing ids ids' with
  | nil =>
    cases h
    cases h'
    exact .nil
  | cons x es ih =>
    cases h with
    | cons hfirst hrest =>
      cases h' with
      | cons hfirst' hrest' => exact .cons (.denoted hfirst hfirst' hbound hs) (ih hrest hrest')

/-- The parameters of a generic type are bound to places that are alike where the arguments are. -/
theorem bind {g : Generic} {ids ids' : List TypeId} (h : List.Forall₂ (Alike p t) ids ids')
    (name : String) (a b : TypeId) (ha : (Program.bind g.params ids).lookup name = some a)
    (hb : (Program.bind g.params ids').lookup name = some b) : Alike p t a b := by
  obtain ⟨b', hb', hab⟩ := Generic.argument_forall₂ (g := g) h ha
  cases hb'.symm.trans hb
  exact hab

end Alike

/-- The shapes at the places are made alike of parts that are alike. -/
def MatchesAt (p : Program) (t : Table) (x y : TypeId) : Prop :=
  ∃ s s', t.shape? x = some s ∧ t.shape? y = some s' ∧ s.Matches (Alike p t) s'

theorem MatchesAt.congr {x' y' : TypeId} (h : MatchesAt p t x y)
    (hx : t.shape? x' = t.shape? x) (hy : t.shape? y' = t.shape? y) : MatchesAt p t x' y' := by
  obtain ⟨s, s', hs, hs', hmatches⟩ := h
  exact ⟨s, s', hx.trans hs, hy.trans hs', hmatches⟩

/-- The places are made alike, or have the shapes of what the parameter at the head is bound to. -/
def HeadMatches (p : Program) (t : Table) (s s' : Bindings) (x y : TypeId) :
    Option String → Prop
  | none => MatchesAt p t x y
  | some param => ∃ a b, s.lookup param = some a ∧ s'.lookup param = some b ∧
    t.shape? x = t.shape? a ∧ t.shape? y = t.shape? b

theorem HeadMatches.congr {s s' : Bindings} {x' y' : TypeId} {head : Option String}
    (h : HeadMatches p t s s' x y head) (hx : t.shape? x' = t.shape? x)
    (hy : t.shape? y' = t.shape? y) : HeadMatches p t s s' x' y' head := by
  cases head with
  | none => exact MatchesAt.congr h hx hy
  | some param =>
    obtain ⟨a, b, ha, hb, hxa, hyb⟩ := h
    exact ⟨a, b, ha, hb, hx.trans hxa, hy.trans hyb⟩

theorem Denotes.shape?_of_bound {name : String} {s : Bindings} {a : TypeId}
    (h : Denotes p t (.named name []) s x) (ha : s.lookup name = some a) :
    t.shape? x = t.shape? a := by
  rcases h.of_name with ⟨b, hb, hx⟩ | ⟨hnone, -⟩ | ⟨hnone, -⟩
  · cases ha.symm.trans hb
    exact hx
  · cases hnone.symm.trans ha
  · cases hnone.symm.trans ha

namespace Table.Meant

variable {s s' : Bindings} {e : TypeExpr}

/-- A generic type with arguments denotes what its body denotes over their places. -/
theorem of_applied (h : t.Meant p) {name : String} {es : List TypeExpr} {g : Generic}
    (hg : t.generics.lookup name = some g) (he : Denotes p t (.named name (e :: es)) s x) :
    ∃ ids z, Bound (Program.bind g.params ids) = g.binds ∧
      Denotes p t g.body (Program.bind g.params ids) z ∧
      DenoteAll p t ((e :: es).map .ok) s ids ∧ t.shape? x = t.shape? z := by
  obtain ⟨g', ids, z, hg', hlength, hargs, hkey, hx⟩ := he.of_applied
  cases hg.symm.trans hg'
  obtain ⟨g', hg', hbody⟩ := h.instances _ _ hkey
  cases hg.symm.trans hg'
  have hcount : ids.length = es.length + 1 := by simpa using hargs.of_map.1
  exact ⟨ids, z, Generic.bound_bind (hlength.trans hcount.symm), hbody, hargs, hx⟩

theorem matches_same (h : t.Meant p) {shape : Shape} (hx : t.shape? x = some shape)
    (hy : t.shape? y = some shape) : MatchesAt p t x y := by
  refine ⟨shape, shape, hx, hy, .refl fun child hchild => ?_⟩
  obtain ⟨s, hs⟩ := h.filled child (h.references x shape hx child hchild)
  exact .same hs hs

theorem matches_place (h : t.Meant p) {id : TypeId} (hid : id < t.size)
    (hx : t.shape? x = t.shape? id) (hy : t.shape? y = t.shape? id) : MatchesAt p t x y := by
  obtain ⟨shape, hshape⟩ := h.filled id hid
  exact h.matches_same (hx.trans hshape) (hy.trans hshape)

/-- What a type of its own denotes is made alike. -/
theorem matches_own (h : t.Meant p) (hown : ∀ name args, e ≠ .named name args)
    (he : Denotes p t e s x) (he' : Denotes p t e s' y) (hbound : Bound s = Bound s')
    (hs : ∀ name a b, s.lookup name = some a → s'.lookup name = some b → Alike p t a b) :
    MatchesAt p t x y := by
  cases he with
  | built hover hparts hx =>
    cases he' with
    | built hover' hparts' hy =>
      have hpairs := Alike.parts hparts hparts' hbound hs
      exact ⟨_, _, hx, hy, Shape.matches_shapeOver hpairs hover hover'⟩
    | index | bound | declared | primitive | applied => cases hover
  | index hi hx =>
    obtain ⟨other, hother, hy⟩ := he'.of_index
    cases hi.symm.trans hother
    exact h.matches_place (h.positions _ _ hi) hx hy
  | bound | declared | primitive | applied => exact absurd rfl (hown _ _)

/-- What a name denotes is made alike, where it is not the name of a parameter. -/
theorem matches_name (h : t.Meant p) {name : String} (hname : s.lookup name = none)
    (hname' : s'.lookup name = none) (he : Denotes p t (.named name []) s x)
    (he' : Denotes p t (.named name []) s' y) : MatchesAt p t x y := by
  rcases he.of_name with ⟨_, hsome, -⟩ | ⟨-, i, id, hi, hplace, hx⟩ | ⟨-, hfree, prim, hprim, hx⟩
  · cases hname.symm.trans hsome
  · rcases he'.of_name with ⟨_, hsome, -⟩ | ⟨-, j, id', hj, hplace', hy⟩ | ⟨-, hfree, -⟩
    · cases hname'.symm.trans hsome
    · cases hi.symm.trans hj
      cases hplace.symm.trans hplace'
      exact h.matches_place (h.positions _ _ hplace) hx hy
    · cases hfree.symm.trans hi
  · rcases he'.of_name with ⟨_, hsome, -⟩ | ⟨-, j, _, hj, -⟩ | ⟨-, -, prim', hprim', hy⟩
    · cases hname'.symm.trans hsome
    · cases hfree.symm.trans hj
    · cases hprim.symm.trans hprim'
      exact h.matches_same hx hy

/-- What one type denotes over parameters that are alike is made alike, or it has the shapes of
what the parameter that heads the type is bound to. -/
theorem headMatches (h : t.Meant p) {bound : String → Prop} {head : Option String} {k : Nat}
    (hhead : Heads t.generics bound e head k) (hb : Bound s = bound) (hb' : Bound s' = bound)
    (he : Denotes p t e s x) (he' : Denotes p t e s' y)
    (hs : ∀ name a b, s.lookup name = some a → s'.lookup name = some b → Alike p t a b) :
    HeadMatches p t s s' x y head := by
  induction hhead generalizing s s' x y with
  | own hown => exact h.matches_own hown he he' (hb.trans hb'.symm) hs
  | @param bound name hname =>
    obtain ⟨a, ha⟩ : Bound s name := hb ▸ hname
    obtain ⟨b, hb⟩ : Bound s' name := hb' ▸ hname
    exact ⟨a, b, ha, hb, he.shape?_of_bound ha, he'.shape?_of_bound hb⟩
  | name hname =>
    refine h.matches_name (not_bound.mp ?_) (not_bound.mp ?_) he he'
    · rwa [hb]
    · rwa [hb']
  | whole hg _ ih =>
    obtain ⟨ids, z, hbound, hbody, hargs, hx⟩ := h.of_applied hg he
    obtain ⟨ids', z', hbound', hbody', hargs', hy⟩ := h.of_applied hg he'
    have hpairs := Alike.parts hargs hargs' (hb.trans hb'.symm) hs
    exact (ih hbound hbound' hbody hbody' (Alike.bind hpairs)).congr hx hy
  | passed hg _ harg _ ih ih' =>
    obtain ⟨ids, z, hbound, hbody, hargs, hx⟩ := h.of_applied hg he
    obtain ⟨ids', z', hbound', hbody', hargs', hy⟩ := h.of_applied hg he'
    have hpairs := Alike.parts hargs hargs' (hb.trans hb'.symm) hs
    obtain ⟨a, b, ha, hb₁, hz, hz'⟩ := ih hbound hbound' hbody hbody' (Alike.bind hpairs)
    obtain ⟨a', ha', hdenotes⟩ := Generic.argument_forall₂ hargs.forall₂ harg
    obtain ⟨b', hb₁', hdenotes'⟩ := Generic.argument_forall₂ hargs'.forall₂ harg
    cases ha.symm.trans ha'
    cases hb₁.symm.trans hb₁'
    exact (ih' hb hb' hdenotes hdenotes' hs).congr (hx.trans hz) (hy.trans hz')

/-- Places that are alike have shapes that are made alike of parts that are alike. -/
theorem bisimulation (h : t.Meant p) : t.Bisimulation (Alike p t) := by
  intro x y hxy
  change MatchesAt p t x y
  induction hxy with
  | same hx hy => exact h.matches_same hx hy
  | denoted he he' hbound hs ih =>
    obtain ⟨head, k, hhead⟩ := he.headed h.headed
    have hmatches := h.headMatches hhead rfl hbound.symm he he' hs
    cases head with
    | none => exact hmatches
    | some param =>
      obtain ⟨a, b, ha, hb, hx, hy⟩ := hmatches
      exact (ih param a b ha hb).congr hx hy

theorem equivalent (h : t.Meant p) (hxy : Alike p t x y) : t.Equivalent x y :=
  ⟨Alike p t, h.bisimulation, hxy⟩

end Table.Meant

end Typewire
