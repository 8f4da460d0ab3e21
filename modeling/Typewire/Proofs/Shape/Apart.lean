-- Generic types and the names of all other types. A name with arguments is that of a generic type
-- wherever it stands: no definition without parameters has it, nor a primitive, nor a parameter of
-- the body around it. The definitions were looked over for this, and types that come later declare
-- no names.
import Typewire.Proofs.Shape.Settled

namespace Typewire

open Typewire.Language Resolving

variable {t : Table}

/-! ## Names with arguments -/

/-- No name that is bound is given arguments anywhere in the type. -/
def Unshadowed (bound : String → Prop) (e : TypeExpr) : Prop :=
  ∀ name arg args, Relation.ReflTransGen (fun outer inner => inner ∈ outer.inside) e
    (.named name (arg :: args)) → ¬ bound name

theorem Unshadowed.inside {bound : String → Prop} {e inner : TypeExpr} (h : Unshadowed bound e)
    (hinner : inner ∈ e.inside) : Unshadowed bound inner :=
  fun name arg args hin => h name arg args (.head hinner hin)

/-- A generic type has a name of its own, and in its body no parameter is given arguments. -/
def Table.Apart (t : Table) : Prop := ∀ name g, t.generics.lookup name = some g →
  t.names.lookup name = none ∧ Primitive.isName name = false ∧ Unshadowed g.binds g.body

theorem Table.Apart.of_extends {t' : Table} (h : t.Apart) (hext : t.Extends t') : t'.Apart := by
  intro name g hg
  rw [hext.names]
  exact h name g (hext.generics ▸ hg)

/-! ## Bodies that are looked over -/

namespace Declared

variable {known : Declared} {params : List String}

theorem checkPayloads_eq (vs : List (String × Option TypeExpr × Option Nat)) :
    known.checkPayloads params vs = known.checkAll params (vs.filterMap (·.2.1)) := by
  induction vs with
  | nil => rfl
  | cons v vs ih =>
    obtain ⟨name, payload, tag⟩ := v
    cases payload with
    | none => exact ih
    | some e =>
      change (known.checkNames params e >>= fun _ => known.checkPayloads params vs) = _
      rw [ih]
      rfl

theorem checkFields_eq (fs : List (String × TypeExpr)) :
    known.checkFields params fs = known.checkAll params (fs.map (·.2)) := by
  induction fs with
  | nil => rfl
  | cons f fs ih =>
    change (known.checkNames params f.2 >>= fun _ => known.checkFields params fs) = _
    rw [ih]
    rfl

theorem checkAll_ok {es : List TypeExpr} (h : known.checkAll params es = .ok ()) :
    ∀ e ∈ es, known.checkNames params e = .ok () := by
  induction es with
  | nil => exact fun e he => by cases he
  | cons e es ih =>
    obtain ⟨u, hfirst, hrest⟩ := except_bind_ok
      (show (known.checkNames params e >>= fun _ => known.checkAll params es) = .ok () from h)
    exact List.forall_mem_cons.mpr ⟨hfirst, ih hrest⟩

/-- What is looked over has its parts looked over. -/
theorem checkNames_inside {e inner : TypeExpr} (h : known.checkNames params e = .ok ())
    (hinner : inner ∈ e.inside) : known.checkNames params inner = .ok () := by
  cases e with
  | primitive | index => cases hinner
  | named name args =>
    unfold checkNames at h
    split at h
    · cases h
    · exact checkAll_ok h inner hinner
  | compact | sequence | array =>
    cases List.mem_singleton.mp hinner
    exact h
  | tuple es => exact checkAll_ok h inner hinner
  | enum vs => exact checkAll_ok ((checkPayloads_eq vs).symm.trans h) inner hinner
  | struct fs => exact checkAll_ok ((checkFields_eq fs).symm.trans h) inner hinner

/-- In a type that is looked over no parameter is given arguments. -/
theorem unshadowed_of_checkNames {e : TypeExpr} (h : known.checkNames params e = .ok ()) :
    Unshadowed (· ∈ params) e := by
  intro name arg args hin hname
  induction hin using Relation.ReflTransGen.head_induction_on with
  | refl =>
    unfold checkNames at h
    simp [useProblem?, hname] at h
  | head hinner _ ih => exact ih (checkNames_inside h hinner)

/-- Definitions that are looked over have the body of each generic one looked over. -/
theorem checkNames_of_checkBodies {ds : List Definition} (hbodies : known.checkBodies ds = .ok ())
    {i : Nat} {d : Definition} (hd : ds[i]? = some d) (hgeneric : d.isGeneric = true) :
    known.checkNames d.params d.body = .ok () := by
  have hcheck := forM_ok hbodies (d, i) (List.mk_mem_zipIdx_iff_getElem?.mpr hd)
  simp only [if_pos hgeneric] at hcheck
  cases hok : known.checkNames d.params d.body with
  | ok u => rfl
  | error x =>
    rw [hok] at hcheck
    cases hcheck

/-- What is declared and looked over sets the generic types apart from all other types. -/
theorem Of.apart {ds : List Definition} (h : Of ds known) (hbodies : known.checkBodies ds = .ok ())
    (hgenerics : t.generics = known.generics)
    (hnames : ∀ name id, t.names.lookup name = some id →
      ∃ i, known.positionOf.lookup name = some i) : t.Apart := by
  intro name g hg
  rw [hgenerics] at hg
  obtain ⟨i, d, ⟨hd, hname⟩, hgeneric, rfl⟩ := h.generic_eq hg
  have hprim := (h.named i d name hd hname).1
  refine ⟨?_, hprim, unshadowed_of_checkNames (checkNames_of_checkBodies hbodies hd hgeneric)⟩
  cases hid : t.names.lookup name with
  | none => rfl
  | some id =>
    obtain ⟨j, hj⟩ := hnames name id hid
    obtain ⟨x, hx, hxname, hplain⟩ := h.position name j hj
    cases h.distinct i j d x name hd hx hname hxname
    cases hd.symm.trans hx
    cases hgeneric.symm.trans hplain

end Declared

/-! ## Tasks -/

/-- In the types of the task no name that is bound is given arguments. -/
def Task.Unshadowed : Task → Prop
  | .type e s => Typewire.Unshadowed (Bound s) e
  | .parts es s => ∀ e, .ok e ∈ es → Typewire.Unshadowed (Bound s) e
  | .definition _ | .generic _ _ => True

theorem Task.Unshadowed.args {name : String} {e : TypeExpr} {es : List TypeExpr} {s : Bindings}
    (h : Task.Unshadowed (.type (.named name (e :: es)) s)) :
    Task.Unshadowed (.parts ((e :: es).map .ok) s) := by
  intro arg harg
  obtain ⟨_, harg, ⟨⟩⟩ := List.mem_map.mp harg
  exact Typewire.Unshadowed.inside h harg

theorem Task.Unshadowed.body {g : Generic} {key : InstanceKey} (hapart : t.Apart)
    (hproper : key.Proper t.generics g) :
    Task.Unshadowed (.type g.body (Program.bind g.params key.args)) := by
  rw [Task.Unshadowed, Generic.bound_bind hproper.2]
  exact (hapart key.name g hproper.1).2.2

end Typewire
