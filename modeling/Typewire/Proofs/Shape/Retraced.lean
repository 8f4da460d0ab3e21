-- Resolving what a table has already fails for one reason only: too many instances stand one in
-- another. What is written was found sound when it came to the table, each name in it is known
-- there, and nothing underway is met again before a bracket, as every step on the way there takes
-- it nearer to its head.
import Typewire.Proofs.Shape.Apart
import Typewire.Proofs.Shape.Mirrored

namespace Typewire

open Typewire.Language Resolving

variable {p : Program} {t : Table} {progress : Array Progress} {w w' : Workspace}

/-- The error is that instances stand too deep in one another; it may name the definition around
it. -/
def ResolveError.TooDeep (x : ResolveError) : Prop :=
  ∃ name, x = .instantiationTooDeep name ∨
    ∃ line label, x = .inDefinition line label (.instantiationTooDeep name)

theorem ResolveError.TooDeep.within {x : ResolveError} (h : x.TooDeep) (line : Nat)
    (label : String) : (x.within line label).TooDeep := by
  obtain ⟨name, rfl | ⟨line', label', rfl⟩⟩ := h
  · exact ⟨name, Or.inr ⟨line, label, rfl⟩⟩
  · exact ⟨name, Or.inr ⟨line', label', rfl⟩⟩

/-! ## What is underway -/

/-- Of all that is underway the task is either behind another bracket, or no farther from its
head. -/
def Task.Below (w : Workspace) (n : Nat) : Task → Prop
  | .type e s => ∀ key u, w.instances.lookup key = some u → u.nesting < n ∨ (u.nesting = n ∧
      ∃ target m, key.HeadsTo w.table.generics target m ∧
        ∀ head k, Heads w.table.generics (Bound s) e head k → k ≤ m)
  | .parts _ _ => ∀ key u, w.instances.lookup key = some u → u.nesting < n
  | .definition _ => True
  | .generic _ key => ∀ other u, w.instances.lookup other = some u → u.nesting < n ∨
      (u.nesting = n ∧ ∃ target m, other.HeadsTo w.table.generics target m ∧
        ∀ target' k, key.HeadsTo w.table.generics target' k → k < m)

/-- The body of a generic type is nearer to its head than the type with its arguments. -/
theorem Heads.lt_of_applied {generics : List (String × Generic)} {bound : String → Prop}
    {name : String} {e : TypeExpr} {es : List TypeExpr} {g : Generic} {head head' : Option String}
    {k k' : Nat} (h : Heads generics bound (.named name (e :: es)) head k)
    (hg : generics.lookup name = some g) (hbody : Heads generics g.binds g.body head' k') :
    k' < k := by
  cases h with
  | own hown => exact absurd rfl (hown _ _)
  | whole hg' hbody' =>
    cases hg.symm.trans hg'
    obtain ⟨-, rfl⟩ := hbody.unique hbody'
    exact Nat.lt_succ_self _
  | passed hg' hbody' =>
    cases hg.symm.trans hg'
    obtain ⟨-, rfl⟩ := hbody.unique hbody'
    omega

theorem Resolves.nesting {room n : Nat} {task : Task} {ids : List TypeId}
    (h : Resolves p room task n w (.ok ids) w') {key : InstanceKey} {u : Underway}
    (hu : w'.instances.lookup key = some u) :
    ∃ v, w.instances.lookup key = some v ∧ v.nesting = u.nesting := by
  obtain ⟨v, hv⟩ := h.returns.instances key u hu
  obtain ⟨u', hu', hc⟩ := h.continues.instances key v hv
  cases hu.symm.trans hu'
  exact ⟨v, hv, hc.nesting.symm⟩

namespace Task.Below

variable {n room : Nat} {e : TypeExpr} {es : List TypeExpr} {s : Bindings} {name : String}
  {g : Generic} {key : InstanceKey} {ids : List TypeId}

theorem parts {es : List (Except ResolveError TypeExpr)} (h : Below w n (.type e s)) :
    Below w (n + 1) (.parts es s) := by
  intro key u hu
  rcases h key u hu with hlt | ⟨rfl, -⟩
  · exact Nat.lt_succ_of_lt hlt
  · exact Nat.lt_succ_self _

theorem head {es : List (Except ResolveError TypeExpr)} (h : Below w n (.parts es s)) :
    Below w n (.type e s) := fun key u hu => Or.inl (h key u hu)

theorem tail {es es' : List (Except ResolveError TypeExpr)} (h : Below w n (.parts es s))
    (hrun : Resolves p room (.type e s) n w (.ok ids) w') : Below w' n (.parts es' s) := by
  intro key u hu
  obtain ⟨v, hv, hnesting⟩ := hrun.nesting hu
  exact hnesting ▸ h key v hv

theorem generic (h : Below w n (.type (.named name (e :: es)) s))
    (hrun : Resolves p room (.parts ((e :: es).map .ok) s) (n + 1) w (.ok ids) w')
    (hgenerics : w'.table.generics = w.table.generics)
    (hhead : ∃ head k, Heads w.table.generics (Bound s) (.named name (e :: es)) head k) :
    Below w' n (.generic g ⟨name, ids⟩) := by
  intro other u hu
  obtain ⟨v, hv, hnesting⟩ := hrun.nesting hu
  rw [← hnesting, hgenerics]
  rcases h other v hv with hlt | ⟨hn, target, m, hother, hle⟩
  · exact Or.inl hlt
  · refine Or.inr ⟨hn, target, m, hother, ?_⟩
    rintro target' k ⟨g', head', ⟨hg', -⟩, hbody, -⟩
    obtain ⟨head, k', hhead⟩ := hhead
    exact Nat.lt_of_lt_of_le (hhead.lt_of_applied hg' hbody) (hle head k' hhead)

theorem body (h : Below w n (.generic g key)) (hproper : key.Proper w.table.generics g)
    (hheaded : g.Headed w.table.generics) :
    Below (w.enterInstance key n) n (.type g.body (Program.bind g.params key.args)) := by
  have hbody {head : Option String} {k : Nat}
      (hk : Heads w.table.generics (Bound (Program.bind g.params key.args)) g.body head k) :
      key.HeadsTo w.table.generics (head.bind (g.argument key.args)) k := by
    rw [Generic.bound_bind hproper.2] at hk
    exact ⟨g, head, hproper, hk, rfl⟩
  intro other u hu
  by_cases hsame : other = key
  · subst hsame
    obtain ⟨target, m, hhead⟩ := hproper.headsTo hheaded
    simp only [Workspace.enterInstance, List.lookup_cons_self, Option.some.injEq] at hu
    subst hu
    exact Or.inr ⟨rfl, target, m, hhead, fun head k hk =>
      Nat.le_of_eq ((hbody hk).unique hhead).2⟩
  · rw [Workspace.lookup_enterInstance_ne hsame] at hu
    rcases h other u hu with hlt | ⟨hn, target, m, hother, hlt⟩
    · exact Or.inl hlt
    · exact Or.inr ⟨hn, target, m, hother, fun head k hk => Nat.le_of_lt (hlt _ k (hbody hk))⟩

/-- What is underway itself stands behind another bracket. -/
theorem nesting_lt (h : Below w n (.generic g key)) {target : Option TypeId} {m : Nat}
    (hhead : key.HeadsTo w.table.generics target m) {u : Underway}
    (hu : w.instances.lookup key = some u) : u.nesting < n := by
  rcases h key u hu with hlt | ⟨-, target', m', hhead', hlt⟩
  · exact hlt
  · obtain ⟨-, rfl⟩ := hhead.unique hhead'
    exact absurd (hlt _ _ hhead) (Nat.lt_irrefl _)

end Task.Below

/-! ## What is mirrored -/

namespace Task.Retraces

variable {e : TypeExpr} {es : List TypeExpr} {s : Bindings} {name : String} {g : Generic}
  {key : InstanceKey} {ids : List TypeId} {i : Nat}

/-- A built type keeps the rules as it did before. -/
theorem check (h : Retraces p progress t (.type e s) w) (ht : t.Settled p progress)
    (hlength : ids.length = (Typewire.parts e).length) {shape : Shape}
    (hover : shapeOver e ids = some shape) : shape.check = .ok () := by
  obtain ⟨s₀, x, -, hx⟩ := h.mirrored
  cases hx with
  | built hover₀ hparts hshape =>
    have hpairs := List.forall₂_of_length_eq_of_get (R := fun _ _ => True)
      (hparts.length.trans hlength.symm) fun _ _ _ => trivial
    have hmatches := Shape.matches_shapeOver hpairs hover₀ hover
    exact hmatches.check_eq.symm.trans (ht.world.sound x _ hshape)
  | index | bound | declared | primitive | applied => cases hover

theorem typeAt (h : Retraces p progress t (.type (.index i) s) w) :
    ∃ id, w.table.typeAt i = .ok id := by
  obtain ⟨s₀, x, -, hx⟩ := h.mirrored
  obtain ⟨id, hi, -⟩ := hx.of_index
  rw [← h.along.since.extends.positions] at hi
  exact ⟨id, typeAt_of_position hi⟩

/-- A name that the table does not know is still that of a primitive. -/
theorem primitive (h : Retraces p progress t (.type (.named name []) s) w)
    (ht : t.Settled p progress) (hs : s.lookup name = none)
    (hname : w.table.names.lookup name = none) : ∃ prim, Primitive.ofName? name = some prim := by
  obtain ⟨s₀, x, hmirrors, hx⟩ := h.mirrored
  rcases hx.of_name with ⟨id, hid, -⟩ | ⟨-, i, -, hi, -⟩ | ⟨-, -, prim, hprim, -⟩
  · have hbound : Bound s name := hmirrors.bound ▸ ⟨id, hid⟩
    exact absurd hbound (not_bound.mpr hs)
  · obtain ⟨id, hid⟩ := ht.declared name i hi
    rw [h.along.since.extends.names, hid] at hname
    cases hname
  · exact ⟨prim, hprim⟩

/-- A generic type still takes the arguments that it is given. -/
theorem genericOf (h : Retraces p progress t (.type (.named name (e :: es)) s) w)
    (hapart : t.Apart) (hplain : Task.Unshadowed (.type (.named name (e :: es)) s)) :
    ∃ g, Program.genericOf {} w.table s name (es.length + 1) = .ok g := by
  obtain ⟨s₀, x, -, hx⟩ := h.mirrored
  obtain ⟨g, _, _, hg, hlength, -⟩ := hx.of_applied
  obtain ⟨hname, hprim, -⟩ := hapart name g hg
  have hs := not_bound.mp (hplain name e es .refl)
  have hext := h.along.since.extends
  refine ⟨g, ?_⟩
  rw [← hext.names] at hname
  rw [← hext.generics] at hg
  simp [Program.genericOf, Program.isConcrete, hs, hname, hprim, hg, hlength]

end Task.Retraces

/-! ## Runs -/

/-- Whatever the table has already is resolved once more, unless instances stand too deep. -/
theorem Resolves.error_tooDeep (ht : t.Settled p progress) (hapart : t.Apart) {room : Nat}
    {task : Task} {n : Nat} {r : Except ResolveError (List TypeId)}
    (h : Resolves {} room task n w r w') {x : ResolveError} (hr : r = .error x)
    (htask : task.Retraces p progress t w) (hplain : task.Unshadowed) (hbelow : task.Below w n) :
    x.TooDeep := by
  induction h generalizing x with
  | nil | built | bound | known | primitive | done | again | defined | cached | againInstance
  | instantiated => cases hr
  | fault =>
    obtain ⟨_, _, -, hids⟩ := htask.mirrored
    cases hids
  | stop _ ih =>
    exact ih hr htask.head (hplain _ List.mem_cons_self) hbelow.head
  | next hhead hrest ih ih' =>
    rename_i r _ _
    cases r with
    | ok rest => cases hr
    | error x =>
      obtain ⟨hdescends', -⟩ := hhead.descends ht htask.head
      refine ih' ?_ (htask.tail ht hhead hdescends')
        (fun e he => hplain e (List.mem_cons_of_mem _ he)) (hbelow.tail hhead)
      cases hr
      rfl
  | unbuilt _ ih =>
    exact ih hr htask.parts (fun e he => hplain.inside (inside_of_parts he)) hbelow.parts
  | unsound hparts hover hcheck =>
    cases (htask.check ht (length_of_resolves hparts) hover).symm.trans hcheck
  | index hi => exact absurd hi (Nat.not_lt_zero _)
  | placed =>
    obtain ⟨id, hid⟩ := htask.typeAt
    rw [hid] at hr
    cases hr
  | declared _ hi => cases hi
  | unknown hs _ hname hprim =>
    obtain ⟨prim, hprim'⟩ := htask.primitive ht hs hname
    cases hprim.symm.trans hprim'
  | refused hg =>
    obtain ⟨g, hg'⟩ := htask.genericOf hapart hplain
    cases hg.symm.trans hg'
  | tooDeep =>
    cases hr
    exact ⟨_, Or.inl rfl⟩
  | unapplied hg _ ih => exact ih hr htask.args hplain.args hbelow.parts
  | applied hg hparts hinst ih ih' =>
    obtain ⟨hg, -⟩ := genericOf_ok hg
    obtain ⟨hdescends', -⟩ := hparts.descends ht htask.args
    obtain ⟨-, hrefines, -⟩ := htask.args.resolves ht hparts
    refine ih' hr (htask.generic ht hg hparts hdescends') trivial
      (hbelow.generic hparts hrefines.generics ?_)
    exact htask.along.since.extends.generics.symm ▸ htask.mirrored.headed ht.headed
  | bare | flat | failed | endless => exact htask.mirrored.elim
  | flatInstance hdone hkey hmeet =>
    obtain ⟨hproper, hheaded⟩ := htask.mirrored.proper ht.headed
    obtain ⟨target, m, hhead⟩ := hproper.headsTo hheaded
    rw [← htask.along.since.extends.generics] at hhead
    have hlt := hbelow.nesting_lt hhead hkey
    rcases meetAgain_cases _ _ _ _ _ with ⟨hle, -⟩ | ⟨-, _, -, ho⟩ | ⟨-, -, ho⟩
    · exact absurd hlt (Nat.not_lt_of_le hle)
    · cases ho.symm.trans hmeet
    · cases ho.symm.trans hmeet
  | @failedInstance _ n _ _ _ _ _ hdone hkey hbody ih =>
    cases hr
    obtain ⟨hproper, hheaded⟩ := htask.mirrored.proper ht.headed
    have hplain' := Task.Unshadowed.body hapart hproper
    rw [← htask.along.since.extends.generics] at hproper hheaded
    exact (ih rfl (htask.body ht hdone hkey n) hplain' (hbelow.body hproper hheaded)).within _ _
  | @endlessInstance _ n _ _ _ _ _ _ _ _ hdone hkey hbody hu hsettle =>
    obtain ⟨hproper, hheaded⟩ := htask.mirrored.proper ht.headed
    have htask' := htask.body ht hdone hkey n
    obtain ⟨hw', -, -⟩ := htask'.resolves ht hbody
    obtain ⟨hdescends', hid⟩ := hbody.descends ht htask'
    rw [← hw'.since.extends.generics] at hproper hheaded
    obtain ⟨target, m, hhead⟩ := hproper.headsTo hheaded
    exact absurd hsettle
      (hdescends'.settles hw'.orderly hu hhead (hid.body hproper target m hhead))

end Typewire
