-- Types that a table has already, resolved once more. What is written denotes something in the
-- table, so each type in it has a head, and so has each body that it leads to. Whatever it comes
-- to this time, it comes down to that head.
import Typewire.Proofs.Shape.Descent
import Typewire.Proofs.Shape.Parts
import Typewire.Proofs.Shape.Settled

namespace Typewire

open Typewire.Language Resolving

variable {p : Program} {t : Table} {progress : Array Progress} {w w' : Workspace}
  {R : TypeId → TypeId → Prop}

/-! ## Mirrored tasks -/

/-- The bindings bind the same names, and what a name is bound to in both is related. -/
structure Mirrors (R : TypeId → TypeId → Prop) (s s' : Bindings) : Prop where
  bound : Bound s = Bound s'
  related : ∀ name a b, s.lookup name = some a → s'.lookup name = some b → R a b

/-- What the task asks for is in the table already, over places that are related to those that the
task speaks of. -/
def Task.Mirrored (p : Program) (t : Table) (R : TypeId → TypeId → Prop) : Task → Prop
  | .type e s => ∃ s₀ x, Mirrors R s₀ s ∧ Denotes p t e s₀ x
  | .parts es s => ∃ s₀ ids, Mirrors R s₀ s ∧ DenoteAll p t es s₀ ids
  | .definition _ => False
  | .generic g key => t.generics.lookup key.name = some g ∧
    ∃ ids x, t.instances.lookup ⟨key.name, ids⟩ = some x ∧ List.Forall₂ R ids key.args

theorem Denotes.parts {e : TypeExpr} {s : Bindings} {id : TypeId} (h : Denotes p t e s id) :
    ∃ ids, DenoteAll p t (parts e) s ids := by
  cases h with
  | built _ hparts => exact ⟨_, hparts⟩
  | index | bound | declared | primitive | applied => exact ⟨[], .nil⟩

namespace Task.Mirrored

variable {e : TypeExpr} {es : List TypeExpr} {s : Bindings} {name : String} {g : Generic}
  {key : InstanceKey}

theorem parts (h : Mirrored p t R (.type e s)) :
    Mirrored p t R (.parts (Typewire.parts e) s) := by
  obtain ⟨s₀, x, hs, hx⟩ := h
  obtain ⟨ids, hids⟩ := hx.parts
  exact ⟨s₀, ids, hs, hids⟩

theorem cons {es : List (Except ResolveError TypeExpr)}
    (h : Mirrored p t R (.parts (.ok e :: es) s)) :
    Mirrored p t R (.type e s) ∧ Mirrored p t R (.parts es s) := by
  obtain ⟨s₀, _, hs, hids⟩ := h
  cases hids with
  | cons hfirst hrest => exact ⟨⟨s₀, _, hs, hfirst⟩, s₀, _, hs, hrest⟩

theorem args (h : Mirrored p t R (.type (.named name (e :: es)) s)) :
    Mirrored p t R (.parts ((e :: es).map .ok) s) := by
  obtain ⟨s₀, x, hs, hx⟩ := h
  obtain ⟨_, ids, _, -, -, hids, -⟩ := hx.of_applied
  exact ⟨s₀, ids, hs, hids⟩

/-- The instance is in the table where its arguments come to places that are related to those of
the arguments there. -/
theorem generic (h : Mirrored p t R (.type (.named name (e :: es)) s))
    (hg : t.generics.lookup name = some g) {ids : List TypeId}
    (hids : ∀ s₀ ids₀, Mirrors R s₀ s → DenoteAll p t ((e :: es).map .ok) s₀ ids₀ →
      List.Forall₂ R ids₀ ids) : Mirrored p t R (.generic g ⟨name, ids⟩) := by
  obtain ⟨s₀, x, hs, hx⟩ := h
  obtain ⟨_, ids₀, y, -, -, hids₀, hkey, -⟩ := hx.of_applied
  exact ⟨hg, ids₀, y, hkey, hids s₀ ids₀ hs hids₀⟩

theorem proper (h : Mirrored p t R (.generic g key)) (ht : t.Headed) :
    key.Proper t.generics g ∧ g.Headed t.generics := by
  obtain ⟨hg, ids, x, hkey, hids⟩ := h
  obtain ⟨⟨g', ⟨hg', hlength⟩, hhead⟩, -⟩ := ht _ _ hkey
  cases hg.symm.trans hg'
  exact ⟨⟨hg, hlength.trans hids.length_eq⟩, hhead⟩

theorem body (h : Mirrored p t R (.generic g key)) (ht : t.Meant p) :
    Mirrored p t R (.type g.body (Program.bind g.params key.args)) := by
  obtain ⟨hproper, -⟩ := h.proper ht.headed
  obtain ⟨hg, ids, x, hkey, hids⟩ := h
  obtain ⟨g', hg', hbody⟩ := ht.instances _ _ hkey
  cases hg.symm.trans hg'
  refine ⟨_, x, ⟨?_, fun name a b ha hb => ?_⟩, hbody⟩
  · rw [Generic.bound_bind hproper.2, Generic.bound_bind (hproper.2.trans hids.length_eq.symm)]
  · obtain ⟨b', hb', hR⟩ := Generic.argument_forall₂ hids ha
    cases hb'.symm.trans hb
    exact hR

/-- What is mirrored has a head. -/
theorem headed (h : Mirrored p t R (.type e s)) (ht : t.Headed) :
    ∃ head k, Heads t.generics (Bound s) e head k := by
  obtain ⟨s₀, x, hs, hx⟩ := h
  exact hs.bound ▸ hx.headed ht

end Task.Mirrored

/-! ## On the way -/

namespace Workspace

/-- What is resolved in a settled table has come so far. -/
structure Along (p : Program) (progress : Array Progress) (t : Table) (w : Workspace) : Prop where
  since : w.Since t
  orderly : w.Orderly
  closed : w.Closed
  faithful : (w.over progress).Faithful p

theorem refines_of_over (hw : w.Since t)
    (h : (w.over progress).Refines (w'.over progress)) : w.Refines w' where
  shapes := h.shapes
  aliases := h.aliases
  definitions i id hi := by
    rw [placeOf_eq (hw.progressAt i)] at hi
    cases hi
  instances := h.instances
  generics := h.generics

namespace Along

theorem start (ht : t.Settled p progress) : Along p progress t { table := t } where
  since := .start ht.world.closed
  orderly := ht.world.orderly
  closed := Table.closed_start ht.world.closed
  faithful := ht.faithful

theorem enterInstance (hw : w.Along p progress t) {key : InstanceKey}
    (hdone : w.table.instances.lookup key = none) (hkey : w.instances.lookup key = none)
    (n : Nat) : (w.enterInstance key n).Along p progress t where
  since := hw.since.enterInstance key n
  orderly := hw.orderly.enterInstance hdone hkey n
  closed := hw.closed.enterInstance key n
  faithful := (hw.faithful.enterInstance hdone hkey n).2

/-- A place of the table has its shape. -/
theorem filled (hw : w.Along p progress t) (ht : t.Settled p progress) {id : TypeId}
    (hid : id < t.size) : ∃ s, w.table.shape? id = some s := by
  obtain ⟨s, hs⟩ := ht.world.filled hid
  exact ⟨s, (hw.since.extends.shape? id hid).trans hs⟩

end Along

end Workspace

/-! ## Heads of what is resolved -/

/-- What came to places comes down from them to its head, and an instance has its place. -/
def Task.Descends (w : Workspace) : Task → List TypeId → Prop
  | .type e s, ids => ∀ id ∈ ids, ∀ head k, Heads w.table.generics (Bound s) e head k →
    w.Drops (head.bind (s.lookup ·)) (some id) k
  | .parts es s, ids => List.Forall₂ (fun x id => ∀ e, x = .ok e → ∀ head k,
    Heads w.table.generics (Bound s) e head k → w.Drops (head.bind (s.lookup ·)) (some id) k) es ids
  | .definition _, _ => True
  | .generic _ key, ids => ∀ id ∈ ids, w.instancePlace key = some id

/-- A type of its own, or a name that is no parameter, comes to a shape. -/
theorem Task.Descends.of_shape {e : TypeExpr} {s : Bindings} {id : TypeId} {shape : Shape}
    (h : w.table.shape? id = some shape) : Task.Descends w (.type e s) [id] := by
  intro other hother head k _
  cases List.mem_singleton.mp hother
  exact .shaped h

theorem Task.Descends.applied {s : Bindings} {name : String} {e : TypeExpr} {es : List TypeExpr}
    {args ids : List TypeId} (hw : w.Refines w')
    (hargs : Task.Descends w (.parts ((e :: es).map .ok) s) args)
    (hlength : ∀ g, w.table.generics.lookup name = some g → g.params.length = es.length + 1)
    (hkey : ∀ id ∈ ids, w'.instancePlace ⟨name, args⟩ = some id) :
    Task.Descends w' (.type (.named name (e :: es)) s) ids := by
  have hargs : List.Forall₂ (fun e id => ∀ head k, Heads w.table.generics (Bound s) e head k →
      w.Drops (head.bind (s.lookup ·)) (some id) k) (e :: es) args := by
    refine (List.forall₂_map_left_iff.mp hargs).imp fun e id he => ?_
    exact he e rfl
  have hproper {g : Generic} (hg : w.table.generics.lookup name = some g) :
      InstanceKey.Proper w'.table.generics ⟨name, args⟩ g :=
    ⟨hw.generics ▸ hg, (hlength g hg).trans hargs.length_eq⟩
  intro id hid head k hhead
  have hkey := hkey id hid
  rw [hw.generics] at hhead
  cases hhead with
  | own hown => exact absurd rfl (hown _ _)
  | whole hg hbody =>
    exact .link hkey ⟨_, _, hproper hg, hw.generics ▸ hbody, rfl⟩ (.here (k := 0))
      (Nat.lt_succ_self _)
  | passed hg hbody harg hrest =>
    obtain ⟨place, hplace, hdrops⟩ := Generic.argument_forall₂ hargs harg
    exact .link hkey ⟨_, _, hproper hg, hw.generics ▸ hbody, hplace.symm⟩
      ((hdrops _ _ hrest).of_refines hw) (Nat.lt_succ_self _)

/-- The body of an instance comes down to the head of the instance. -/
theorem Task.Descends.body {g : Generic} {key : InstanceKey} {id : TypeId}
    (h : Task.Descends w (.type g.body (Program.bind g.params key.args)) [id])
    (hproper : key.Proper w.table.generics g) (target : Option TypeId) (m : Nat)
    (hhead : key.HeadsTo w.table.generics target m) : w.Drops target (some id) m := by
  obtain ⟨g', head, hg', hhead, rfl⟩ := hhead
  cases hproper.1.symm.trans hg'.1
  refine h id List.mem_cons_self head m ?_
  rwa [Generic.bound_bind hproper.2]

/-! ## Runs -/

/-- The task is about what is in the settled table already, and everything that is underway comes
down to its head. -/
structure Task.Retraces (p : Program) (progress : Array Progress) (t : Table) (task : Task)
    (w : Workspace) : Prop where
  along : w.Along p progress t
  within : task.Within w.table.size
  mirrored : task.Mirrored p t fun _ _ => True
  descends : w.Descends

namespace Task.Retraces

variable {task : Task} {e : TypeExpr} {es : List TypeExpr} {s : Bindings} {name : String}
  {g : Generic} {key : InstanceKey} {ids : List TypeId} {room n : Nat}

theorem known (h : task.Retraces p progress t w) : task.Known w := by
  cases task with
  | generic g key => exact (congrArg _ h.along.since.extends.generics).trans h.mirrored.1
  | type | parts | definition => trivial

theorem resolves (h : task.Retraces p progress t w) (ht : t.Settled p progress)
    (hrun : Resolves {} room task n w (.ok ids) w') :
    w'.Along p progress t ∧ w.Refines w' ∧ ∀ id ∈ ids, id < w'.table.size := by
  have hw := h.along
  have harrives := ht.arrives hrun hw.since hw.faithful h.known
  have hclosed := hrun.closed hw.closed h.within
  exact ⟨⟨hrun.since hw.since, (hrun.orderly hw.orderly).1, hclosed.closed,
    harrives.faithful⟩, Workspace.refines_of_over hw.since harrives.refines, hclosed.places _ rfl⟩

theorem parts (h : Retraces p progress t (.type e s) w) :
    Retraces p progress t (.parts (Typewire.parts e) s) w :=
  ⟨h.along, h.within, h.mirrored.parts, h.descends⟩

theorem args (h : Retraces p progress t (.type (.named name (e :: es)) s) w) :
    Retraces p progress t (.parts ((e :: es).map .ok) s) w :=
  ⟨h.along, h.within, h.mirrored.args, h.descends⟩

theorem head {es : List (Except ResolveError TypeExpr)}
    (h : Retraces p progress t (.parts (.ok e :: es) s) w) :
    Retraces p progress t (.type e s) w :=
  ⟨h.along, h.within, h.mirrored.cons.1, h.descends⟩

theorem tail {es : List (Except ResolveError TypeExpr)} (ht : t.Settled p progress)
    (h : Retraces p progress t (.parts (.ok e :: es) s) w)
    (hrun : Resolves {} room (.type e s) n w (.ok ids) w') (hdescends : w'.Descends) :
    Retraces p progress t (.parts es s) w' :=
  ⟨(h.head.resolves ht hrun).1, h.within.mono (hrun.closed h.along.closed h.within).size,
    h.mirrored.cons.2, hdescends⟩

theorem generic (ht : t.Settled p progress)
    (h : Retraces p progress t (.type (.named name (e :: es)) s) w)
    (hg : w.table.generics.lookup name = some g)
    (hrun : Resolves {} room (.parts ((e :: es).map .ok) s) n w (.ok ids) w')
    (hdescends : w'.Descends) : Retraces p progress t (.generic g ⟨name, ids⟩) w' := by
  obtain ⟨hw', -, hplaces⟩ := h.args.resolves ht hrun
  refine ⟨hw', hplaces, h.mirrored.generic ?_ fun s₀ ids₀ _ hids₀ => ?_, hdescends⟩
  · exact h.along.since.extends.generics ▸ hg
  · refine List.forall₂_of_length_eq_of_get ?_ fun _ _ _ => trivial
    exact hids₀.length.trans (length_of_resolves hrun).symm

theorem body (ht : t.Settled p progress) (h : Retraces p progress t (.generic g key) w)
    (hdone : w.table.instances.lookup key = none) (hkey : w.instances.lookup key = none)
    (n : Nat) : Retraces p progress t (.type g.body (Program.bind g.params key.args))
      (w.enterInstance key n) := by
  obtain ⟨hproper, hheaded⟩ := h.mirrored.proper ht.headed
  obtain ⟨target, m, hhead⟩ := hproper.headsTo hheaded
  refine ⟨h.along.enterInstance hdone hkey n, within_bind h.within, h.mirrored.body ht.meant, ?_⟩
  exact h.descends.enterInstance hkey (h.along.since.extends.generics.symm ▸ hhead) h.within n

end Task.Retraces

/-- Whatever is resolved that is in the table already, it comes down to its head. -/
theorem Resolves.descends (ht : t.Settled p progress) {room : Nat} {task : Task} {n : Nat}
    {ids : List TypeId} (h : Resolves {} room task n w (.ok ids) w')
    (htask : task.Retraces p progress t w) : w'.Descends ∧ task.Descends w' ids := by
  induction h using Resolves.ok_induction with
  | nil => exact ⟨htask.descends, .nil⟩
  | next hhead hrest ih ih' =>
    obtain ⟨hdescends', hfirst⟩ := ih htask.head
    have hrest' := htask.tail ht hhead hdescends'
    obtain ⟨hdescends'', hothers⟩ := ih' hrest'
    obtain ⟨-, hrefines, -⟩ := hrest'.resolves ht hrest
    refine ⟨hdescends'', .cons ?_ hothers⟩
    rintro e ⟨⟩ head k hk
    exact (hfirst _ List.mem_cons_self head k (hrefines.generics ▸ hk)).of_refines hrefines
  | built hparts hover hcheck ih =>
    obtain ⟨hw', -, -⟩ := htask.parts.resolves ht hparts
    obtain ⟨hdescends', -⟩ := ih htask.parts
    exact ⟨hdescends'.intern _, .of_shape (hw'.orderly.reserved.indexed.shape?_intern _)⟩
  | index hi => exact absurd hi (Nat.not_lt_zero _)
  | placed _ hplace =>
    have hi := position_of_typeAt hplace
    rw [htask.along.since.extends.positions] at hi
    obtain ⟨shape, hshape⟩ := htask.along.filled ht (ht.world.closed.positions _ _ hi)
    exact ⟨htask.descends, .of_shape hshape⟩
  | bound hs =>
    refine ⟨htask.descends, fun id hid head k hk => ?_⟩
    cases List.mem_singleton.mp hid
    cases hk with
    | own hown => exact absurd rfl (hown _ _)
    | param =>
      rw [Option.bind_some, hs]
      exact .here
    | name hfree => exact absurd ⟨_, hs⟩ hfree
  | declared _ hi => cases hi
  | known _ _ hid =>
    rw [htask.along.since.extends.names] at hid
    obtain ⟨shape, hshape⟩ := htask.along.filled ht (ht.world.closed.names _ (mem_of_lookup hid))
    exact ⟨htask.descends, .of_shape hshape⟩
  | primitive =>
    have hindexed := htask.along.orderly.reserved.indexed
    exact ⟨htask.descends.intern _, .of_shape (hindexed.shape?_intern _)⟩
  | applied hg hparts hinst ih ih' =>
    obtain ⟨hg, hlength⟩ := genericOf_ok hg
    obtain ⟨-, hrefines, -⟩ := htask.args.resolves ht hparts
    obtain ⟨hdescends', hargs⟩ := ih htask.args
    have hgeneric := htask.generic ht hg hparts hdescends'
    obtain ⟨hdescends'', hkey⟩ := ih' hgeneric
    obtain ⟨-, hrefines', -⟩ := hgeneric.resolves ht hinst
    refine ⟨hdescends'', .applied hrefines' hargs (fun g' hg' => ?_) hkey⟩
    rw [hrefines.generics] at hg'
    cases hg.symm.trans hg'
    exact hlength
  | done hi | again hi | defined hi => cases (htask.along.since.progressAt _).symm.trans hi
  | cached hid =>
    refine ⟨htask.descends, fun id hmem => ?_⟩
    cases List.mem_singleton.mp hmem
    exact Workspace.instancePlace_of_done hid
  | @againInstance _ _ w w' _ key _ u' _ hdone hkey hmeet =>
    have hw := htask.along
    obtain ⟨hrefines, -⟩ := hw.faithful.meetInstance hkey (meetAgain_over progress hmeet)
    have hrefines : w.Refines (w'.setInstance key u') :=
      Workspace.refines_of_over hw.since hrefines
    refine ⟨htask.descends.meetInstance hkey hmeet hrefines, fun id hmem => ?_⟩
    cases List.mem_singleton.mp hmem
    exact Workspace.instancePlace_meetInstance hdone hmeet
  | @instantiated _ n _ _ _ _ _ _ _ _ hdone hkey hbody hu hsettle ih =>
    obtain ⟨hproper, -⟩ := htask.mirrored.proper ht.headed
    have htask' := htask.body ht hdone hkey n
    obtain ⟨hw', -, -⟩ := htask'.resolves ht hbody
    obtain ⟨hdescends', hid⟩ := ih htask'
    have hbody' := hid.body (hw'.since.extends.generics.symm ▸ hproper)
    refine ⟨hdescends'.finishInstance hw'.orderly hu hsettle hbody', fun id hmem => ?_⟩
    cases List.mem_singleton.mp hmem
    refine Workspace.instancePlace_of_done ?_
    rw [(Workspace.notes_finishInstance _ _ _ _).2.2.2.2]
    exact List.lookup_cons_self

end Typewire
