-- Places that come when something is resolved once more. What the table has it keeps, so what is
-- written denotes there what it did, and each place that is new has an old one that is like it.
-- The shapes at the new places keep the rules for one shape, as each was looked over.
import Typewire.Proofs.Shape.Labels
import Typewire.Proofs.Shape.Retraced

namespace Typewire

open Typewire.Language Resolving

variable {p : Program} {t t' : Table} {progress : Array Progress} {w w' : Workspace}

/-! ## What stays denoted -/

/-- What is denoted over places of a settled table has a shape. -/
theorem Denotes.filled (ht : t.Settled p progress) {e : TypeExpr} {s : Bindings} {x : TypeId}
    (hs : ∀ name a, s.lookup name = some a → a < t.size) (h : Denotes p t e s x) :
    ∃ shape, t.shape? x = some shape := by
  have hfilled {id : TypeId} (hid : id < t.size) (hx : t.shape? x = t.shape? id) :
      ∃ shape, t.shape? x = some shape := hx ▸ ht.world.filled hid
  have hclosed := ht.world.closed
  cases h with
  | built _ _ hx => exact ⟨_, hx⟩
  | index hi hx => exact hfilled (hclosed.positions _ _ hi) hx
  | bound hname hx => exact hfilled (hs _ _ hname) hx
  | declared _ _ hi hx => exact hfilled (hclosed.positions _ _ hi) hx
  | primitive _ _ _ hx => exact ⟨_, hx⟩
  | applied _ _ _ hkey hx => exact hfilled (hclosed.instances _ (mem_of_lookup hkey)) hx

theorem DenoteAll.lt_size (ht : t.Settled p progress) {es : List (Except ResolveError TypeExpr)}
    {s : Bindings} {ids : List TypeId} (hs : ∀ name a, s.lookup name = some a → a < t.size)
    (h : DenoteAll p t es s ids) : ∀ id ∈ ids, id < t.size := by
  induction es generalizing ids with
  | nil =>
    cases h
    exact fun id hid => by cases hid
  | cons x es ih =>
    cases h with
    | cons hfirst hrest =>
      obtain ⟨shape, hshape⟩ := hfirst.filled ht hs
      exact List.forall_mem_cons.mpr ⟨Table.lt_size_of_shape? hshape, ih hrest⟩

namespace Table.Settled

/-- Places of one shape have one shape wherever the table is kept. -/
theorem shape?_kept (ht : t.Settled p progress)
    (hkept : Workspace.KeptBy { table := t, progress } t') {x y : TypeId}
    (hx : t.shape? x = t.shape? y) (hy : y < t.size) : t'.shape? x = t'.shape? y := by
  obtain ⟨shape, hshape⟩ := ht.world.filled hy
  rw [hkept.shapes y shape hshape, hkept.shapes x shape (hx.trans hshape)]

theorem position_kept (ht : t.Settled p progress)
    (hkept : Workspace.KeptBy { table := t, progress } t') {i : Nat} {id : TypeId}
    (hi : t.positions[i]? = some (some id)) : t'.positions[i]? = some (some id) :=
  hkept.definitions i id (Workspace.placeOf_eq (ht.placed i id hi))

end Table.Settled

mutual

/-- What is denoted in a settled table is denoted wherever the table is kept. -/
theorem Denotes.keep (ht : t.Settled p progress)
    (hkept : Workspace.KeptBy { table := t, progress } t') {s : Bindings}
    (hs : ∀ name a, s.lookup name = some a → a < t.size) {e : TypeExpr} {x : TypeId} :
    Denotes p t e s x → Denotes p t' e s x
  | .built hover hparts hx => .built hover (hparts.keep ht hkept hs) (hkept.shapes _ _ hx)
  | .index hi hx =>
    .index (ht.position_kept hkept hi)
      (ht.shape?_kept hkept hx (ht.world.closed.positions _ _ hi))
  | .bound hname hx => .bound hname (ht.shape?_kept hkept hx (hs _ _ hname))
  | .declared hname hi hplace hx =>
    .declared hname hi (ht.position_kept hkept hplace)
      (ht.shape?_kept hkept hx (ht.world.closed.positions _ _ hplace))
  | .primitive hname hfree hprim hx => .primitive hname hfree hprim (hkept.shapes _ _ hx)
  | .applied hg hlength hargs hkey hx =>
    .applied (hkept.generics ▸ hg) hlength (hargs.keep ht hkept hs)
      (hkept.instances _ _ (Workspace.instancePlace_of_done hkey))
      (ht.shape?_kept hkept hx (ht.world.closed.instances _ (mem_of_lookup hkey)))

theorem DenoteAll.keep (ht : t.Settled p progress)
    (hkept : Workspace.KeptBy { table := t, progress } t') {s : Bindings}
    (hs : ∀ name a, s.lookup name = some a → a < t.size)
    {es : List (Except ResolveError TypeExpr)} {ids : List TypeId} :
    DenoteAll p t es s ids → DenoteAll p t' es s ids
  | .nil => .nil
  | .cons hfirst hrest => .cons (hfirst.keep ht hkept hs) (hrest.keep ht hkept hs)

end

/-! ## Sound shapes -/

/-- Every shape keeps the rules for one shape and is made of places below the bound. -/
def Workspace.SoundBelow (bound : Nat) (w : Workspace) : Prop := ∀ id s,
  w.table.shape? id = some s → s.check = .ok () ∧ ∀ child ∈ s.references, child < bound

namespace Workspace.SoundBelow

variable {bound : Nat}

theorem of_shapes (h : w.SoundBelow bound) (hshapes : ∀ id s, w'.table.shape? id = some s →
    ∃ place, w.table.shape? place = some s) : w'.SoundBelow bound := by
  intro id s hs
  obtain ⟨place, hplace⟩ := hshapes id s hs
  exact h place s hplace

theorem intern (h : w.SoundBelow bound) {s : Shape} (hcheck : s.check = .ok ())
    (hreferences : ∀ child ∈ s.references, child < bound) : (w.intern s).SoundBelow bound := by
  intro id s' hs
  rcases Table.intern_cases w.table s with ⟨_, -, ht⟩ | ⟨-, ht⟩
  · rw [Workspace.intern, ht] at hs
    exact h id s' hs
  · rw [Workspace.intern, ht, Table.shape?_push rfl] at hs
    split at hs
    · cases hs
      exact ⟨hcheck, hreferences⟩
    · exact h id s' hs

end Workspace.SoundBelow

/-- Every shape that comes keeps the rules for one shape. -/
theorem Resolves.soundBelow {room : Nat} {task : Task} {n : Nat} {ids : List TypeId}
    (h : Resolves p room task n w (.ok ids) w') (hclosed : w.Closed)
    (hwithin : task.Within w.table.size) {bound : Nat} (hbound : w'.table.size ≤ bound)
    (hw : w.SoundBelow bound) : w'.SoundBelow bound := by
  induction h using Resolves.ok_induction with
  | nil | placed | bound | known | done | cached => exact hw
  | next hhead hrest ih ih' =>
    have hc := hhead.closed hclosed hwithin
    have hwithin' := hwithin.mono hc.size
    have hle := (hrest.closed hc.closed hwithin').size
    exact ih' hc.closed hwithin' hbound (ih hclosed hwithin (Nat.le_trans hle hbound) hw)
  | built hparts hover hcheck ih =>
    have hc := hparts.closed hclosed hwithin
    have hle := Nat.le_trans (Table.size_le_intern _ _) hbound
    refine (ih hclosed hwithin hle hw).intern hcheck fun child hchild => ?_
    exact Nat.lt_of_lt_of_le (hc.places _ rfl child (references_shapeOver hover child hchild)) hle
  | index _ _ ih | declared _ _ _ ih => exact ih hclosed trivial hbound hw
  | primitive => exact hw.intern rfl fun child hchild => by cases hchild
  | applied hg hparts hinst ih ih' =>
    have hc := hparts.closed hclosed hwithin
    have hle := (hinst.closed hc.closed (hc.places _ rfl)).size
    exact ih' hc.closed (hc.places _ rfl) hbound (ih hclosed hwithin (Nat.le_trans hle hbound) hw)
  | again _ hmeet | againInstance _ _ hmeet =>
    exact hw.of_shapes fun id s hs => ⟨id, (Workspace.shape?_meetAgain hmeet id).symm.trans hs⟩
  | defined hi hbody hu hsettle ih =>
    rw [Workspace.size_finishDefinition] at hbound
    have hle := Nat.le_trans (Workspace.size_le_settle hsettle) hbound
    have hbody' := ih (hclosed.setProgress _ (by rintro _ ⟨⟩) (by rintro _ _ ⟨⟩ ⟨⟩))
      (by rintro _ ⟨⟩) hle hw
    refine hbody'.of_shapes fun id s hs => ?_
    rw [Table.shape?_congr (Workspace.slots_finishDefinition _ _ _ _)] at hs
    exact (labels_settle hsettle).2 id s hs
  | instantiated hdone hkey hbody hu hsettle ih =>
    rw [Workspace.size_finishInstance] at hbound
    have hle := Nat.le_trans (Workspace.size_le_settle (w := Workspace.leaveInstance _ _) hsettle)
      hbound
    have hbody' := ih (hclosed.enterInstance _ _) (within_bind hwithin) hle hw
    refine hbody'.of_shapes fun id s hs => ?_
    rw [Table.shape?_congr (Workspace.slots_finishInstance _ _ _ _)] at hs
    exact (labels_settle hsettle).2 id s hs

/-- What is resolved in a table of sound shapes leaves shapes that keep the rules for one shape, and
are made of the places that there are then. -/
theorem Table.ClosedWorld.soundBelow_of_resolves (ht : t.ClosedWorld) {task : Task} {room n : Nat}
    {ids : List TypeId} (hrun : Resolves {} room task n { table := t } (.ok ids) w)
    (htask : task.Within t.size) : w.SoundBelow w.table.size := by
  have hc := hrun.closed (Table.closed_start ht.closed) htask
  refine hrun.soundBelow (Table.closed_start ht.closed) htask (Nat.le_refl _) fun id s hs => ?_
  exact ⟨ht.sound id s hs, fun child hchild =>
    Nat.lt_of_lt_of_le (ht.references hs child hchild) hc.size⟩

/-- The shapes at the new places of a table keep the rules for one shape, and are made of its own
places. -/
theorem Table.ClosedWorld.soundBelow (ht : t.ClosedWorld) {e : TypeExpr} {room n : Nat}
    {ids : List TypeId} (hrun : Resolves {} room (.type e []) n { table := t } (.ok ids) w)
    (hfill : fillAll w.table w.aliases = .ok t') :
    Workspace.SoundBelow t'.size { table := t' } := by
  have hw := ht.soundBelow_of_resolves hrun (by rintro b ⟨⟩)
  rw [size_fillAll hfill]
  exact hw.of_shapes fun id s hs => shapes_fillAll hfill hs

/-! ## New places -/

/-- Every place that the table does not have itself is like one that it has. -/
def Workspace.Repeats (p : Program) (t t' : Table) (w : Workspace) : Prop := ∀ id,
  id < w.table.size → t.size ≤ id → ∃ old < t.size, Alike p t' old id

/-- The first place is one of the table, and the second is like it in the other table. -/
def Resembles (p : Program) (t t' : Table) (old id : TypeId) : Prop :=
  old < t.size ∧ Alike p t' old id

theorem Workspace.Repeats.intern (h : w.Repeats p t t') {s : Shape}
    (hnew : ∃ old < t.size, Alike p t' old (w.table.intern s).1) :
    (w.intern s).Repeats p t t' := by
  intro id hid hold
  rcases Table.intern_cases w.table s with ⟨_, -, ht⟩ | ⟨-, ht⟩
  · rw [Workspace.intern, ht] at hid
    exact h id hid hold
  · rw [ht] at hnew
    rw [Workspace.intern, ht] at hid
    have hle : id < w.table.size + 1 := by simpa [Table.size] using hid
    rcases Nat.lt_succ_iff_lt_or_eq.mp hle with hlt | rfl
    · exact h id hlt hold
    · exact hnew

theorem Workspace.Repeats.of_size (h : w.Repeats p t t') (hsize : w'.table.size = w.table.size) :
    w'.Repeats p t t' := fun id hid hold => h id (Nat.lt_of_lt_of_eq hid hsize) hold

theorem Workspace.Refines.over (h : w.Refines w') (progress : Array Progress) :
    (w.over progress).Refines (w'.over progress) where
  shapes := h.shapes
  aliases := h.aliases
  definitions _ _ hi := hi
  instances := h.instances
  generics := h.generics

/-- What the bindings bind in the first place is a place of the table. -/
theorem Mirrors.lt_size {s s' : Bindings} (h : Mirrors (Resembles p t t') s s') (name : String)
    (a : TypeId) (ha : s.lookup name = some a) : a < t.size := by
  obtain ⟨b, hb⟩ : Bound s' name := h.bound ▸ ⟨a, ha⟩
  exact (h.related name a b ha hb).1

theorem Mirrors.alike {s s' : Bindings} (h : Mirrors (Resembles p t t') s s') (name : String)
    (a b : TypeId) (ha : s.lookup name = some a) (hb : s'.lookup name = some b) :
    Alike p t' a b := (h.related name a b ha hb).2

namespace Task.Mirrored

variable {s : Bindings} {e : TypeExpr} {g : Generic} {key : InstanceKey} {id : TypeId}

/-- What a type comes to is like what it came to before. -/
theorem alike (ht : t.Settled p progress)
    (hkept : Workspace.KeptBy { table := t, progress } t')
    (h : Mirrored p t (Resembles p t t') (.type e s)) (hid : Denotes p t' e s id) :
    ∃ old < t.size, Alike p t' old id := by
  obtain ⟨s₀, x, hs, hx⟩ := h
  obtain ⟨shape, hshape⟩ := hx.filled ht hs.lt_size
  exact ⟨x, Table.lt_size_of_shape? hshape,
    .denoted (hx.keep ht hkept hs.lt_size) hid hs.bound hs.alike⟩

/-- The place of an instance is like the one that the instance had over the old places. -/
theorem alike_instance (ht : t.Settled p progress) (ht' : t'.Meant p)
    (hkept : Workspace.KeptBy { table := t, progress } t')
    (h : Mirrored p t (Resembles p t t') (.generic g key))
    (hid : t'.instances.lookup key = some id) : ∃ old < t.size, Alike p t' old id := by
  obtain ⟨hproper, -⟩ := h.proper ht.headed
  obtain ⟨hg, ids, x, hx, hids⟩ := h
  rw [← show t'.generics = t.generics from hkept.generics] at hg
  obtain ⟨g₁, hg₁, hbody₁⟩ :=
    ht'.instances _ _ (hkept.instances _ _ (Workspace.instancePlace_of_done hx))
  obtain ⟨g₂, hg₂, hbody₂⟩ := ht'.instances _ _ hid
  cases hg.symm.trans hg₁
  cases hg.symm.trans hg₂
  refine ⟨x, ht.world.closed.instances _ (mem_of_lookup hx), .denoted hbody₁ hbody₂ ?_ ?_⟩
  · rw [Generic.bound_bind hproper.2, Generic.bound_bind (hproper.2.trans hids.length_eq.symm)]
  · exact Alike.bind (hids.imp fun _ _ hR => hR.2)

end Task.Mirrored

/-- Arguments come to places that are like those that they came to before. -/
theorem DenoteAll.resemble (ht : t.Settled p progress)
    (hkept : Workspace.KeptBy { table := t, progress } t')
    {es : List (Except ResolveError TypeExpr)} {s s' : Bindings} {ids ids' : List TypeId}
    (h : DenoteAll p t es s ids) (h' : DenoteAll p t' es s' ids')
    (hs : Mirrors (Resembles p t t') s s') : List.Forall₂ (Resembles p t t') ids ids' :=
  (List.forall₂_and_left _ _).mpr ⟨h.lt_size ht hs.lt_size,
    Alike.parts (h.keep ht hkept hs.lt_size) h' hs.bound hs.alike⟩

theorem Task.Retraces.arrives {task : Task} {room n : Nat} {ids : List TypeId}
    (h : task.Retraces p progress t w) (ht : t.Settled p progress)
    (hrun : Resolves {} room task n w (.ok ids) w') :
    Arrives p task (w.over progress) ids (w'.over progress) :=
  ht.arrives hrun h.along.since h.along.faithful h.known

/-- Whatever the table has already brings no place that is not like an old one. -/
theorem Resolves.repeats (ht : t.Settled p progress) (ht' : t'.Meant p)
    (hold : Workspace.KeptBy { table := t, progress } t') {room : Nat} {task : Task} {n : Nat}
    {ids : List TypeId} (h : Resolves {} room task n w (.ok ids) w')
    (htask : task.Retraces p progress t w) (hmirrored : task.Mirrored p t (Resembles p t t'))
    (hkept : (w'.over progress).KeptBy t') (hw : w.Repeats p t t') : w'.Repeats p t t' := by
  induction h using Resolves.ok_induction with
  | nil | placed | bound | known | cached => exact hw
  | next hhead hrest ih ih' =>
    obtain ⟨hdescends', -⟩ := hhead.descends ht htask.head
    have hrest' := htask.tail ht hhead hdescends'
    have hkept' := hkept.of_refines (hrest'.arrives ht hrest).refines
    exact ih' hrest' hmirrored.cons.2 hkept (ih htask.head hmirrored.cons.1 hkept' hw)
  | built hparts hover hcheck ih =>
    have hrun := Resolves.built hparts hover hcheck
    obtain ⟨id, hid, hdenotes⟩ := (htask.arrives ht hrun).denoted t' hkept
    cases hid
    have hkept' := hkept.of_refines ((Workspace.refines_intern _ _).over progress)
    exact (ih htask.parts hmirrored.parts hkept' hw).intern (hmirrored.alike ht hold hdenotes)
  | index hi => exact absurd hi (Nat.not_lt_zero _)
  | declared _ hi => cases hi
  | @primitive room n w s name _ hs hfree hname hprim =>
    have hrun : Resolves {} room (.type (.named name []) s) n w _ _ :=
      .primitive hs hfree hname hprim
    obtain ⟨id, hid, hdenotes⟩ := (htask.arrives ht hrun).denoted t' hkept
    cases hid
    exact hw.intern (hmirrored.alike ht hold hdenotes)
  | applied hg hparts hinst ih ih' =>
    obtain ⟨hg', -⟩ := genericOf_ok hg
    obtain ⟨hdescends', -⟩ := hparts.descends ht htask.args
    have hinst' := htask.generic ht hg' hparts hdescends'
    have hkept' := hkept.of_refines (hinst'.arrives ht hinst).refines
    refine ih' hinst' (hmirrored.generic hinst'.mirrored.1 fun s₀ ids₀ hs hids₀ => ?_) hkept
      (ih htask.args hmirrored.args hkept' hw)
    exact hids₀.resemble ht hold ((htask.args.arrives ht hparts).denoted t' hkept') hs
  | done hi | again hi | defined hi => cases (htask.along.since.progressAt _).symm.trans hi
  | @againInstance _ _ w _ _ key _ _ _ hdone hkey hmeet =>
    have hplace := hkept.instances _ _ (Workspace.instancePlace_meetInstance hdone hmeet)
    have hslot := hmirrored.alike_instance ht ht' hold hplace
    rcases meetAgain_cases _ _ _ _ _ with ⟨-, ho⟩ | ⟨-, _, -, ho⟩ | ⟨-, -, ho⟩
    · cases ho.symm.trans hmeet
    · cases ho.symm.trans hmeet
      exact hw
    · cases ho.symm.trans hmeet
      intro id hid hnew
      have hlt : id < (w.reserve (some (Program.instanceLabel w.table key))).table.size := hid
      rw [Workspace.size_reserve] at hlt
      rcases Nat.lt_succ_iff_lt_or_eq.mp hlt with hlt | rfl
      · exact hw id hlt hnew
      · exact hslot
  | @instantiated _ n _ _ _ _ _ _ _ _ hdone hkey hbody hu hsettle ih =>
    have htask' := htask.body ht hdone hkey n
    obtain ⟨hw', -, -⟩ := htask'.resolves ht hbody
    have hkept' := hkept.of_refines
      ((Workspace.refines_finishInstance hw'.orderly hu hsettle).over progress)
    refine (ih htask' (hmirrored.body ht.meant) hkept' (hw.of_size rfl)).of_size ?_
    rw [Workspace.size_finishInstance]
    exact Workspace.size_settle (w := Workspace.leaveInstance _ _) hsettle

end Typewire
