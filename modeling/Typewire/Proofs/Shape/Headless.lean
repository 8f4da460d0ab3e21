-- A generic type without a head is never finished. While its instance is underway it can only come
-- to a place that waits for another such instance. These places make up a set that only grows and
-- in which each leads to the next, so none of them is ever given a shape.
import Typewire.Proofs.Shape.Heads
import Typewire.Proofs.Shape.World

namespace Typewire

open Typewire.Language Resolving

variable {generics : List (String × Generic)} {p : Program} {P P' P'' : TypeId → Prop}
  {w w' w'' : Workspace}

/-! ## Types without a head -/

/-- The type has no head, unless that is a parameter for one of the places. -/
def Stuck (generics : List (String × Generic)) (P : TypeId → Prop) (s : Bindings)
    (e : TypeExpr) : Prop :=
  ∀ head k, Heads generics (Bound s) e head k →
    ∃ param id, head = some param ∧ s.lookup param = some id ∧ P id

/-- The body of the instance has no head, unless that is a parameter for one of the places. -/
def InstanceKey.Stuck (generics : List (String × Generic)) (P : TypeId → Prop)
    (key : InstanceKey) : Prop :=
  ∀ g, key.Proper generics g → Typewire.Stuck generics P (Program.bind g.params key.args) g.body

/-- There are more places, and the others are new. -/
structure Grows (n : Nat) (P P' : TypeId → Prop) : Prop where
  kept : ∀ id, P id → P' id
  new : ∀ id, P' id → P id ∨ n ≤ id

theorem Grows.refl (n : Nat) (P : TypeId → Prop) : Grows n P P := ⟨fun _ h => h, fun _ h => .inl h⟩

theorem Grows.trans {n m : Nat} (h : Grows n P P') (h' : Grows m P' P'') (hle : n ≤ m) :
    Grows n P P'' where
  kept id hid := h'.kept id (h.kept id hid)
  new id hid := by
    rcases h'.new id hid with hid | hid
    · exact h.new id hid
    · exact Or.inr (Nat.le_trans hle hid)

theorem Stuck.mono {s : Bindings} {e : TypeExpr} (h : Stuck generics P s e)
    (hP : ∀ id, P id → P' id) : Stuck generics P' s e := by
  intro head k hhead
  obtain ⟨param, id, hparam, hid, hPid⟩ := h head k hhead
  exact ⟨param, id, hparam, hid, hP id hPid⟩

theorem InstanceKey.Stuck.mono {key : InstanceKey} (h : key.Stuck generics P)
    (hP : ∀ id, P id → P' id) : key.Stuck generics P' := fun g hg => (h g hg).mono hP

theorem not_stuck {s : Bindings} {e : TypeExpr} {k : Nat} (h : Heads generics (Bound s) e none k) :
    ¬ Stuck generics P s e := by
  intro hstuck
  obtain ⟨param, id, hparam, -⟩ := hstuck none k h
  cases hparam

theorem not_stuck_of_shapeOver {s : Bindings} {e : TypeExpr} {ids : List TypeId} {shape : Shape}
    (h : shapeOver e ids = some shape) : ¬ Stuck generics P s e := by
  refine not_stuck (.own ?_)
  rintro name args rfl
  cases args with
  | nil => cases h
  | cons => cases h

/-- New places are no arguments of an instance that was there before. -/
theorem InstanceKey.Stuck.of_grows {key : InstanceKey} {n : Nat} (h : key.Stuck generics P')
    (hgrows : Grows n P P') (hargs : ∀ id ∈ key.args, id < n) : key.Stuck generics P := by
  intro g hg head k hhead
  obtain ⟨param, id, hparam, hid, hPid⟩ := h g hg head k hhead
  refine ⟨param, id, hparam, hid, (hgrows.new id hPid).resolve_right fun hle => ?_⟩
  exact Nat.not_lt_of_le hle (hargs id (Generic.mem_of_argument (g := g) hid).2)

/-! ## Places that nothing fills -/

/-- The instance is underway or done. -/
def Workspace.Knows (w : Workspace) (key : InstanceKey) : Prop :=
  (∃ u, w.instances.lookup key = some u) ∨ ∃ id, w.table.instances.lookup key = some id

/-- The places are those that instances without a head have, and each of them is held by such an
instance or is an alias for another one. -/
structure Workspace.Hollow (generics : List (String × Generic)) (P : TypeId → Prop)
    (w : Workspace) : Prop where
  known : w.table.generics = generics
  keys : ∀ key, w.Knows key → (∃ g, key.Proper generics g) ∧ ∀ id ∈ key.args, id < w.table.size
  places : ∀ key id, w.instancePlace key = some id → key.Stuck generics P → P id
  held : ∀ id, P id → (∃ key, w.reservedBy (.generic key) = some id ∧ key.Stuck generics P) ∨
    ∃ target, P target ∧ (id, target) ∈ w.aliases

namespace Workspace

theorem knows_of_instancePlace {key : InstanceKey} {id : TypeId}
    (h : w.instancePlace key = some id) : w.Knows key := by
  unfold instancePlace at h
  cases hdone : w.table.instances.lookup key with
  | some other => exact Or.inr ⟨other, hdone⟩
  | none =>
    rw [hdone, Option.none_or] at h
    obtain ⟨u, hu, -⟩ := Option.bind_eq_some_iff.mp h
    exact Or.inl ⟨u, hu⟩

theorem reservedBy_linked {id target : TypeId} (h : (id, target) ∈ w.aliases) :
    ∃ k, w.reservedBy (.linked k) = some id := by
  obtain ⟨k, hk, hlink⟩ := List.getElem_of_mem h
  exact ⟨k, by rw [reservedBy, List.getElem?_eq_getElem hk, hlink]; rfl⟩

theorem size_settle {u : Underway} {id id' : TypeId} {label : String}
    (h : outcome (settle u id label) w = (.ok id', w')) : w'.table.size = w.table.size := by
  rcases settle_ok h with ⟨-, -, rfl⟩ | ⟨-, -, s, -, rfl⟩ | ⟨-, rfl⟩
  · rfl
  · exact Table.size_fill id' s
  · rfl

theorem size_le_settle {u : Underway} {id id' : TypeId} {label : String}
    (h : outcome (settle u id label) w = (.ok id', w')) : w.table.size ≤ w'.table.size :=
  Nat.le_of_eq (size_settle h).symm

theorem size_le_meetAgain {u u' : Underway} {n : Nat} {label : String}
    {reservedLabel : Option String} {slot : TypeId}
    (h : outcome (meetAgain u n label reservedLabel) w = (.ok (slot, u'), w')) :
    w.table.size ≤ w'.table.size := by
  rcases meetAgain_cases u n label reservedLabel w with ⟨-, ho⟩ | ⟨-, _, -, ho⟩ | ⟨-, -, ho⟩
  · cases ho.symm.trans h
  · cases ho.symm.trans h
    exact Nat.le_refl _
  · cases ho.symm.trans h
    rw [size_reserve]
    exact Nat.le_succ _

/-- What is met again has the place that it had, or else a new one. -/
theorem slot_meetAgain {u u' : Underway} {n : Nat} {label : String}
    {reservedLabel : Option String} {slot : TypeId}
    (h : outcome (meetAgain u n label reservedLabel) w = (.ok (slot, u'), w')) :
    u.reserved = some slot ∨ w.table.size ≤ slot := by
  rcases meetAgain_cases u n label reservedLabel w with ⟨-, ho⟩ | ⟨-, _, hu, ho⟩ | ⟨-, -, ho⟩
  · cases ho.symm.trans h
  · cases ho.symm.trans h
    exact Or.inl hu
  · cases ho.symm.trans h
    exact Or.inr (Nat.le_refl _)

/-! ## Known instances -/

section

variable {key other : InstanceKey} {u u' : Underway} {n : Nat} {id id' slot : TypeId}
  {label label' : String} {reservedLabel : Option String}

theorem lookup_enterInstance_ne (hother : other ≠ key) :
    (w.enterInstance key n).instances.lookup other = w.instances.lookup other := by
  simp only [Workspace.enterInstance, List.lookup_cons, beq_false_of_ne hother]

theorem lookup_meetInstance_ne
    (hmeet : outcome (meetAgain u n label reservedLabel) w = (.ok (slot, u'), w'))
    (hother : other ≠ key) :
    (w'.setInstance key u').instances.lookup other = w.instances.lookup other := by
  obtain ⟨-, hinst⟩ := progress_meetAgain hmeet
  simp only [Workspace.setInstance, List.lookup_cons, beq_false_of_ne hother,
    lookup_filter_ne hother, hinst]

theorem lookup_finishInstance_ne
    (hsettle : outcome (settle u id label) (w.leaveInstance key) = (.ok id', w'))
    (hother : other ≠ key) :
    (w'.finishInstance key label' id').instances.lookup other = w.instances.lookup other := by
  obtain ⟨-, hinst⟩ := progress_settle hsettle
  change w'.instances.lookup other = _
  rw [hinst]
  exact lookup_filter_ne hother

theorem lookup_done_finishInstance_ne
    (hsettle : outcome (settle u id label) (w.leaveInstance key) = (.ok id', w'))
    (hother : other ≠ key) :
    (w'.finishInstance key label' id').table.instances.lookup other
      = w.table.instances.lookup other := by
  rw [(notes_finishInstance w' key label' id').2.2.2.2, List.lookup_cons, beq_false_of_ne hother]
  exact congrArg (List.lookup other) (Table.SameNotes.settle hsettle).instances

theorem knows_of_enterInstance (h : (w.enterInstance key n).Knows other) (hother : other ≠ key) :
    w.Knows other := by
  unfold Knows at h
  rwa [lookup_enterInstance_ne hother] at h

theorem knows_of_meetInstance (hkey : w.instances.lookup key = some u)
    (hmeet : outcome (meetAgain u n label reservedLabel) w = (.ok (slot, u'), w'))
    (h : (w'.setInstance key u').Knows other) : w.Knows other := by
  by_cases hsame : other = key
  · rw [hsame]
    exact Or.inl ⟨u, hkey⟩
  · unfold Knows at h
    rw [lookup_meetInstance_ne hmeet hsame] at h
    exact h.imp_right fun ⟨id, hid⟩ => ⟨id, (Table.SameNotes.meetAgain hmeet).instances ▸ hid⟩

theorem knows_of_finishInstance (hkey : w.instances.lookup key = some u)
    (hsettle : outcome (settle u id label) (w.leaveInstance key) = (.ok id', w'))
    (h : (w'.finishInstance key label' id').Knows other) : w.Knows other := by
  by_cases hsame : other = key
  · rw [hsame]
    exact Or.inl ⟨u, hkey⟩
  · unfold Knows at h
    rwa [lookup_finishInstance_ne hsettle hsame, lookup_done_finishInstance_ne hsettle hsame] at h

end

/-! ## Places of instances without a head -/

namespace Hollow

theorem unfilled (h : w.Hollow generics P) (hw : w.Orderly) {id : TypeId} (hid : P id) :
    w.table.shape? id = none := by
  rcases h.held id hid with ⟨key, hkey, -⟩ | ⟨target, -, hlink⟩
  · exact (hw.reserved.unfilled _ id hkey).2
  · obtain ⟨k, hk⟩ := reservedBy_linked hlink
    exact (hw.reserved.unfilled _ id hk).2

/-- What touches no instance leaves the places as they are. -/
theorem of_eq (h : w.Hollow generics P) (hinst : w'.instances = w.instances)
    (hdone : w'.table.instances = w.table.instances)
    (hgenerics : w'.table.generics = w.table.generics) (hsize : w.table.size ≤ w'.table.size)
    (haliases : ∀ a ∈ w.aliases, a ∈ w'.aliases) : w'.Hollow generics P where
  known := hgenerics.trans h.known
  keys key hkey := by
    unfold Knows at hkey
    rw [hinst, hdone] at hkey
    obtain ⟨hproper, hargs⟩ := h.keys key hkey
    exact ⟨hproper, fun id hid => Nat.lt_of_lt_of_le (hargs id hid) hsize⟩
  places key id hid := h.places key id ((instancePlace_congr hdone hinst key).symm.trans hid)
  held id hid := by
    rcases h.held id hid with ⟨key, hkey, hstuck⟩ | ⟨target, htarget, hlink⟩
    · refine Or.inl ⟨key, ?_, hstuck⟩
      rw [reservedBy, hinst]
      exact hkey
    · exact Or.inr ⟨target, htarget, haliases _ hlink⟩

theorem intern (h : w.Hollow generics P) (s : Shape) : (w.intern s).Hollow generics P :=
  h.of_eq rfl (Table.SameNotes.intern s).instances (Table.SameNotes.intern s).generics
    (Table.size_le_intern _ _) fun _ ha => ha

theorem finishDefinition (h : w.Hollow generics P) {i : Nat} {u : Underway} {id id' : TypeId}
    {label : String} (hsettle : outcome (settle u id label) w = (.ok id', w'))
    (name? : Option String) : (w'.finishDefinition i name? id').Hollow generics P := by
  obtain ⟨-, hinst⟩ := progress_settle hsettle
  obtain ⟨-, hinstances, hgenerics, -⟩ := notes_finishDefinition w' i name? id'
  have hnotes := Table.SameNotes.settle hsettle
  refine h.of_eq hinst (hinstances.trans hnotes.instances) (hgenerics.trans hnotes.generics)
    ?_ fun a ha => ?_
  · rw [size_finishDefinition]
    exact size_le_settle hsettle
  · obtain ⟨new, hnew⟩ := aliases_settle hsettle
    change a ∈ w'.aliases
    rw [hnew]
    exact List.mem_append_left _ ha

theorem enterInstance (h : w.Hollow generics P) {key : InstanceKey} {g : Generic}
    (hkey : w.instances.lookup key = none) (hproper : key.Proper generics g)
    (hargs : ∀ id ∈ key.args, id < w.table.size) (n : Nat) :
    (w.enterInstance key n).Hollow generics P := by
  constructor
  case known => exact h.known
  case keys =>
    intro other hother
    by_cases hsame : other = key
    · rw [hsame]
      exact ⟨⟨g, hproper⟩, hargs⟩
    · exact h.keys other (knows_of_enterInstance hother hsame)
  case places =>
    intro other id hid
    refine h.places other id ?_
    by_cases hsame : other = key
    · subst hsame
      simpa [instancePlace, Workspace.enterInstance, hkey] using hid
    · rw [instancePlace, lookup_enterInstance_ne hsame] at hid
      exact hid
  case held =>
    intro id hid
    rcases h.held id hid with ⟨other, hother, hstuck⟩ | hlink
    · refine Or.inl ⟨other, ?_, hstuck⟩
      have hsame : other ≠ key := by
        rintro rfl
        rw [reservedBy, hkey] at hother
        cases hother
      rw [reservedBy, lookup_enterInstance_ne hsame]
      exact hother
    · exact Or.inr hlink

/-- Where an instance without a head is met again its reserved place is one more place. -/
theorem meetInstance (h : w.Hollow generics P) (hw : w.Orderly) {key : InstanceKey} {n : Nat}
    {u u' : Underway} {slot : TypeId} {label : String} {reservedLabel : Option String}
    (hkey : w.instances.lookup key = some u)
    (hmeet : outcome (meetAgain u n label reservedLabel) w = (.ok (slot, u'), w')) :
    ∃ P', Grows w.table.size P P' ∧ (w'.setInstance key u').Hollow generics P' ∧
      (key.Stuck generics P → P' slot) := by
  have hproper := (h.keys key (Or.inl ⟨u, hkey⟩)).1
  have hreserved := (underway_meetAgain hmeet).2
  have hnotes := Table.SameNotes.meetAgain hmeet
  have hself : (w'.setInstance key u').instances.lookup key = some u' := by
    simp [Workspace.setInstance]
  have hgrows : Grows w.table.size P fun id => P id ∨ (id = slot ∧ key.Stuck generics P) := by
    refine ⟨fun id hid => Or.inl hid, ?_⟩
    rintro id (hid | ⟨rfl, hstuck⟩)
    · exact Or.inl hid
    · rcases slot_meetAgain hmeet with hu | hle
      · refine Or.inl (h.places key id ?_ hstuck)
        rw [instancePlace_of_underway (hw.fresh key u hkey) hkey, hu]
      · exact Or.inr hle
  have hback {other : InstanceKey} (hother : w.Knows other)
      (hstuck : other.Stuck generics fun id => P id ∨ (id = slot ∧ key.Stuck generics P)) :
      other.Stuck generics P := hstuck.of_grows hgrows (h.keys other hother).2
  refine ⟨_, hgrows, ⟨hnotes.generics.trans h.known, ?_, ?_, ?_⟩,
    fun hstuck => Or.inr ⟨rfl, hstuck⟩⟩
  · intro other hother
    obtain ⟨hg, hargs⟩ := h.keys other (knows_of_meetInstance hkey hmeet hother)
    have hsize := size_le_meetAgain hmeet
    exact ⟨hg, fun id hid => Nat.lt_of_lt_of_le (hargs id hid) hsize⟩
  · intro other id hid hstuck
    by_cases hsame : other = key
    · subst hsame
      refine Or.inr ⟨?_, hback (Or.inl ⟨u, hkey⟩) hstuck⟩
      have hdone : (w'.setInstance other u').table.instances.lookup other = none :=
        (congrArg _ hnotes.instances).trans (hw.fresh other u hkey)
      rw [instancePlace_of_underway hdone hself, hreserved] at hid
      exact (Option.some.inj hid).symm
    · have hplace : w.instancePlace other = some id := by
        rw [instancePlace, lookup_meetInstance_ne hmeet hsame] at hid
        rw [instancePlace, ← hnotes.instances]
        exact hid
      exact Or.inl (h.places other id hplace (hback (knows_of_instancePlace hplace) hstuck))
  · rintro id (hid | ⟨rfl, hstuck⟩)
    · rcases h.held id hid with ⟨other, hother, hstuck⟩ | ⟨target, htarget, hlink⟩
      · refine Or.inl ⟨other, ?_, hstuck.mono hgrows.kept⟩
        by_cases hsame : other = key
        · subst hsame
          rw [reservedBy, hkey] at hother
          rw [reservedBy, hself]
          exact (underway_meetAgain hmeet).1.reserved id hother
        · rw [reservedBy, lookup_meetInstance_ne hmeet hsame]
          exact hother
      · refine Or.inr ⟨target, Or.inl htarget, ?_⟩
        change (id, target) ∈ w'.aliases
        rw [aliases_meetAgain hmeet]
        exact hlink
    · refine Or.inl ⟨key, ?_, hstuck.mono hgrows.kept⟩
      rw [reservedBy, hself]
      exact hreserved

/-- Where the body of an instance without a head comes to one of the places, the instance is done
at one of them. -/
theorem finishInstance (h : w.Hollow generics P) (hw : w.Orderly) {key : InstanceKey}
    {u : Underway} {id id' : TypeId} {label label' : String}
    (hkey : w.instances.lookup key = some u)
    (hsettle : outcome (settle u id label) (w.leaveInstance key) = (.ok id', w'))
    (hid : key.Stuck generics P → P id) :
    (w'.finishInstance key label' id').Hollow generics P ∧ (key.Stuck generics P → P id') := by
  obtain ⟨-, hinst⟩ := progress_settle hsettle
  have hnotes := Table.SameNotes.settle hsettle
  obtain ⟨-, -, hgenerics, -, hinstances⟩ := notes_finishInstance w' key label' id'
  have hplace : w.instancePlace key = u.reserved :=
    instancePlace_of_underway (hw.fresh key u hkey) hkey
  have hsize : w.table.size ≤ (w'.finishInstance key label' id').table.size := by
    rw [size_finishInstance]
    exact size_le_settle (w := w.leaveInstance key) hsettle
  have hself : key.Stuck generics P → P id' := by
    intro hstuck
    rcases settle_ok hsettle with ⟨-, rfl, -⟩ | ⟨-, -, s, hs, -⟩ | ⟨hslot, -⟩
    · exact hid hstuck
    · cases (h.unfilled hw (hid hstuck)).symm.trans hs
    · exact h.places key id' (hplace.trans hslot) hstuck
  refine ⟨⟨?_, ?_, ?_, ?_⟩, hself⟩
  · exact hgenerics.trans (hnotes.generics.trans h.known)
  · intro other hother
    obtain ⟨hg, hargs⟩ := h.keys other (knows_of_finishInstance hkey hsettle hother)
    exact ⟨hg, fun arg harg => Nat.lt_of_lt_of_le (hargs arg harg) hsize⟩
  · intro other place hother hstuck
    by_cases hsame : other = key
    · subst hsame
      have hlookup : (w'.finishInstance other label' id').table.instances.lookup other
          = some id' := by
        rw [hinstances]
        exact List.lookup_cons_self
      cases (instancePlace_of_done hlookup).symm.trans hother
      exact hself hstuck
    · rw [instancePlace, lookup_done_finishInstance_ne hsettle hsame,
        lookup_finishInstance_ne hsettle hsame] at hother
      exact h.places other place hother hstuck
  · intro place hP
    rcases h.held place hP with ⟨other, hother, hstuck⟩ | ⟨target, htarget, hlink⟩
    · by_cases hsame : other = key
      · subst hsame
        rw [reservedBy, hkey] at hother
        rcases settle_ok hsettle with ⟨hnone, -, -⟩ | ⟨-, -, s, hs, -⟩ | ⟨hslot, rfl⟩
        · cases hnone.symm.trans hother
        · cases (h.unfilled hw (hid hstuck)).symm.trans hs
        · cases hslot.symm.trans hother
          exact Or.inr ⟨id, hid hstuck, List.mem_append_right _ List.mem_cons_self⟩
      · refine Or.inl ⟨other, ?_, hstuck⟩
        rw [reservedBy, lookup_finishInstance_ne hsettle hsame]
        exact hother
    · refine Or.inr ⟨target, htarget, ?_⟩
      obtain ⟨new, hnew⟩ := aliases_settle hsettle
      change (place, target) ∈ w'.aliases
      rw [hnew]
      exact List.mem_append_left _ hlink

end Hollow

end Workspace

/-! ## Runs -/

/-- Where the task is about an instance it is a proper one. -/
def Task.Proper (generics : List (String × Generic)) : Task → Prop
  | .generic g key => key.Proper generics g
  | _ => True

/-- What has no head came to one of the places. -/
def Task.Sinks (generics : List (String × Generic)) (P P' : TypeId → Prop) :
    Task → List TypeId → Prop
  | .type e s, ids => Stuck generics P s e → ∀ id ∈ ids, P' id
  | .parts es s, ids =>
    List.Forall₂ (fun x id => ∀ e, x = .ok e → Stuck generics P s e → P' id) es ids
  | .definition _, _ => True
  | .generic _ key, ids => key.Stuck generics P → ∀ id ∈ ids, P' id

/-- A generic type with arguments is stuck where its body is, or the argument that heads it. -/
theorem Stuck.applied {s : Bindings} {name : String} {e : TypeExpr} {es : List TypeExpr}
    {ids : List TypeId} (h : Stuck generics P s (.named name (e :: es)))
    (hargs : (Task.parts ((e :: es).map .ok) s).Sinks generics P P' ids) :
    InstanceKey.Stuck generics P' ⟨name, ids⟩ := by
  rintro g ⟨hg, hlength⟩ head k hhead
  rw [Generic.bound_bind hlength] at hhead
  cases head with
  | none => exact absurd h (not_stuck (.whole hg hhead))
  | some param =>
    have hargs : List.Forall₂ (fun e id => Stuck generics P s e → P' id) (e :: es) ids := by
      refine (List.forall₂_map_left_iff.mp hargs).imp fun e id he => ?_
      exact he e rfl
    have hcount : g.params.length = (e :: es).length := hlength.trans hargs.length_eq.symm
    obtain ⟨arg, harg⟩ := Generic.argument_of_binds hcount hhead.bound_of_param
    obtain ⟨id, hid, hP⟩ := Generic.argument_forall₂ hargs harg
    refine ⟨param, id, rfl, hid, hP fun head l harg' => ?_⟩
    exact h head _ (.passed hg hhead harg harg')

/-- Whatever is resolved, what has no head comes to a place that nothing fills. -/
theorem Resolves.sinks {room : Nat} {task : Task} {n : Nat} {ids : List TypeId}
    (h : Resolves p room task n w (.ok ids) w') (hw : w.Orderly) (hclosed : w.Closed)
    (hwithin : task.Within w.table.size) (hproper : task.Proper generics)
    (hP : w.Hollow generics P) :
    ∃ P', Grows w.table.size P P' ∧ w'.Hollow generics P' ∧ task.Sinks generics P P' ids := by
  induction h using Resolves.ok_induction generalizing P with
  | nil => exact ⟨P, .refl _ P, hP, .nil⟩
  | next hhead hrest ih ih' =>
    obtain ⟨P₁, hgrows, hP₁, hfirst⟩ := ih hw hclosed hwithin trivial hP
    have hc := hhead.closed hclosed hwithin
    obtain ⟨P₂, hgrows', hP₂, hothers⟩ := ih' (hhead.orderly hw).1 hc.closed
      (hwithin.mono hc.size) trivial hP₁
    refine ⟨P₂, hgrows.trans hgrows' hc.size, hP₂, .cons ?_ ?_⟩
    · rintro e ⟨⟩ hstuck
      exact hgrows'.kept _ (hfirst hstuck _ List.mem_cons_self)
    · refine List.Forall₂.imp (fun x id hx e he hstuck => ?_) hothers
      exact hx e he (hstuck.mono hgrows.kept)
  | built hparts hover _ ih =>
    obtain ⟨P₁, hgrows, hP₁, -⟩ := ih hw hclosed hwithin trivial hP
    exact ⟨P₁, hgrows, hP₁.intern _,
      fun hstuck => absurd hstuck (not_stuck_of_shapeOver hover)⟩
  | index _ _ ih =>
    obtain ⟨P₁, hgrows, hP₁, -⟩ := ih hw hclosed trivial trivial hP
    exact ⟨P₁, hgrows, hP₁, fun hstuck =>
      absurd hstuck (not_stuck (.own fun _ _ => TypeExpr.noConfusion))⟩
  | placed =>
    exact ⟨P, .refl _ P, hP, fun hstuck =>
      absurd hstuck (not_stuck (.own fun _ _ => TypeExpr.noConfusion))⟩
  | bound hs =>
    refine ⟨P, .refl _ P, hP, fun hstuck id hid => ?_⟩
    obtain ⟨param, other, hparam, hother, hPother⟩ := hstuck _ _ (.param ⟨_, hs⟩)
    cases hparam
    cases hs.symm.trans hother
    cases List.mem_singleton.mp hid
    exact hPother
  | declared hs _ _ ih =>
    obtain ⟨P₁, hgrows, hP₁, -⟩ := ih hw hclosed trivial trivial hP
    exact ⟨P₁, hgrows, hP₁, fun hstuck => absurd hstuck (not_stuck (.name (not_bound.mpr hs)))⟩
  | known hs =>
    exact ⟨P, .refl _ P, hP, fun hstuck =>
      absurd hstuck (not_stuck (.name (not_bound.mpr hs)))⟩
  | primitive hs =>
    exact ⟨P, .refl _ P, hP.intern _, fun hstuck =>
      absurd hstuck (not_stuck (.name (not_bound.mpr hs)))⟩
  | applied hg hparts _ ih ih' =>
    obtain ⟨hg, hlength⟩ := genericOf_ok hg
    obtain ⟨P₁, hgrows, hP₁, hargs⟩ := ih hw hclosed hwithin trivial hP
    have hc := hparts.closed hclosed hwithin
    have hcount := List.Forall₂.length_eq hargs
    obtain ⟨P₂, hgrows', hP₂, hinst⟩ := ih' (hparts.orderly hw).1 hc.closed
      (hc.places _ rfl) ⟨hP.known ▸ hg, by simpa [hlength] using hcount⟩ hP₁
    exact ⟨P₂, hgrows.trans hgrows' hc.size, hP₂, fun hstuck => hinst (hstuck.applied hargs)⟩
  | done => exact ⟨P, .refl _ P, hP, trivial⟩
  | again hi hmeet =>
    obtain ⟨-, hinst⟩ := progress_meetAgain hmeet
    have hnotes := Table.SameNotes.meetAgain hmeet
    obtain ⟨-, hsize, -⟩ := closed_meetAgain hclosed (hclosed.underway.definitions _ _ hi) hmeet
    refine ⟨P, .refl _ P, hP.of_eq hinst hnotes.instances hnotes.generics hsize ?_, trivial⟩
    exact fun a ha => (Workspace.aliases_meetAgain hmeet).symm ▸ ha
  | defined hi hbody hu hsettle ih =>
    obtain ⟨P₁, hgrows, hP₁, -⟩ := ih (hw.enterDefinition hi _)
      (hclosed.setProgress _ (by rintro _ ⟨⟩) (by rintro _ _ ⟨⟩ ⟨⟩)) (by rintro _ ⟨⟩) trivial
      (hP.of_eq rfl rfl rfl (Nat.le_refl _) fun _ ha => ha)
    exact ⟨P₁, hgrows, hP₁.finishDefinition hsettle _, trivial⟩
  | cached hid =>
    refine ⟨P, .refl _ P, hP, fun hstuck id hmem => ?_⟩
    cases List.mem_singleton.mp hmem
    exact hP.places _ _ (Workspace.instancePlace_of_done hid) hstuck
  | againInstance _ hkey hmeet =>
    obtain ⟨P', hgrows, hP', hslot⟩ := hP.meetInstance hw hkey hmeet
    refine ⟨P', hgrows, hP', fun hstuck id hmem => ?_⟩
    cases List.mem_singleton.mp hmem
    exact hslot hstuck
  | instantiated hnone hkey hbody hu hsettle ih =>
    have hentered := hw.enterInstance hnone hkey
    have hclosed' := hclosed.enterInstance
    obtain ⟨P₁, hgrows, hP₁, hsinks⟩ := ih (hentered _) (hclosed' _ _) (within_bind hwithin)
      trivial (hP.enterInstance hkey hproper hwithin _)
    have hc := hbody.closed (hclosed' _ _) (within_bind hwithin)
    have hstuck {key : InstanceKey} (hstuck : key.Stuck generics P₁)
        (hargs : ∀ id ∈ key.args, id < _) : key.Stuck generics P := hstuck.of_grows hgrows hargs
    obtain ⟨hP₂, hdone⟩ := hP₁.finishInstance (hbody.orderly (hentered _)).1 hu hsettle
      fun hs => hsinks (hstuck hs hwithin _ hproper) _ List.mem_cons_self
    refine ⟨P₁, hgrows, hP₂, fun hs id hmem => ?_⟩
    cases List.mem_singleton.mp hmem
    exact hdone (hs.mono hgrows.kept)

/-! ## The end -/

/-- Places that lead to each other only are filled by no pass over the aliases. -/
theorem unfilled_fillAliases {t : Table} {aliases : List (TypeId × TypeId)}
    (hnone : ∀ id, P id → t.shape? id = none) (hlinks : ∀ a ∈ aliases, P a.1 → P a.2) :
    ∀ id, P id → (fillAliases t aliases).1.shape? id = none := by
  induction aliases generalizing t with
  | nil => exact hnone
  | cons a rest ih =>
    obtain ⟨slot, target⟩ := a
    obtain ⟨hlink, hlinks⟩ := List.forall_mem_cons.mp hlinks
    unfold fillAliases
    split
    · rename_i s hs
      refine ih (fun id hid => ?_) hlinks
      rw [Table.shape?_fill_ne s, hnone id hid]
      rintro rfl
      cases (hnone target (hlink hid)).symm.trans hs
    · exact ih hnone hlinks

theorem unfilled_fillAll {t t' : Table} {aliases : List (TypeId × TypeId)}
    (hnone : ∀ id, P id → t.shape? id = none) (hlinks : ∀ a ∈ aliases, P a.1 → P a.2)
    (h : fillAll t aliases = .ok t') : ∀ id, P id → t'.shape? id = none := by
  fun_induction fillAll t aliases with
  | case1 t =>
    cases h
    exact hnone
  | case2 => cases h
  | case3 t a rest pass hne ih =>
    exact ih (unfilled_fillAliases hnone hlinks)
      (fun b hb => hlinks b (subset_fillAliases t _ b hb)) h

namespace Workspace

theorem Hollow.links (h : w.Hollow generics P) (hw : w.Orderly) :
    ∀ a ∈ w.aliases, P a.1 → P a.2 := by
  rintro ⟨slot, target⟩ hlink hslot
  obtain ⟨k, hk⟩ := reservedBy_linked hlink
  rcases h.held slot hslot with ⟨key, hkey, -⟩ | ⟨other, hother, hlink'⟩
  · cases hw.reserved.unique _ _ _ hk hkey
  · have hsame := List.inj_on_of_nodup_map hw.pending.nodup hlink hlink' rfl
    cases hsame
    exact hother

/-- When every place has its shape, every instance that is done has a head. -/
theorem Hollow.headed (h : w.Hollow generics P) (hw : w.Orderly) {t : Table}
    (hfill : fillAll w.table w.aliases = .ok t)
    (hshapes : ∀ id, id < t.size → ∃ shape, t.shape? id = some shape) : t.Headed := by
  have hnotes := sameNotes_fillAll hfill
  have hsize := size_fillAll hfill
  have hnone (id : TypeId) : ¬ P id := by
    intro hid
    have hunfilled := unfilled_fillAll (fun id hid => h.unfilled hw hid) (h.links hw) hfill id hid
    have hlt : id < w.table.size := by
      rcases h.held id hid with ⟨key, hkey, -⟩ | ⟨target, -, hlink⟩
      · exact (hw.reserved.unfilled _ id hkey).1
      · exact (hw.pending.unfilled _ hlink).1
    obtain ⟨shape, hshape⟩ := hshapes id (hsize.symm ▸ hlt)
    cases hunfilled.symm.trans hshape
  intro key id hid
  rw [hnotes.instances] at hid
  obtain ⟨⟨g, hproper⟩, hargs⟩ := h.keys key (Or.inr ⟨id, hid⟩)
  refine ⟨⟨g, hnotes.generics.symm ▸ h.known.symm ▸ hproper, ?_⟩, hsize.symm ▸ hargs⟩
  rw [hnotes.generics, h.known]
  by_contra hheaded
  refine hnone id (h.places key id (instancePlace_of_done hid) ?_)
  rintro g' ⟨hg', -⟩ head k hhead
  cases hproper.1.symm.trans hg'
  rw [Generic.bound_bind hproper.2] at hhead
  exact absurd ⟨head, k, hhead⟩ hheaded

/-- In a finished table there are no such places. -/
theorem hollow_of_headed {t : Table} {progress : Array Progress} (h : t.Headed) :
    Hollow t.generics (fun _ => False) { table := t, progress } where
  known := rfl
  keys key hkey := by
    rcases hkey with ⟨u, hu⟩ | ⟨id, hid⟩
    · cases hu
    · obtain ⟨⟨g, hproper, -⟩, hargs⟩ := h key id hid
      exact ⟨⟨g, hproper⟩, hargs⟩
  places key id hid hstuck := by
    have hdone : t.instances.lookup key = some id := by simpa [instancePlace] using hid
    obtain ⟨⟨g, hproper, head, k, hhead⟩, -⟩ := h key id hdone
    rw [← Generic.bound_bind hproper.2] at hhead
    obtain ⟨param, other, -, -, hnone⟩ := hstuck g hproper head k hhead
    exact hnone
  held id hid := hid.elim

end Workspace

/-- Whatever is accepted as a table of definitions has no instance without a head. -/
theorem Table.headed_ofDefinitions {ds : List Definition} {t : Table}
    (h : Table.ofDefinitions ds = .ok t) : t.Headed := by
  obtain ⟨known, w, hall, -, hrun, hfill, hcheck⟩ := ofDefinitions_ok h
  have hof := Declared.of_all hall
  have hstart : (known.start ds).Hollow known.generics fun _ => False := by
    refine ⟨rfl, ?_, ?_, fun _ hid => hid.elim⟩
    · rintro key (⟨u, hu⟩ | ⟨id, hid⟩)
      · cases hu
      · cases hid
    · rintro key id ⟨⟩
  obtain ⟨⟨horderly, -, P, hP⟩, -, -⟩ := resolveAll_keeps
    (P := fun w => w.Orderly ∧ w.Closed ∧ ∃ P, w.Hollow known.generics P)
    (fun i w ids w' hw _ hdef => by
      obtain ⟨hw, hclosed, P, hP⟩ := hw
      obtain ⟨P', -, hP', -⟩ := hdef.sinks hw hclosed trivial trivial hP
      exact ⟨(hdef.orderly hw).1, (hdef.closed hclosed trivial).closed, P', hP'⟩)
    (waiting_start hof) (idle_start hof)
    ⟨orderly_start hof, Typewire.closed_start hof, _, hstart⟩ hrun
  exact hP.headed horderly hfill fun id => shapes_of_check hcheck

/-- No instance without a head comes to a finished table with a type that is taken up later. -/
theorem Table.ClosedWorld.headed_extend {t t' : Table} {e : TypeExpr} {id : TypeId}
    (ht : t.ClosedWorld) (hheaded : t.Headed) (h : t.extend e = (.ok id, t')) : t'.Headed := by
  rcases extend_cases t e with ⟨id', u, hid, hfill, hcheck, hext⟩ | ⟨x, hext⟩
  · cases hext.symm.trans h
    have hrun := resolves_resolving t e
    rw [hid] at hrun
    have hclosed := Table.closed_start ht.closed
    obtain ⟨P, -, hP, -⟩ := hrun.sinks ht.orderly hclosed (by rintro b ⟨⟩) trivial
      (Workspace.hollow_of_headed hheaded)
    have hworld := ht.extend e
    rw [h] at hworld
    exact hP.headed (hrun.orderly ht.orderly).1 hfill fun id hid => hworld.filled hid
  · cases hext.symm.trans h

end Typewire
