-- The way down from an instance to what stands at its head. While instances are underway their
-- places have no shape, but from each place one comes along the heads of bodies to the head of the
-- type in a number of steps that is known beforehand. No place is met twice on the way, so no
-- instance comes to itself, and in the end every place that was reserved is filled.
import Typewire.Proofs.Shape.Headless
import Typewire.Proofs.Shape.Promises

namespace Typewire

open Typewire.Language Resolving

variable {generics : List (String × Generic)} {w w' : Workspace}

/-! ## Heads of instances -/

/-- The body of the instance comes in so many steps to its head: the place for a parameter, or a
type of its own where there is none. -/
def InstanceKey.HeadsTo (generics : List (String × Generic)) (key : InstanceKey)
    (target : Option TypeId) (m : Nat) : Prop :=
  ∃ g head, key.Proper generics g ∧ Heads generics g.binds g.body head m ∧
    target = head.bind (g.argument key.args)

namespace InstanceKey.HeadsTo

variable {key : InstanceKey} {target target' : Option TypeId} {m m' : Nat}

theorem unique (h : key.HeadsTo generics target m) (h' : key.HeadsTo generics target' m') :
    target = target' ∧ m = m' := by
  obtain ⟨g, head, hg, hhead, rfl⟩ := h
  obtain ⟨g', head', hg', hhead', rfl⟩ := h'
  cases hg.1.symm.trans hg'.1
  obtain ⟨rfl, rfl⟩ := hhead.unique hhead'
  exact ⟨rfl, rfl⟩

theorem mem_args {id : TypeId} (h : key.HeadsTo generics (some id) m) : id ∈ key.args := by
  obtain ⟨g, head, -, -, hid⟩ := h
  obtain ⟨param, -, hparam⟩ := Option.bind_eq_some_iff.mp hid.symm
  exact (Generic.mem_of_argument hparam).2

end InstanceKey.HeadsTo

theorem InstanceKey.Proper.headsTo {key : InstanceKey} {g : Generic}
    (h : key.Proper generics g) (hheaded : g.Headed generics) :
    ∃ target m, key.HeadsTo generics target m := by
  obtain ⟨head, m, hhead⟩ := hheaded
  exact ⟨_, m, g, head, h, hhead, rfl⟩

namespace Workspace

theorem mem_aliases_settle {u : Underway} {id id' : TypeId} {label : String}
    (h : outcome (settle u id label) w = (.ok id', w')) {a : TypeId × TypeId}
    (ha : a ∈ w'.aliases) : a ∈ w.aliases ∨ (u.reserved = some id' ∧ a.1 = id') := by
  rcases settle_ok h with ⟨-, -, rfl⟩ | ⟨-, -, s, -, rfl⟩ | ⟨hslot, rfl⟩
  · exact Or.inl ha
  · exact Or.inl ha
  · rcases List.mem_append.mp ha with ha | ha
    · exact Or.inl ha
    · cases List.mem_singleton.mp ha
      exact Or.inr ⟨hslot, rfl⟩

/-! ## Ways down -/

/-- From the place one comes to the goal, or to a place that has a shape, along the heads of
instances and in fewer steps than that. -/
inductive Drops (w : Workspace) (goal : Option TypeId) : Option TypeId → Nat → Prop where
  | here {k} : Drops w goal goal k
  | shaped {id s k} : w.table.shape? id = some s → Drops w goal (some id) k
  | link {id key target m l k} : w.instancePlace key = some id →
    key.HeadsTo w.table.generics target m → Drops w goal target l → m + l < k →
    Drops w goal (some id) k

namespace Drops

variable {goal mid x : Option TypeId} {k l : Nat}

theorem mono (h : w.Drops goal x k) (hle : k ≤ l) : w.Drops goal x l := by
  cases h with
  | here => exact .here
  | shaped hs => exact .shaped hs
  | link hkey hhead hrest hlt => exact .link hkey hhead hrest (Nat.lt_of_lt_of_le hlt hle)

theorem trans (h : w.Drops mid x k) (h' : w.Drops goal mid l) : w.Drops goal x (k + l) := by
  induction h with
  | here => exact h'.mono (Nat.le_add_left _ _)
  | shaped hs => exact .shaped hs
  | link hkey hhead _ hlt ih => exact .link hkey hhead ih (by omega)

theorem of_refines (h : w.Drops goal x k) (hw : w.Refines w') : w'.Drops goal x k := by
  induction h with
  | here => exact .here
  | shaped hs => exact .shaped (hw.shapes _ _ hs)
  | link hkey hhead _ hlt ih =>
    exact .link (hw.instances _ _ hkey) (hw.generics ▸ hhead) ih hlt

end Drops

/-- From the place one comes down to the goal, by way of an alias where the place is one. -/
def Comes (w : Workspace) (goal : Option TypeId) (id : TypeId) (k : Nat) : Prop :=
  w.Drops goal (some id) k ∨ ∃ other, (id, other) ∈ w.aliases ∧ w.Drops goal (some other) k

theorem Comes.of_refines {goal : Option TypeId} {id : TypeId} {k : Nat} (h : w.Comes goal id k)
    (hw : w.Refines w') : w'.Comes goal id k := by
  rcases h with hdrops | ⟨other, hlink, hdrops⟩
  · exact Or.inl (hdrops.of_refines hw)
  · exact Or.inr ⟨other, hw.aliases _ hlink, hdrops.of_refines hw⟩

/-- Every instance has a head and is older than its place, and from the place of one that is done
one comes down to what heads it. -/
structure Descends (w : Workspace) : Prop where
  keys : ∀ key, w.Knows key → (∃ target m, key.HeadsTo w.table.generics target m) ∧
    ∀ arg ∈ key.args, arg < w.table.size
  older : ∀ key slot, w.reservedBy (.generic key) = some slot → ∀ arg ∈ key.args, arg < slot
  done : ∀ key id target m, w.table.instances.lookup key = some id →
    key.HeadsTo w.table.generics target m → w.Comes target id m
  linked : ∀ a ∈ w.aliases, ∃ key, w.instancePlace key = some a.1 ∧ ∀ arg ∈ key.args, arg < a.1

namespace Descends

/-- A place that is reserved for an instance is not met on the way down from its body. -/
theorem not_drops_slot (h : w.Descends) (hw : w.Orderly) {key : InstanceKey} {slot : TypeId}
    (hslot : w.reservedBy (.generic key) = some slot) {target : Option TypeId} {m : Nat}
    (hhead : key.HeadsTo w.table.generics target m) : ¬ w.Drops target (some slot) m := by
  obtain ⟨-, hnone⟩ := hw.reserved.unfilled _ slot hslot
  suffices ∀ k ≤ m, ¬ w.Drops target (some slot) k from this m (Nat.le_refl m)
  intro k
  induction k using Nat.strongRecOn with
  | ind k ih =>
  intro hk hdrops
  generalize hx : some slot = x at hdrops
  cases hdrops with
  | here =>
    subst hx
    exact Nat.lt_irrefl slot (h.older key slot hslot slot hhead.mem_args)
  | shaped hs =>
    cases hx
    cases hnone.symm.trans hs
  | @link _ other mid m' l _ hplace hmid hrest hlt =>
    cases hx
    cases hdone : w.table.instances.lookup other with
    | none =>
      -- The instance is the one that the place is reserved for, and its head is farther down.
      rw [instancePlace, hdone, Option.none_or] at hplace
      cases hw.reserved.unique (.generic other) (.generic key) slot hplace hslot
      obtain ⟨-, rfl⟩ := hhead.unique hmid
      omega
    | some id =>
      cases (instancePlace_of_done hdone).symm.trans hplace
      rcases h.done other slot mid m' hdone hmid with hdrops | ⟨next, hlink, -⟩
      · exact ih (m' + l) hlt (by omega) (hdrops.trans hrest)
      · obtain ⟨n, hn⟩ := reservedBy_linked hlink
        cases hw.reserved.unique _ _ slot hn hslot

/-- A body that comes down to its head can be settled. -/
theorem settles (h : w.Descends) (hw : w.Orderly) {key : InstanceKey} {u : Underway}
    {id : TypeId} {target : Option TypeId} {m : Nat} (hkey : w.instances.lookup key = some u)
    (hhead : key.HeadsTo w.table.generics target m) (hid : w.Drops target (some id) m)
    {label : String} {x : ResolveError} :
    outcome (settle u id label) (w.leaveInstance key) ≠ (.error x, w') := by
  intro hsettle
  have hheld : w.reservedBy (.generic key) = u.reserved := by
    rw [reservedBy, hkey]
    rfl
  rcases settle_cases u id label (w.leaveInstance key) with
    ⟨-, ho⟩ | ⟨slot, hslot, ⟨rfl, -⟩ | ⟨_, -, -, ho⟩ | ⟨-, -, ho⟩⟩
  · cases ho.symm.trans hsettle
  · exact h.not_drops_slot hw (hheld.trans hslot) hhead hid
  · cases ho.symm.trans hsettle
  · cases ho.symm.trans hsettle

/-! ## Steps -/

/-- What touches no instance leaves the ways down as they are. -/
theorem of_eq (h : w.Descends) (hw : w.Refines w') (hinst : w'.instances = w.instances)
    (hdone : w'.table.instances = w.table.instances) (hsize : w.table.size ≤ w'.table.size)
    (haliases : w'.aliases = w.aliases) : w'.Descends where
  keys key hkey := by
    unfold Knows at hkey
    rw [hinst, hdone] at hkey
    obtain ⟨hhead, hargs⟩ := h.keys key hkey
    exact ⟨hw.generics.symm ▸ hhead, fun arg harg => Nat.lt_of_lt_of_le (hargs arg harg) hsize⟩
  older key slot hslot := by
    rw [reservedBy, hinst] at hslot
    exact h.older key slot hslot
  done key id target m hid hhead := by
    rw [hdone] at hid
    rw [hw.generics] at hhead
    exact (h.done key id target m hid hhead).of_refines hw
  linked a ha := by
    obtain ⟨key, hkey, hargs⟩ := h.linked a (haliases ▸ ha)
    exact ⟨key, hw.instances _ _ hkey, hargs⟩

theorem intern (h : w.Descends) (s : Shape) : (w.intern s).Descends :=
  h.of_eq (.of_shapes (fun _ _ hs => Table.shape?_intern s hs) rfl rfl rfl
    (Table.SameNotes.intern s).instances (Table.SameNotes.intern s).generics) rfl
    (Table.SameNotes.intern s).instances (Table.size_le_intern _ _) rfl

theorem enterInstance (h : w.Descends) {key : InstanceKey} {target : Option TypeId} {m : Nat}
    (hkey : w.instances.lookup key = none) (hhead : key.HeadsTo w.table.generics target m)
    (hargs : ∀ arg ∈ key.args, arg < w.table.size) (n : Nat) :
    (w.enterInstance key n).Descends := by
  have hrefines : w.Refines (w.enterInstance key n) := .enterInstance hkey
  constructor
  case keys =>
    intro other hother
    by_cases hsame : other = key
    · rw [hsame]
      exact ⟨⟨target, m, hhead⟩, hargs⟩
    · exact h.keys other (knows_of_enterInstance hother hsame)
  case older =>
    intro other slot hslot
    have hsame : other ≠ key := by
      rintro rfl
      simp [reservedBy, Workspace.enterInstance] at hslot
    rw [reservedBy, lookup_enterInstance_ne hsame] at hslot
    exact h.older other slot hslot
  case done =>
    intro other id target' m' hid hhead'
    exact (h.done other id target' m' hid hhead').of_refines hrefines
  case linked =>
    intro a ha
    obtain ⟨other, hother, hargs⟩ := h.linked a ha
    exact ⟨other, hrefines.instances _ _ hother, hargs⟩

theorem meetInstance (h : w.Descends) {key : InstanceKey} {n : Nat} {u u' : Underway}
    {slot : TypeId} {label : String} {reservedLabel : Option String}
    (hkey : w.instances.lookup key = some u)
    (hmeet : outcome (meetAgain u n label reservedLabel) w = (.ok (slot, u'), w'))
    (hw : w.Refines (w'.setInstance key u')) : (w'.setInstance key u').Descends := by
  have hnotes := Table.SameNotes.meetAgain hmeet
  have hsize := size_le_meetAgain hmeet
  have haliases := aliases_meetAgain hmeet
  constructor
  case keys =>
    intro other hother
    obtain ⟨hhead, hargs⟩ := h.keys other (knows_of_meetInstance hkey hmeet hother)
    exact ⟨hw.generics.symm ▸ hhead, fun arg harg => Nat.lt_of_lt_of_le (hargs arg harg) hsize⟩
  case older =>
    intro other place hplace arg harg
    by_cases hsame : other = key
    · subst hsame
      rw [(reservedBy_setInstance other u').1, (underway_meetAgain hmeet).2] at hplace
      cases hplace
      rcases slot_meetAgain hmeet with hslot | hle
      · refine h.older other slot ?_ arg harg
        rw [reservedBy, hkey]
        exact hslot
      · exact Nat.lt_of_lt_of_le ((h.keys other (Or.inl ⟨u, hkey⟩)).2 arg harg) hle
    · rw [reservedBy, lookup_meetInstance_ne hmeet hsame] at hplace
      exact h.older other place hplace arg harg
  case done =>
    intro other id target m hid hhead
    have hid : w.table.instances.lookup other = some id := hnotes.instances ▸ hid
    rw [hw.generics] at hhead
    exact (h.done other id target m hid hhead).of_refines hw
  case linked =>
    intro a ha
    obtain ⟨other, hother, hargs⟩ := h.linked a (haliases ▸ ha)
    exact ⟨other, hw.instances _ _ hother, hargs⟩

/-- Where the body of an instance comes down to its head, the place where it settles does. -/
theorem finishInstance (h : w.Descends) (horderly : w.Orderly) {key : InstanceKey} {u : Underway}
    {id id' : TypeId} {label label' : String} (hkey : w.instances.lookup key = some u)
    (hsettle : outcome (settle u id label) (w.leaveInstance key) = (.ok id', w'))
    (hid : ∀ target m, key.HeadsTo w.table.generics target m → w.Drops target (some id) m) :
    (w'.finishInstance key label' id').Descends := by
  have hw : w.Refines (w'.finishInstance key label' id') :=
    refines_finishInstance horderly hkey hsettle
  have hheld : w.reservedBy (.generic key) = u.reserved := by
    rw [reservedBy, hkey]
    rfl
  have hinstances := (notes_finishInstance w' key label' id').2.2.2.2
  have hslots := slots_finishInstance w' key label' id'
  have hself : (w'.finishInstance key label' id').table.instances.lookup key = some id' := by
    rw [hinstances]
    exact List.lookup_cons_self
  constructor
  case keys =>
    intro other hother
    obtain ⟨hhead, hargs⟩ := h.keys other (knows_of_finishInstance hkey hsettle hother)
    refine ⟨hw.generics.symm ▸ hhead, fun arg harg => Nat.lt_of_lt_of_le (hargs arg harg) ?_⟩
    rw [size_finishInstance]
    exact size_le_settle (w := w.leaveInstance key) hsettle
  case older =>
    intro other place hplace
    have hsame : other ≠ key := by
      rintro rfl
      have hleft : (w'.finishInstance other label' id').instances.lookup other = none := by
        change w'.instances.lookup other = none
        rw [(progress_settle hsettle).2]
        exact lookup_filter_self other w.instances
      rw [reservedBy, hleft] at hplace
      cases hplace
    rw [reservedBy, lookup_finishInstance_ne hsettle hsame] at hplace
    exact h.older other place hplace
  case done =>
    intro other place target m hplace hhead
    rw [hw.generics] at hhead
    by_cases hsame : other = key
    · subst hsame
      cases hself.symm.trans hplace
      have hdrops := (hid target m hhead).of_refines hw
      rcases settle_ok hsettle with ⟨-, rfl, -⟩ | ⟨hslot, -, s, -, rfl⟩ | ⟨-, rfl⟩
      · exact Or.inl hdrops
      · have hlt := (horderly.reserved.unfilled _ id' (hheld.trans hslot)).1
        exact Or.inl (.shaped ((Table.shape?_congr hslots id').trans
          (Table.shape?_fill_self s hlt)))
      · exact Or.inr ⟨id, List.mem_append_right _ List.mem_cons_self, hdrops⟩
    · rw [lookup_done_finishInstance_ne hsettle hsame] at hplace
      exact (h.done other place target m hplace hhead).of_refines hw
  case linked =>
    intro a ha
    rcases mem_aliases_settle hsettle ha with ha | ⟨hslot, hplace⟩
    · obtain ⟨other, hother, hargs⟩ := h.linked a ha
      exact ⟨other, hw.instances _ _ hother, hargs⟩
    · rw [hplace]
      exact ⟨key, instancePlace_of_done hself, h.older key id' (hheld.trans hslot)⟩

/-! ## The end -/

/-- When nothing is underway one comes from every place down to a shape. -/
theorem drops_none (h : w.Descends) (hw : w.Orderly) (hidle : w.Idle) (id : TypeId)
    (hid : id < w.table.size) : ∃ k, w.Drops none (some id) k := by
  induction id using Nat.strongRecOn with
  | ind id ih =>
  cases hs : w.table.shape? id with
  | some s => exact ⟨0, .shaped hs⟩
  | none =>
    obtain ⟨holder, hheld⟩ := hw.reserved.held id hid hs
    obtain ⟨a, ha, rfl⟩ := hidle.linked hheld
    obtain ⟨key, hkey, hargs⟩ := h.linked a ha
    obtain ⟨⟨target, m, hhead⟩, -⟩ := h.keys key (knows_of_instancePlace hkey)
    cases target with
    | none => exact ⟨m + 1, .link hkey hhead (.here (k := 0)) (Nat.lt_succ_self m)⟩
    | some arg =>
      have hlt := hargs arg hhead.mem_args
      obtain ⟨l, hl⟩ := ih arg hlt (Nat.lt_trans hlt hid)
      exact ⟨m + l + 1, .link hkey hhead hl (Nat.lt_succ_self _)⟩

/-- When nothing is underway the aliases lead from every place to a shape. -/
theorem leads (h : w.Descends) (hw : w.Orderly) (hidle : w.Idle) {id : TypeId}
    (hid : id < w.table.size) : Leads w.table w.aliases id := by
  obtain ⟨k, hk⟩ := h.drops_none hw hidle id hid
  clear hid
  induction k using Nat.strongRecOn generalizing id with
  | ind k ih =>
  cases hk with
  | shaped hs => exact .filled hs
  | @link _ key target m l _ hkey hhead hrest hlt =>
    have hdone := hidle.instancePlace hkey
    rcases h.done key id target m hdone hhead with hdrops | ⟨other, hlink, hdrops⟩
    · exact ih (m + l) hlt (hdrops.trans hrest)
    · exact .next hlink (ih (m + l) hlt (hdrops.trans hrest))

end Descends

end Workspace

end Typewire
