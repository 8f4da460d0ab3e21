-- What a resolution that fails leaves behind. Undoing takes back every new place and all that
-- leads to it. What stays are the generic instances that came to places known before.
import Typewire.Proofs.Shape.Aliases

namespace Typewire

open Typewire.Language Resolving

/-! ## Notes -/

/-- A generic instance that came to a place, with the label that it has for the place. -/
structure Note where
  key : InstanceKey
  id : TypeId
  label : String
  deriving DecidableEq, Repr

namespace Table

/-- The table in which a generic instance came to a place. -/
def note (t : Table) (n : Note) : Table :=
  { t with instances := (n.key, n.id) :: t.instances }.setLabel n.id n.label

/-- The table with some notes, of which the first is the latest. -/
def noteAll (t : Table) (notes : List Note) : Table := notes.foldr (fun n t => t.note n) t

variable {t : Table} {mark : Nat}

/-! ## Undoing one change -/

theorem getElem?_take {α : Type} (xs : Array α) (i : Nat) :
    (xs.take mark)[i]? = if i < mark then xs[i]? else none := by
  rw [Array.take_eq_extract, Array.getElem?_extract]
  by_cases hi : i < mark
  · rw [if_pos hi]
    split
    · rw [Nat.zero_add]
    · rw [Array.getElem?_eq_none (by omega)]
  · rw [if_neg hi, if_neg (by omega)]

theorem take_push {α : Type} {xs : Array α} {x : α} (h : mark ≤ xs.size) :
    (xs.push x).take mark = xs.take mark := by
  apply Array.ext_getElem?
  intro i
  rw [getElem?_take, getElem?_take]
  split
  · rw [Array.getElem?_push, if_neg (by omega)]
  · rfl

theorem take_setIfInBounds {α : Type} {xs : Array α} {x : α} {i : Nat} (h : mark ≤ i) :
    (xs.setIfInBounds i x).take mark = xs.take mark := by
  apply Array.ext_getElem?
  intro j
  rw [getElem?_take, getElem?_take]
  split
  · rw [Array.getElem?_setIfInBounds_ne (by omega)]
  · rfl

theorem rollback_push (o : Option Shape) (h : mark ≤ t.size) :
    { t with slots := t.slots.push o }.rollback mark = t.rollback mark := by
  simp only [rollback, take_push h]

theorem rollback_intern (s : Shape) (h : mark ≤ t.size) :
    (t.intern s).2.rollback mark = t.rollback mark := by
  rcases intern_cases t s with ⟨id, -, hi⟩ | ⟨-, hi⟩
  · rw [hi]
  · rw [hi]
    simp only [rollback, take_push h]
    rw [List.filter_cons_of_neg (by simpa using h)]

theorem rollback_fill {id : TypeId} (s : Shape) (h : mark ≤ id) :
    (t.fill id s).rollback mark = t.rollback mark := by
  simp only [rollback, fill, take_setIfInBounds h]
  split
  · rfl
  · rw [List.filter_cons_of_neg (by simpa using h)]

theorem rollback_setLabel_new {id : TypeId} (label : String) (h : mark ≤ id) :
    (t.setLabel id label).rollback mark = t.rollback mark := by
  rcases setLabel_cases t id label with hl | hl
  · rw [hl]
  · rw [hl]
    simp only [rollback]
    rw [List.filter_cons_of_neg (by simpa using h)]

theorem shape?_rollback {id : TypeId} (h : id < mark) :
    (t.rollback mark).shape? id = t.shape? id := by
  unfold shape? rollback
  rw [getElem?_take, if_pos h]

/-- A known place is labelled after undoing as it is before. -/
theorem rollback_setLabel_old {id : TypeId} (label : String) (h : id < mark) :
    (t.setLabel id label).rollback mark = (t.rollback mark).setLabel id label := by
  have hshared : (t.rollback mark).shared.contains id = t.shared.contains id := by
    simp [rollback, h]
  have hlabels : (t.rollback mark).labels.lookup id = t.labels.lookup id :=
    lookup_filter_of_pos (· < mark) (by simpa using h)
  unfold setLabel
  rw [hshared, shape?_rollback h, hlabels]
  split
  · rfl
  · simp only [rollback]
    rw [List.filter_cons_of_pos (by simpa using h)]

theorem rollback_note (n : Note) :
    (t.note n).rollback mark
      = if n.id < mark then (t.rollback mark).note n else t.rollback mark := by
  unfold note
  split
  · rename_i h
    rw [rollback_setLabel_old n.label h]
    simp only [rollback]
    rw [List.filter_cons_of_pos (by simpa using h)]
  · rename_i h
    rw [rollback_setLabel_new n.label (Nat.le_of_not_lt h)]
    simp only [rollback]
    rw [List.filter_cons_of_neg (by simpa using h)]

/-- A table that speaks of its own places only has nothing to take back. -/
theorem rollback_size (h : t.Closed) : t.rollback t.size = t := by
  have hslots : t.slots.take t.size = t.slots := by simp [size]
  simp only [rollback, hslots]
  rw [List.filter_eq_self.mpr (by simpa using h.interned),
    List.filter_eq_self.mpr (by simpa using h.labels),
    List.filter_eq_self.mpr (by simpa using h.shared),
    List.filter_eq_self.mpr (by simpa using h.instances),
    List.filter_eq_self.mpr (by simpa using h.expressions)]

theorem slots_noteAll (t : Table) (notes : List Note) : (t.noteAll notes).slots = t.slots := by
  induction notes with
  | nil => rfl
  | cons n notes ih => exact (slots_setLabel n.id n.label).trans ih

theorem interned_noteAll (t : Table) (notes : List Note) :
    (t.noteAll notes).interned = t.interned := by
  induction notes with
  | nil => rfl
  | cons n notes ih => exact (interned_setLabel n.id n.label).trans ih

theorem instances_noteAll (t : Table) (notes : List Note) :
    (t.noteAll notes).instances = notes.map (fun n => (n.key, n.id)) ++ t.instances := by
  induction notes with
  | nil => rfl
  | cons n notes ih =>
    refine (instances_setLabel n.id n.label).trans ?_
    change (n.key, n.id) :: (t.noteAll notes).instances = _
    rw [ih]
    rfl

theorem expressions_noteAll (t : Table) (notes : List Note) :
    (t.noteAll notes).expressions = t.expressions := by
  induction notes with
  | nil => rfl
  | cons n notes ih => exact (expressions_setLabel n.id n.label).trans ih

theorem size_noteAll (t : Table) (notes : List Note) : (t.noteAll notes).size = t.size :=
  congrArg Array.size (slots_noteAll t notes)

/-- Notes at known places leave a table closed. -/
theorem closed_noteAll {notes : List Note} (h : t.Closed) (hnotes : ∀ n ∈ notes, n.id < t.size) :
    (t.noteAll notes).Closed := by
  induction notes with
  | nil => exact h
  | cons n notes ih =>
    obtain ⟨hn, hrest⟩ := List.forall_mem_cons.mp hnotes
    have hid : n.id < (t.noteAll notes).size := Nat.lt_of_lt_of_eq hn (size_noteAll t notes).symm
    exact ((ih hrest).withInstance hid).setLabel n.label hid

end Table

/-! ## Resolving in a finished table -/

/-- The workspace came from a table by resolving types in it: it has new places only, and
undoing leaves of it the instances that came to places of the table. -/
structure Workspace.Since (t : Table) (w : Workspace) : Prop where
  progress : w.progress = #[]
  size : t.size ≤ w.table.size
  underway : w.AllUnderway fun u => ∀ slot, u.reserved = some slot → t.size ≤ slot
  aliases : ∀ a ∈ w.aliases, t.size ≤ a.1
  notes : ∃ notes : List Note,
    w.table.instances = notes.map (fun n => (n.key, n.id)) ++ t.instances ∧
    w.table.rollback t.size = t.noteAll (notes.filter (·.id < t.size)) ∧
    ∀ n ∈ notes, t.instances.lookup n.key = none

namespace Workspace.Since

variable {t : Table} {w w' : Workspace}

theorem start (h : t.Closed) : Since t { table := t } where
  progress := rfl
  size := Nat.le_refl _
  underway := ⟨fun _ _ hi => by simp [Workspace.progressAt] at hi, fun _ _ hu => by cases hu⟩
  aliases _ ha := by cases ha
  notes := ⟨[], rfl, Table.rollback_size h, by simp⟩

theorem progressAt (h : w.Since t) (i : Nat) : w.progressAt i = .generic := by
  unfold Workspace.progressAt
  rw [h.progress]
  simp

/-- A change to the table that undoing takes back. -/
theorem withTable (h : w.Since t) {u : Table} (hsize : w.table.size ≤ u.size)
    (hinstances : u.instances = w.table.instances)
    (hundone : u.rollback t.size = w.table.rollback t.size) :
    Since t { w with table := u } where
  progress := h.progress
  size := Nat.le_trans h.size hsize
  underway := h.underway.of_eq rfl rfl
  aliases := h.aliases
  notes := by
    obtain ⟨notes, hnotes, hrollback, hnew⟩ := h.notes
    exact ⟨notes, hinstances.trans hnotes, hundone.trans hrollback, hnew⟩

theorem intern (h : w.Since t) (s : Shape) : (w.intern s).Since t := by
  refine h.withTable (Table.size_le_intern _ _) ?_ (Table.rollback_intern s h.size)
  rcases Table.intern_cases w.table s with ⟨id, -, hi⟩ | ⟨-, hi⟩ <;> rw [hi]

theorem reserve (h : w.Since t) (label : Option String) : (w.reserve label).Since t := by
  have hsize : w.table.size ≤ (w.reserve label).table.size := by
    rw [size_reserve]
    exact Nat.le_succ _
  have hpush := Table.rollback_push none h.size
  cases label with
  | none => exact h.withTable hsize rfl hpush
  | some l =>
    exact h.withTable hsize (Table.instances_setLabel _ l)
      ((Table.rollback_setLabel_new l h.size).trans hpush)

theorem meetAgain (h : w.Since t) {u : Underway} {n : Nat} {label : String}
    {reservedLabel : Option String} {r}
    (ho : outcome (meetAgain u n label reservedLabel) w = (r, w')) :
    w'.Since t ∧ (∀ slot u', r = .ok (slot, u') →
      (∀ slot, u.reserved = some slot → t.size ≤ slot) → t.size ≤ slot) := by
  rcases meetAgain_cases u n label reservedLabel w with
    ⟨-, hm⟩ | ⟨-, slot, hslot, hm⟩ | ⟨-, -, hm⟩
  · cases hm.symm.trans ho
    exact ⟨h, by rintro _ _ ⟨⟩⟩
  · cases hm.symm.trans ho
    refine ⟨h, ?_⟩
    rintro _ _ ⟨⟩ hu
    exact hu slot hslot
  · cases hm.symm.trans ho
    refine ⟨h.reserve reservedLabel, ?_⟩
    rintro _ _ ⟨⟩ -
    exact h.size

theorem settle (h : w.Since t) {u : Underway} {id : TypeId} {label : String} {r}
    (hu : ∀ slot, u.reserved = some slot → t.size ≤ slot)
    (ho : outcome (settle u id label) w = (r, w')) : w'.Since t := by
  rcases settle_cases u id label w with
    ⟨-, hm⟩ | ⟨slot, hslot, ⟨-, hm⟩ | ⟨s, -, -, hm⟩ | ⟨-, -, hm⟩⟩
  · cases hm.symm.trans ho
    exact h
  · cases hm.symm.trans ho
    exact h
  · cases hm.symm.trans ho
    exact h.withTable (Nat.le_of_eq (Table.size_fill slot s).symm) rfl
      (Table.rollback_fill s (hu slot hslot))
  · cases hm.symm.trans ho
    refine { h with underway := h.underway.of_eq rfl rfl, aliases := ?_ }
    intro a ha
    rcases List.mem_append.mp ha with ha | ha
    · exact h.aliases a ha
    · cases List.mem_singleton.mp ha
      exact hu slot hslot

theorem setInstance (h : w.Since t) (key : InstanceKey) {u : Underway}
    (hu : ∀ slot, u.reserved = some slot → t.size ≤ slot) : (w.setInstance key u).Since t :=
  { h with underway := h.underway.setInstance key hu }

theorem enterInstance (h : w.Since t) (key : InstanceKey) (n : Nat) :
    (w.enterInstance key n).Since t :=
  { h with underway := h.underway.enterInstance key (by rintro _ ⟨⟩) }

theorem leaveInstance (h : w.Since t) (key : InstanceKey) : (w.leaveInstance key).Since t :=
  { h with underway := h.underway.leaveInstance key }

theorem lookup_none (h : w.Since t) {key : InstanceKey}
    (hkey : w.table.instances.lookup key = none) : t.instances.lookup key = none := by
  obtain ⟨notes, hnotes, -, -⟩ := h.notes
  rw [hnotes, List.lookup_append, Option.or_eq_none_iff] at hkey
  exact hkey.2

theorem finishInstance (h : w.Since t) {key : InstanceKey} (label : String) (id : TypeId)
    (hkey : t.instances.lookup key = none) : (w.finishInstance key label id).Since t where
  progress := h.progress
  size := by
    rw [size_finishInstance]
    exact h.size
  underway := h.underway.of_eq rfl rfl
  aliases := h.aliases
  notes := by
    obtain ⟨notes, hnotes, hrollback, hnew⟩ := h.notes
    refine ⟨⟨key, id, label⟩ :: notes, ?_, ?_, ?_⟩
    · refine (Table.instances_setLabel id label).trans ?_
      rw [hnotes]
      rfl
    · change (w.table.note ⟨key, id, label⟩).rollback t.size = _
      rw [Table.rollback_note, hrollback]
      by_cases hid : id < t.size
      · rw [if_pos hid, List.filter_cons_of_pos (by simpa using hid)]
        rfl
      · rw [if_neg hid, List.filter_cons_of_neg (by simpa using hid)]
    · exact List.forall_mem_cons.mpr ⟨hkey, hnew⟩

end Workspace.Since

/-- Resolving in a finished table stays since that table, also where it fails. -/
theorem Resolves.since {p : Program} {room : Nat} {task : Task} {n : Nat} {w w' : Workspace}
    {r : Except ResolveError (List TypeId)} {t : Table} (h : Resolves p room task n w r w')
    (hw : w.Since t) : w'.Since t := by
  induction h with
  | nil | fault | placed | bound | known | unknown | refused | tooDeep | done | bare | cached =>
    exact hw
  | stop _ ih | unbuilt _ ih | unsound _ _ _ ih | index _ _ ih | declared _ _ _ ih
  | unapplied _ _ ih => exact ih hw
  | next _ _ ih ih' | applied _ _ _ ih ih' => exact ih' (ih hw)
  | built _ _ _ ih => exact (ih hw).intern _
  | primitive => exact hw.intern _
  | flat hi | again hi | failed hi | endless hi | defined hi =>
    cases (hw.progressAt _).symm.trans hi
  | flatInstance _ _ hmeet => exact (hw.meetAgain hmeet).1
  | againInstance _ hkey hmeet =>
    obtain ⟨hs, hslot⟩ := hw.meetAgain hmeet
    refine hs.setInstance _ ?_
    intro slot hreserved
    cases (underway_meetAgain hmeet).2.symm.trans hreserved
    exact hslot _ _ rfl (hw.underway.instances _ _ hkey)
  | failedInstance _ _ _ ih => exact (ih (hw.enterInstance _ _)).leaveInstance _
  | endlessInstance _ _ _ hu hsettle ih =>
    have hs := ih (hw.enterInstance _ _)
    exact (hs.leaveInstance _).settle (hs.underway.instances _ _ hu) hsettle
  | instantiated hcached _ _ hu hsettle ih =>
    have hs := ih (hw.enterInstance _ _)
    exact ((hs.leaveInstance _).settle (hs.underway.instances _ _ hu) hsettle).finishInstance _ _
      (hw.lookup_none hcached)

end Typewire
