-- What stays in order while types are resolved. Every reserved place has its holder, shapes are
-- found where they stand, and a generic instance is underway or done, but never both.
import Typewire.Proofs.Shape.Aliases
import Typewire.Proofs.Shape.Reserved

namespace Typewire

open Typewire.Language Resolving

/-! ## Notes of a table -/

/-- Two tables have the same definitions, names, generic instances and known texts. -/
structure Table.SameNotes (t t' : Table) : Prop where
  positions : t'.positions = t.positions
  names : t'.names = t.names
  instances : t'.instances = t.instances
  generics : t'.generics = t.generics
  expressions : t'.expressions = t.expressions

namespace Table.SameNotes

variable {t : Table}

theorem refl (t : Table) : t.SameNotes t := ⟨rfl, rfl, rfl, rfl, rfl⟩

theorem setLabel {t' : Table} (h : t.SameNotes t') (id : TypeId) (label : String) :
    t.SameNotes (t'.setLabel id label) := by
  rcases setLabel_cases t' id label with ht | ht
  · rw [ht]
    exact h
  · rw [ht]
    exact ⟨h.positions, h.names, h.instances, h.generics, h.expressions⟩

theorem intern (s : Shape) : t.SameNotes (t.intern s).2 := by
  rcases intern_cases t s with ⟨id, -, ht⟩ | ⟨-, ht⟩
  · rw [ht]
    exact refl t
  · rw [ht]
    exact ⟨rfl, rfl, rfl, rfl, rfl⟩

theorem meetAgain {u u' : Underway} {n : Nat} {label : String} {reservedLabel : Option String}
    {w w' : Workspace} {slot : TypeId}
    (h : outcome (meetAgain u n label reservedLabel) w = (.ok (slot, u'), w')) :
    w.table.SameNotes w'.table := by
  rcases meetAgain_cases u n label reservedLabel w with ⟨-, ho⟩ | ⟨-, _, -, ho⟩ | ⟨-, -, ho⟩
  · cases ho.symm.trans h
  · cases ho.symm.trans h
    exact refl _
  · cases ho.symm.trans h
    have hreserve : w.table.SameNotes w.table.reserve.2 := ⟨rfl, rfl, rfl, rfl, rfl⟩
    cases reservedLabel with
    | none => exact hreserve
    | some text => exact hreserve.setLabel w.table.size text

theorem settle {u : Underway} {id id' : TypeId} {label : String} {w w' : Workspace}
    (h : outcome (settle u id label) w = (.ok id', w')) : w.table.SameNotes w'.table := by
  rcases settle_ok h with ⟨-, -, rfl⟩ | ⟨-, -, s, -, rfl⟩ | ⟨-, rfl⟩
  · exact refl _
  · exact ⟨rfl, rfl, rfl, rfl, rfl⟩
  · exact ⟨rfl, rfl, rfl, rfl, rfl⟩

end Table.SameNotes

namespace Workspace

variable {w w' : Workspace}

/-! ## Holders -/

theorem reservedBy_setProgress {i : Nat} {q : Progress} (hi : w.progressAt i ≠ .generic) :
    (w.setProgress i q).reservedBy (.definition i) = q.reserved ∧
      ∀ other, other ≠ .definition i →
        (w.setProgress i q).reservedBy other = w.reservedBy other := by
  constructor
  · rw [reservedBy, progressAt_setProgress_self (lt_of_progressAt hi)]
  · intro other hother
    cases other with
    | definition j =>
      have hij : j ≠ i := fun hij => hother (by rw [hij])
      rw [reservedBy, progressAt_setProgress_ne hij, reservedBy]
    | generic key => rfl
    | linked k => rfl

theorem reservedBy_setInstance (key : InstanceKey) (u : Underway) :
    (w.setInstance key u).reservedBy (.generic key) = u.reserved ∧
      ∀ other, other ≠ .generic key →
        (w.setInstance key u).reservedBy other = w.reservedBy other := by
  constructor
  · simp [reservedBy, Workspace.setInstance]
  · intro other hother
    cases other with
    | generic key' =>
      have hkey : key' ≠ key := fun hkey => hother (by rw [hkey])
      simp only [reservedBy, Workspace.setInstance, List.lookup_cons, beq_false_of_ne hkey,
        lookup_filter_ne hkey]
    | definition i => rfl
    | linked k => rfl

theorem aliases_meetAgain {u u' : Underway} {n : Nat} {label : String}
    {reservedLabel : Option String} {slot : TypeId}
    (h : outcome (meetAgain u n label reservedLabel) w = (.ok (slot, u'), w')) :
    w'.aliases = w.aliases := by
  rcases meetAgain_cases u n label reservedLabel w with ⟨-, ho⟩ | ⟨-, _, -, ho⟩ | ⟨-, -, ho⟩
  · cases ho.symm.trans h
  · cases ho.symm.trans h
    rfl
  · cases ho.symm.trans h
    rfl

theorem shape?_meetAgain {u u' : Underway} {n : Nat} {label : String}
    {reservedLabel : Option String} {slot : TypeId}
    (h : outcome (meetAgain u n label reservedLabel) w = (.ok (slot, u'), w')) (id : TypeId) :
    w'.table.shape? id = w.table.shape? id := by
  rcases meetAgain_cases u n label reservedLabel w with ⟨-, ho⟩ | ⟨-, _, -, ho⟩ | ⟨-, -, ho⟩
  · cases ho.symm.trans h
  · cases ho.symm.trans h
    rfl
  · cases ho.symm.trans h
    cases reservedLabel with
    | none => exact Table.shape?_reserve w.table id
    | some text => exact (Table.shape?_setLabel _ _ id).trans (Table.shape?_reserve w.table id)

theorem reservedBy_meetAgain {u u' : Underway} {n : Nat} {label : String}
    {reservedLabel : Option String} {slot : TypeId}
    (h : outcome (meetAgain u n label reservedLabel) w = (.ok (slot, u'), w')) :
    w'.reservedBy = w.reservedBy := by
  obtain ⟨hp, hinst⟩ := progress_meetAgain h
  funext holder
  cases holder with
  | definition i => rw [reservedBy, progressAt_of_eq hp, reservedBy]
  | generic key => rw [reservedBy, hinst, reservedBy]
  | linked k => rw [reservedBy, aliases_meetAgain h, reservedBy]

theorem aliases_settle {u : Underway} {id id' : TypeId} {label : String}
    (h : outcome (settle u id label) w = (.ok id', w')) :
    ∃ new, w'.aliases = w.aliases ++ new := by
  rcases settle_ok h with ⟨-, -, rfl⟩ | ⟨-, -, s, -, rfl⟩ | ⟨-, rfl⟩
  · exact ⟨[], (List.append_nil _).symm⟩
  · exact ⟨[], (List.append_nil _).symm⟩
  · exact ⟨_, rfl⟩

/-! ## Finishing -/

theorem notes_finishDefinition (w : Workspace) (i : Nat) (name? : Option String) (id : TypeId) :
    (w.finishDefinition i name? id).table.positions = w.table.positions.setIfInBounds i (some id) ∧
      (w.finishDefinition i name? id).table.instances = w.table.instances ∧
      (w.finishDefinition i name? id).table.generics = w.table.generics ∧
      (w.finishDefinition i name? id).table.interned = w.table.interned := by
  cases name? with
  | none => exact ⟨rfl, rfl, rfl, rfl⟩
  | some name =>
    rcases Table.bindName_cases
        { w.table with positions := w.table.positions.setIfInBounds i (some id) } name id with
      ⟨-, ht⟩ | ⟨labels, shared, ht⟩
    · simp only [finishDefinition, ht, and_self]
    · simp only [finishDefinition, ht, and_self]

theorem progressAt_finishDefinition_self {i : Nat} (h : i < w.progress.size)
    (name? : Option String) (id : TypeId) :
    (w.finishDefinition i name? id).progressAt i = .done id :=
  (progressAt_of_eq rfl i).trans (progressAt_setProgress_self h)

theorem progressAt_finishDefinition_ne {i j : Nat} (h : j ≠ i) (name? : Option String)
    (id : TypeId) : (w.finishDefinition i name? id).progressAt j = w.progressAt j :=
  (progressAt_of_eq rfl j).trans (progressAt_setProgress_ne h)

/-- A definition has the progress that it had before, unless it is the one that is done now. -/
theorem of_progressAt_finishDefinition {i j : Nat} {name? : Option String} {id : TypeId}
    {r : Progress} (h : (w.finishDefinition i name? id).progressAt j = r) (hr : r ≠ .generic) :
    (j = i ∧ .done id = r) ∨ (j ≠ i ∧ w.progressAt j = r) :=
  of_progressAt_setProgress ((progressAt_of_eq rfl j).trans h) hr

theorem notes_finishInstance (w : Workspace) (key : InstanceKey) (label : String) (id : TypeId) :
    (w.finishInstance key label id).table.positions = w.table.positions ∧
      (w.finishInstance key label id).table.names = w.table.names ∧
      (w.finishInstance key label id).table.generics = w.table.generics ∧
      (w.finishInstance key label id).table.interned = w.table.interned ∧
      (w.finishInstance key label id).table.instances = (key, id) :: w.table.instances := by
  rcases Table.setLabel_cases { w.table with instances := (key, id) :: w.table.instances } id label
    with ht | ht
  · simp only [finishInstance, ht, and_self]
  · simp only [finishInstance, ht, and_self]

/-! ## Order -/

/-- Reserved places have their holders, and a generic instance that is underway is not done. -/
structure Orderly (w : Workspace) : Prop where
  reserved : w.table.Reserved w.reservedBy
  fresh : ∀ key u, w.instances.lookup key = some u → w.table.instances.lookup key = none

namespace Orderly

theorem intern (h : w.Orderly) (s : Shape) : (w.intern s).Orderly where
  reserved := (h.reserved.intern s).of_place (funext fun holder => by cases holder <;> rfl)
  fresh key u hu := (congrArg _ (Table.SameNotes.intern s).instances).trans (h.fresh key u hu)

/-- A definition goes underway. -/
theorem enterDefinition (h : w.Orderly) {i : Nat} (hi : w.progressAt i = .waiting) (n : Nat) :
    (w.setProgress i (.underway ⟨n, none⟩)).Orderly where
  reserved := by
    obtain ⟨hself, hothers⟩ :=
      reservedBy_setProgress (w := w) (i := i) (q := .underway ⟨n, none⟩) (by rw [hi]; simp)
    refine h.reserved.of_place (funext fun other => ?_)
    by_cases hother : other = .definition i
    · rw [hother, hself, reservedBy, hi]
      rfl
    · exact hothers other hother
  fresh := h.fresh

/-- A definition underway is met again. -/
theorem meetDefinition (h : w.Orderly) {i n : Nat} {u u' : Underway} {slot : TypeId}
    {label : String} {reservedLabel : Option String} (hi : w.progressAt i = .underway u)
    (hmeet : outcome (meetAgain u n label reservedLabel) w = (.ok (slot, u'), w')) :
    (w'.setProgress i (.underway u')).Orderly where
  reserved := by
    obtain ⟨hp, -⟩ := progress_meetAgain hmeet
    have hown : w'.progressAt i ≠ .generic := by
      rw [progressAt_of_eq hp, hi]
      exact Progress.noConfusion
    obtain ⟨hself, hothers⟩ := reservedBy_setProgress (q := .underway u') hown
    have hheld : w.reservedBy (.definition i) = u.reserved := by
      rw [reservedBy, hi]
      rfl
    change w'.table.Reserved _
    refine h.reserved.of_meetAgain hmeet hheld hself fun other hother => ?_
    rw [hothers other hother, reservedBy_meetAgain hmeet]
  fresh key v hv := by
    obtain ⟨-, hinst⟩ := progress_meetAgain hmeet
    exact (congrArg _ (Table.SameNotes.meetAgain hmeet).instances).trans
      (h.fresh key v (hinst ▸ hv))

/-- A generic instance goes underway. -/
theorem enterInstance (h : w.Orderly) {key : InstanceKey}
    (hdone : w.table.instances.lookup key = none) (hkey : w.instances.lookup key = none) (n : Nat) :
    (w.enterInstance key n).Orderly where
  reserved := by
    refine h.reserved.of_place (funext fun holder => ?_)
    cases holder with
    | generic other =>
      by_cases hother : other = key
      · subst hother
        simp [reservedBy, Workspace.enterInstance, hkey]
      · simp only [reservedBy, Workspace.enterInstance, List.lookup_cons, beq_false_of_ne hother]
    | definition i => rfl
    | linked k => rfl
  fresh other u hu := by
    by_cases hother : other = key
    · rw [hother]
      exact hdone
    · simp only [Workspace.enterInstance, List.lookup_cons, beq_false_of_ne hother] at hu
      exact h.fresh other u hu

/-- A generic instance underway is met again. -/
theorem meetInstance (h : w.Orderly) {key : InstanceKey} {n : Nat} {u u' : Underway}
    {slot : TypeId} {label : String} {reservedLabel : Option String}
    (hkey : w.instances.lookup key = some u)
    (hmeet : outcome (meetAgain u n label reservedLabel) w = (.ok (slot, u'), w')) :
    (w'.setInstance key u').Orderly where
  reserved := by
    obtain ⟨hself, hothers⟩ := reservedBy_setInstance (w := w') key u'
    have hheld : w.reservedBy (.generic key) = u.reserved := by
      rw [reservedBy, hkey]
      rfl
    change w'.table.Reserved _
    refine h.reserved.of_meetAgain hmeet hheld hself fun other hother => ?_
    rw [hothers other hother, reservedBy_meetAgain hmeet]
  fresh other v hv := by
    obtain ⟨-, hinst⟩ := progress_meetAgain hmeet
    refine (congrArg _ (Table.SameNotes.meetAgain hmeet).instances).trans ?_
    by_cases hother : other = key
    · rw [hother]
      exact h.fresh key u hkey
    · simp only [Workspace.setInstance, List.lookup_cons, beq_false_of_ne hother,
        lookup_filter_ne hother, hinst] at hv
      exact h.fresh other v hv

variable {u : Underway} {id id' : TypeId} {label : String}

/-- A definition whose body came to a place is done where that settles. -/
theorem finishDefinition (h : w.Orderly) {i : Nat} (hu : w.progressAt i = .underway u)
    (hsettle : outcome (settle u id label) w = (.ok id', w')) (name? : Option String) :
    (w'.finishDefinition i name? id').Orderly := by
  obtain ⟨hp, hinst⟩ := progress_settle hsettle
  obtain ⟨-, hinstances, -, hinterned⟩ := notes_finishDefinition w' i name? id'
  have hlt := lt_of_progressAt (show w.progressAt i ≠ .generic by rw [hu]; simp)
  constructor
  case reserved =>
    have hheld : w.reservedBy (.definition i) = u.reserved := by
      rw [reservedBy, hu]
      rfl
    refine .of_slots (t := w'.table) ?_ (slots_finishDefinition w' i name? id') hinterned
    refine h.reserved.of_settle hsettle hheld ?_ (fun _ => rfl) (fun _ => rfl) ?_
    · rw [reservedBy, progressAt_finishDefinition_self (by rwa [hp])]
      rfl
    · intro other hother hlinked
      cases other with
      | definition j =>
        have hij : j ≠ i := fun hij => hother (by rw [hij])
        rw [reservedBy, progressAt_finishDefinition_ne hij, progressAt_of_eq hp, reservedBy]
      | generic key =>
        rw [reservedBy, reservedBy, ← hinst]
        rfl
      | linked k => exact absurd rfl (hlinked k)
  case fresh =>
    intro key v hv
    rw [hinstances, (Table.SameNotes.settle hsettle).instances]
    exact h.fresh key v (hinst ▸ hv)

/-- A generic instance whose body came to a place is done where that settles. -/
theorem finishInstance (h : w.Orderly) {key : InstanceKey} {label' : String}
    (hu : w.instances.lookup key = some u)
    (hsettle : outcome (settle u id label) (w.leaveInstance key) = (.ok id', w')) :
    (w'.finishInstance key label' id').Orderly := by
  obtain ⟨hp, hinst⟩ := progress_settle hsettle
  obtain ⟨-, -, -, hinterned, hinstances⟩ := notes_finishInstance w' key label' id'
  have hleft (other : InstanceKey) : (w'.finishInstance key label' id').instances.lookup other
      = (w.leaveInstance key).instances.lookup other := congrArg _ hinst
  constructor
  case reserved =>
    have hheld : w.reservedBy (.generic key) = u.reserved := by
      rw [reservedBy, hu]
      rfl
    have hreserved : (w.leaveInstance key).table.Reserved w.reservedBy := h.reserved
    refine .of_slots (t := w'.table) ?_ (slots_finishInstance w' key label' id') hinterned
    refine hreserved.of_settle hsettle hheld ?_ (fun _ => rfl) (fun _ => rfl) ?_
    · rw [reservedBy, hleft]
      exact congrArg (Option.bind · _) (lookup_filter_self key w.instances)
    · intro other hother hlinked
      cases other with
      | definition j =>
        have hsame : (w'.finishInstance key label' id').progressAt j = w.progressAt j :=
          progressAt_of_eq hp j
        rw [reservedBy, hsame, reservedBy]
      | generic key' =>
        have hkey : key' ≠ key := fun hkey => hother (by rw [hkey])
        rw [reservedBy, hleft, reservedBy]
        exact congrArg (Option.bind · _) (lookup_filter_ne hkey)
      | linked k => exact absurd rfl (hlinked k)
  case fresh =>
    intro other v hv
    rw [hleft] at hv
    by_cases hother : other = key
    · rw [hother] at hv
      cases (lookup_filter_self key w.instances).symm.trans hv
    · rw [hinstances, List.lookup_cons, beq_false_of_ne hother,
        (Table.SameNotes.settle hsettle).instances]
      exact h.fresh other v ((lookup_filter_ne hother).symm.trans hv)

end Orderly

end Workspace

/-! ## Finding again -/

/-- What is found in one table is found in the other: shapes at their places, and what generic
instances came to. -/
structure Table.Finds (t t' : Table) : Prop where
  shapes : ∀ s id, t.interned.lookup s = some id → t'.interned.lookup s = some id
  instances : ∀ key id, t.instances.lookup key = some id → t'.instances.lookup key = some id

namespace Table.Finds

variable {t t' t'' : Table}

theorem refl (t : Table) : t.Finds t := ⟨fun _ _ h => h, fun _ _ h => h⟩

theorem trans (h : t.Finds t') (h' : t'.Finds t'') : t.Finds t'' :=
  ⟨fun s id hs => h'.shapes s id (h.shapes s id hs),
    fun key id hkey => h'.instances key id (h.instances key id hkey)⟩

theorem of_eq (hs : t'.interned = t.interned) (hi : t'.instances = t.instances) : t.Finds t' :=
  ⟨fun _ _ h => hs ▸ h, fun _ _ h => hi ▸ h⟩

theorem intern (t : Table) (s : Shape) : t.Finds (t.intern s).2 :=
  ⟨fun _ _ hs => lookup_intern hs,
    fun _ _ hkey => (congrArg _ (SameNotes.intern s).instances).trans hkey⟩

theorem fill (t : Table) (id : TypeId) (s : Shape) : t.Finds (t.fill id s) :=
  ⟨fun _ _ hs => lookup_fill id s hs, fun _ _ h => h⟩

theorem meetAgain {u u' : Underway} {n : Nat} {label : String} {reservedLabel : Option String}
    {w w' : Workspace} {slot : TypeId}
    (h : outcome (meetAgain u n label reservedLabel) w = (.ok (slot, u'), w')) :
    w.table.Finds w'.table := by
  refine .of_eq ?_ (SameNotes.meetAgain h).instances
  rcases meetAgain_cases u n label reservedLabel w with ⟨-, ho⟩ | ⟨-, _, -, ho⟩ | ⟨-, -, ho⟩
  · cases ho.symm.trans h
  · cases ho.symm.trans h
    rfl
  · cases ho.symm.trans h
    cases reservedLabel with
    | none => rfl
    | some text => exact interned_setLabel _ _

theorem settle {u : Underway} {id id' : TypeId} {label : String} {w w' : Workspace}
    (h : outcome (settle u id label) w = (.ok id', w')) : w.table.Finds w'.table := by
  rcases settle_ok h with ⟨-, -, rfl⟩ | ⟨-, -, s, -, rfl⟩ | ⟨-, rfl⟩
  · exact refl _
  · exact fill _ _ _
  · exact refl _

/-- A generic instance that was not done before is. -/
theorem finishInstance {w : Workspace} {key : InstanceKey} (label : String) (id : TypeId)
    (hnew : w.table.instances.lookup key = none) :
    w.table.Finds (w.finishInstance key label id).table := by
  obtain ⟨-, -, -, hinterned, hinstances⟩ := w.notes_finishInstance key label id
  refine ⟨fun s found hs => hinterned ▸ hs, fun other found hother => ?_⟩
  rw [hinstances, List.lookup_cons]
  split
  · rename_i hsame
    rw [eq_of_beq hsame, hnew] at hother
    cases hother
  · exact hother

end Table.Finds

/-- When a type has come to its place the workspace is in order, and what was found before is found
again. -/
theorem Resolves.orderly {p : Program} {room : Nat} {task : Task} {n : Nat} {w w' : Workspace}
    {ids : List TypeId} (h : Resolves p room task n w (.ok ids) w') (hw : w.Orderly) :
    w'.Orderly ∧ w.table.Finds w'.table := by
  induction h using Resolves.ok_induction with
  | nil | placed | bound | known | done | cached => exact ⟨hw, .refl _⟩
  | next _ _ ih ih' =>
    obtain ⟨hw', hfinds⟩ := ih hw
    obtain ⟨hw'', hfinds'⟩ := ih' hw'
    exact ⟨hw'', hfinds.trans hfinds'⟩
  | built _ _ _ ih =>
    obtain ⟨hw', hfinds⟩ := ih hw
    exact ⟨hw'.intern _, hfinds.trans (.intern _ _)⟩
  | index _ _ ih | declared _ _ _ ih => exact ih hw
  | primitive => exact ⟨hw.intern _, .intern _ _⟩
  | applied _ _ _ ih ih' =>
    obtain ⟨hw', hfinds⟩ := ih hw
    obtain ⟨hw'', hfinds'⟩ := ih' hw'
    exact ⟨hw'', hfinds.trans hfinds'⟩
  | again hi hmeet =>
    exact ⟨hw.meetDefinition hi hmeet, (Table.Finds.meetAgain hmeet).trans (.of_eq rfl rfl)⟩
  | defined hi _ hu hsettle ih =>
    obtain ⟨hw', hfinds⟩ := ih (hw.enterDefinition hi _)
    obtain ⟨-, hinstances, -, hinterned⟩ := Workspace.notes_finishDefinition _ _ _ _
    exact ⟨hw'.finishDefinition hu hsettle _,
      hfinds.trans ((Table.Finds.settle hsettle).trans (.of_eq hinterned hinstances))⟩
  | againInstance _ hkey hmeet =>
    exact ⟨hw.meetInstance hkey hmeet, (Table.Finds.meetAgain hmeet).trans (.of_eq rfl rfl)⟩
  | instantiated hdone hkey _ hu hsettle ih =>
    obtain ⟨hw', hfinds⟩ := ih (hw.enterInstance hdone hkey _)
    refine ⟨hw'.finishInstance hu hsettle, hfinds.trans ((Table.Finds.settle hsettle).trans
      (.finishInstance _ _ ?_))⟩
    rw [(Table.SameNotes.settle hsettle).instances]
    exact hw'.fresh _ _ hu

theorem Workspace.expressions_finishDefinition (w : Workspace) (i : Nat) (name? : Option String)
    (id : TypeId) : (w.finishDefinition i name? id).table.expressions = w.table.expressions := by
  cases name? with
  | none => rfl
  | some name => exact Table.expressions_bindName name id

theorem Workspace.expressions_finishInstance (w : Workspace) (key : InstanceKey) (label : String)
    (id : TypeId) : (w.finishInstance key label id).table.expressions = w.table.expressions :=
  Table.expressions_setLabel id label

/-- No step of resolution remembers a text. -/
theorem Resolves.expressions {p : Program} {room : Nat} {task : Task} {n : Nat} {w w' : Workspace}
    {ids : List TypeId} (h : Resolves p room task n w (.ok ids) w') :
    w'.table.expressions = w.table.expressions := by
  induction h using Resolves.ok_induction with
  | nil | placed | bound | known | done | cached => rfl
  | next _ _ ih ih' => exact ih'.trans ih
  | built _ _ _ ih => exact (Table.SameNotes.intern _).expressions.trans ih
  | index _ _ ih | declared _ _ _ ih => exact ih
  | primitive => exact (Table.SameNotes.intern _).expressions
  | applied _ _ _ ih ih' => exact ih'.trans ih
  | again _ hmeet | againInstance _ _ hmeet => exact (Table.SameNotes.meetAgain hmeet).expressions
  | defined _ _ _ hsettle ih =>
    exact (Workspace.expressions_finishDefinition _ _ _ _).trans
      ((Table.SameNotes.settle hsettle).expressions.trans ih)
  | instantiated _ _ _ _ hsettle ih =>
    exact (Workspace.expressions_finishInstance _ _ _ _).trans
      ((Table.SameNotes.settle hsettle).expressions.trans ih)

/-! ## Filling reserved places -/

theorem Workspace.Orderly.pending {w : Workspace} (h : w.Orderly) : Pending w.table w.aliases where
  nodup := by
    rw [List.Nodup, List.pairwise_map, List.pairwise_iff_getElem]
    intro j k hj hk hjk heq
    have hslot {l : Nat} (hl : l < w.aliases.length) :
        w.reservedBy (.linked l) = some w.aliases[l].1 := by
      rw [reservedBy, List.getElem?_eq_getElem hl]
      rfl
    have hsame := h.reserved.unique _ _ _ (hslot hj) ((hslot hk).trans (congrArg some heq.symm))
    cases hsame
    exact Nat.lt_irrefl _ hjk
  unfilled a ha := by
    obtain ⟨k, hk, rfl⟩ := List.getElem_of_mem ha
    exact h.reserved.unfilled (.linked k) _ (by rw [reservedBy, List.getElem?_eq_getElem hk]; rfl)

namespace Table

theorem Indexed.fillAliases {t : Table} {aliases : List (TypeId × TypeId)} (h : t.Indexed)
    (hpending : Pending t aliases) : (fillAliases t aliases).1.Indexed := by
  induction aliases generalizing t with
  | nil => exact h
  | cons a rest ih =>
    obtain ⟨slot, target⟩ := a
    obtain ⟨hlt, hnone⟩ := hpending.unfilled _ List.mem_cons_self
    unfold Typewire.fillAliases
    split
    · rename_i s _
      exact ih (h.fill s hlt hnone) (hpending.fill s)
    · exact ih h hpending.tail

/-- Shapes are found where they stand also when all reserved places are filled. -/
theorem Indexed.fillAll {t t' : Table} {aliases : List (TypeId × TypeId)} (h : t.Indexed)
    (hpending : Pending t aliases) (hfill : fillAll t aliases = .ok t') : t'.Indexed := by
  fun_induction Typewire.fillAll t aliases with
  | case1 t =>
    cases hfill
    exact h
  | case2 => cases hfill
  | case3 t a rest pass hne ih =>
    exact ih (h.fillAliases hpending) hpending.fillAliases.2.1 hfill

theorem Finds.fillAll {t t' : Table} {aliases : List (TypeId × TypeId)}
    (hfill : fillAll t aliases = .ok t') : t.Finds t' :=
  fillAll_keeps (P := fun u => t.Finds u) (fun _ _ _ _ hu => hu.trans (fill _ _ _)) (refl t) hfill

end Table

end Typewire
