-- The places that a table and a workspace speak of are places of the table. Resolution keeps it
-- so, also where it fails, and comes to such places only.
import Typewire.Proofs.Shape.Places
import Typewire.Proofs.Shape.Resolution

namespace Typewire

open Typewire.Language Resolving

/-! ## Tables -/

/-- Every place that the table speaks of is one of its own. -/
structure Table.Closed (t : Table) : Prop where
  interned : ∀ e ∈ t.interned, e.2 < t.size
  positions : ∀ (i : Nat) (id : TypeId), t.positions[i]? = some (some id) → id < t.size
  names : ∀ e ∈ t.names, e.2 < t.size
  labels : ∀ e ∈ t.labels, e.1 < t.size
  shared : ∀ id ∈ t.shared, id < t.size
  instances : ∀ e ∈ t.instances, e.2 < t.size
  expressions : ∀ e ∈ t.expressions, e.2 < t.size

namespace Table.Closed

variable {t : Table}

theorem empty : Closed {} := by
  constructor <;> simp

/-- More places, and whatever shapes at them, leave a table closed. -/
theorem withSlots (h : t.Closed) (slots : Array (Option Shape)) (hsize : t.size ≤ slots.size) :
    Closed { t with slots } where
  interned e he := Nat.lt_of_lt_of_le (h.interned e he) hsize
  positions i id hi := Nat.lt_of_lt_of_le (h.positions i id hi) hsize
  names e he := Nat.lt_of_lt_of_le (h.names e he) hsize
  labels e he := Nat.lt_of_lt_of_le (h.labels e he) hsize
  shared id hid := Nat.lt_of_lt_of_le (h.shared id hid) hsize
  instances e he := Nat.lt_of_lt_of_le (h.instances e he) hsize
  expressions e he := Nat.lt_of_lt_of_le (h.expressions e he) hsize

theorem withInterned (h : t.Closed) {s : Shape} {id : TypeId} (hid : id < t.size) :
    Closed { t with interned := (s, id) :: t.interned } :=
  { h with interned := List.forall_mem_cons.mpr ⟨hid, h.interned⟩ }

theorem withInstance (h : t.Closed) {key : InstanceKey} {id : TypeId} (hid : id < t.size) :
    Closed { t with instances := (key, id) :: t.instances } :=
  { h with instances := List.forall_mem_cons.mpr ⟨hid, h.instances⟩ }

theorem withExpression (h : t.Closed) {text : String} {id : TypeId} (hid : id < t.size) :
    Closed { t with expressions := (text, id) :: t.expressions } :=
  { h with expressions := List.forall_mem_cons.mpr ⟨hid, h.expressions⟩ }

theorem withPosition (h : t.Closed) {i : Nat} {id : TypeId} (hid : id < t.size) :
    Closed { t with positions := t.positions.setIfInBounds i (some id) } where
  interned := h.interned
  positions j other hj := by
    rw [Array.getElem?_setIfInBounds] at hj
    split at hj
    · split at hj
      · cases hj
        exact hid
      · cases hj
    · exact h.positions j other hj
  names := h.names
  labels := h.labels
  shared := h.shared
  instances := h.instances
  expressions := h.expressions

theorem setLabel (h : t.Closed) {id : TypeId} (label : String) (hid : id < t.size) :
    (t.setLabel id label).Closed := by
  rcases setLabel_cases t id label with ht | ht
  · rw [ht]
    exact h
  · rw [ht]
    exact { h with labels := List.forall_mem_cons.mpr ⟨hid, h.labels⟩ }

theorem bindName (h : t.Closed) {id : TypeId} (name : String) (hid : id < t.size) :
    (t.bindName name id).Closed := by
  unfold Table.bindName
  split
  · exact h
  split
  · exact { h with
      labels := fun e he => h.labels e ((List.mem_filter.mp he).1)
      shared := List.forall_mem_cons.mpr ⟨hid, h.shared⟩
      names := List.forall_mem_cons.mpr ⟨hid, h.names⟩ }
  · have hlabel := h.setLabel name hid
    have hnames : (t.setLabel id name).names = t.names := by
      rcases setLabel_cases t id name with ht | ht <;> rw [ht]
    refine { hlabel with names := List.forall_mem_cons.mpr ⟨?_, hnames ▸ hlabel.names⟩ }
    exact Nat.lt_of_lt_of_eq hid (size_setLabel id name).symm

theorem intern (h : t.Closed) (s : Shape) :
    (t.intern s).2.Closed ∧ (t.intern s).1 < (t.intern s).2.size := by
  rcases intern_cases t s with ⟨id, hid, ht⟩ | ⟨-, ht⟩
  · rw [ht]
    exact ⟨h, h.interned (s, id) (mem_of_lookup hid)⟩
  · rw [ht]
    have hsize : t.size < (t.slots.push (some s)).size := by simp [size]
    exact ⟨(h.withSlots _ (Nat.le_of_lt hsize)).withInterned hsize, hsize⟩

theorem reserve (h : t.Closed) : t.reserve.2.Closed :=
  h.withSlots _ (by simp [size])

theorem fill (h : t.Closed) {id : TypeId} (s : Shape) (hid : id < t.size) :
    (t.fill id s).Closed := by
  have hslots := h.withSlots (t.slots.setIfInBounds id (some s)) (by simp [size])
  unfold Table.fill
  split
  · exact hslots
  · exact hslots.withInterned (by simpa [size] using hid)

end Table.Closed

/-! ## Workspaces -/

/-- What is done takes no place and no shape. -/
theorem Workspace.slots_finishDefinition (w : Workspace) (i : Nat) (name : Option String)
    (id : TypeId) : (w.finishDefinition i name id).table.slots = w.table.slots := by
  unfold finishDefinition
  cases name with
  | none => rfl
  | some name => exact Table.slots_bindName name id

theorem Workspace.size_finishDefinition (w : Workspace) (i : Nat) (name : Option String)
    (id : TypeId) : (w.finishDefinition i name id).table.size = w.table.size :=
  congrArg Array.size (slots_finishDefinition w i name id)

theorem Workspace.slots_finishInstance (w : Workspace) (key : InstanceKey) (label : String)
    (id : TypeId) : (w.finishInstance key label id).table.slots = w.table.slots :=
  Table.slots_setLabel id label

theorem Workspace.size_finishInstance (w : Workspace) (key : InstanceKey) (label : String)
    (id : TypeId) : (w.finishInstance key label id).table.size = w.table.size :=
  congrArg Array.size (slots_finishInstance w key label id)

theorem Workspace.size_reserve (w : Workspace) (label : Option String) :
    (w.reserve label).table.size = w.table.size + 1 := by
  cases label with
  | none => exact Table.size_reserve w.table
  | some l => exact (Table.size_setLabel _ l).trans (Table.size_reserve w.table)

/-- Every place that the workspace speaks of is one of its table. -/
structure Workspace.Closed (w : Workspace) : Prop where
  table : w.table.Closed
  done : ∀ i id, w.progressAt i = .done id → id < w.table.size
  underway : w.AllUnderway fun u => ∀ slot, u.reserved = some slot → slot < w.table.size
  aliases : ∀ a ∈ w.aliases, a.1 < w.table.size ∧ a.2 < w.table.size

namespace Workspace.Closed

variable {w : Workspace}

/-- Whatever is closed stays so over a table that is closed and no smaller. -/
theorem withTable (h : w.Closed) {t : Table} (ht : t.Closed) (hsize : w.table.size ≤ t.size) :
    Closed { w with table := t } where
  table := ht
  done i id hi := Nat.lt_of_lt_of_le (h.done i id hi) hsize
  underway := (h.underway.imp fun _ hu slot hslot =>
    Nat.lt_of_lt_of_le (hu slot hslot) hsize).of_eq rfl rfl
  aliases a ha := ⟨Nat.lt_of_lt_of_le (h.aliases a ha).1 hsize,
    Nat.lt_of_lt_of_le (h.aliases a ha).2 hsize⟩

theorem withAlias (h : w.Closed) {slot target : TypeId} (hslot : slot < w.table.size)
    (htarget : target < w.table.size) :
    Closed { w with aliases := w.aliases ++ [(slot, target)] } :=
  { h with
    underway := h.underway.of_eq rfl rfl
    aliases := by
      intro a ha
      rcases List.mem_append.mp ha with ha | ha
      · exact h.aliases a ha
      · cases List.mem_singleton.mp ha
        exact ⟨hslot, htarget⟩ }

theorem setProgress (h : w.Closed) (i : Nat) {p : Progress}
    (hdone : ∀ id, p = .done id → id < w.table.size)
    (hunderway : ∀ u slot, p = .underway u → u.reserved = some slot → slot < w.table.size) :
    (w.setProgress i p).Closed where
  table := h.table
  done j id hj := by
    rcases of_progressAt_setProgress hj (by simp) with ⟨-, hp⟩ | ⟨-, hj⟩
    · exact hdone id hp
    · exact h.done j id hj
  underway := h.underway.setProgress i fun u hu slot hslot => hunderway u slot hu hslot
  aliases := h.aliases

theorem enterInstance (h : w.Closed) (key : InstanceKey) (n : Nat) :
    (w.enterInstance key n).Closed :=
  { h with underway := h.underway.enterInstance key (by rintro _ ⟨⟩) }

theorem leaveInstance (h : w.Closed) (key : InstanceKey) : (w.leaveInstance key).Closed :=
  { h with underway := h.underway.leaveInstance key }

theorem setInstance (h : w.Closed) (key : InstanceKey) {u : Underway}
    (hu : ∀ slot, u.reserved = some slot → slot < w.table.size) :
    (w.setInstance key u).Closed :=
  { h with underway := h.underway.setInstance key hu }

theorem finishDefinition (h : w.Closed) (i : Nat) (name : Option String) {id : TypeId}
    (hid : id < w.table.size) : (w.finishDefinition i name id).Closed := by
  have hprogress := h.setProgress i (p := .done id) (fun _ hp => by cases hp; exact hid)
    (fun _ _ hp => by cases hp)
  have hplaced := h.table.withPosition (i := i) hid
  cases name with
  | none => exact hprogress.withTable hplaced (Nat.le_refl _)
  | some name =>
    exact hprogress.withTable (hplaced.bindName name hid)
      (Nat.le_of_eq (size_finishDefinition w i (some name) id).symm)

theorem finishInstance (h : w.Closed) (key : InstanceKey) (label : String) {id : TypeId}
    (hid : id < w.table.size) : (w.finishInstance key label id).Closed :=
  h.withTable ((h.table.withInstance hid).setLabel label hid)
    (Nat.le_of_eq (size_finishInstance w key label id).symm)

end Workspace.Closed

/-! ## Resolution -/

/-- The places that a task speaks of are among the first `size`. -/
def Task.Within (size : Nat) : Task → Prop
  | .type _ s | .parts _ s => ∀ b ∈ s, b.2 < size
  | .definition _ => True
  | .generic _ key => ∀ id ∈ key.args, id < size

theorem Task.Within.mono {task : Task} {size size' : Nat} (h : task.Within size)
    (hsize : size ≤ size') : task.Within size' := by
  cases task with
  | type e s => exact fun b hb => Nat.lt_of_lt_of_le (h b hb) hsize
  | parts es s => exact fun b hb => Nat.lt_of_lt_of_le (h b hb) hsize
  | definition i => trivial
  | generic g key => exact fun id hid => Nat.lt_of_lt_of_le (h id hid) hsize

theorem within_bind {params : List String} {args : List TypeId} {size : Nat}
    (h : ∀ id ∈ args, id < size) : ∀ b ∈ Program.bind params args, b.2 < size := by
  intro b hb
  exact h b.2 (List.of_mem_zip (List.mem_reverse.mp hb)).2

theorem closed_meetAgain {u : Underway} {n : Nat} {label : String}
    {reservedLabel : Option String} {w w' : Workspace} {r} (hw : w.Closed)
    (hu : ∀ slot, u.reserved = some slot → slot < w.table.size)
    (h : outcome (meetAgain u n label reservedLabel) w = (r, w')) :
    w'.Closed ∧ w.table.size ≤ w'.table.size ∧
      ∀ slot u', r = .ok (slot, u') → slot < w'.table.size := by
  rcases meetAgain_cases u n label reservedLabel w with
    ⟨-, ho⟩ | ⟨-, slot, hslot, ho⟩ | ⟨-, -, ho⟩
  · rw [ho] at h
    cases h
    exact ⟨hw, Nat.le_refl _, by rintro slot u' ⟨⟩⟩
  · rw [ho] at h
    cases h
    refine ⟨hw, Nat.le_refl _, ?_⟩
    rintro slot' u' ⟨⟩
    exact hu slot hslot
  · rw [ho] at h
    cases h
    have hsize := w.size_reserve reservedLabel
    have htable : (w.reserve reservedLabel).table.Closed := by
      cases reservedLabel with
      | none => exact hw.table.reserve
      | some l => exact hw.table.reserve.setLabel l (by rw [Table.size_reserve]; exact Nat.lt_succ_self _)
    have hgrows : w.table.size ≤ (w.reserve reservedLabel).table.size := by rw [hsize]; omega
    refine ⟨hw.withTable htable hgrows, hgrows, ?_⟩
    rintro slot u' ⟨⟩
    rw [hsize]
    exact Nat.lt_succ_self _

theorem closed_settle {u : Underway} {id : TypeId} {label : String} {w w' : Workspace} {r}
    (hw : w.Closed) (hid : id < w.table.size)
    (hu : ∀ slot, u.reserved = some slot → slot < w.table.size)
    (h : outcome (settle u id label) w = (r, w')) :
    w'.Closed ∧ w'.table.size = w.table.size ∧ ∀ id', r = .ok id' → id' < w.table.size := by
  rcases settle_cases u id label w with
    ⟨-, ho⟩ | ⟨slot, hslot, ⟨-, ho⟩ | ⟨s, -, -, ho⟩ | ⟨-, -, ho⟩⟩
  · rw [ho] at h
    cases h
    refine ⟨hw, rfl, ?_⟩
    rintro id' ⟨⟩
    exact hid
  · rw [ho] at h
    cases h
    exact ⟨hw, rfl, by rintro id' ⟨⟩⟩
  · rw [ho] at h
    cases h
    refine ⟨hw.withTable (hw.table.fill s (hu slot hslot)) ?_, Table.size_fill slot s, ?_⟩
    · exact Nat.le_of_eq (Table.size_fill slot s).symm
    · rintro id' ⟨⟩
      exact hu slot hslot
  · rw [ho] at h
    cases h
    refine ⟨hw.withAlias (hu slot hslot) hid, rfl, ?_⟩
    rintro id' ⟨⟩
    exact hu slot hslot

/-- The workspace is closed and no smaller, and the places that were come to are its own. -/
structure ComesClosed (w : Workspace) (r : Except ResolveError (List TypeId)) (w' : Workspace) :
    Prop where
  closed : w'.Closed
  size : w.table.size ≤ w'.table.size
  places : ∀ ids, r = .ok ids → ∀ id ∈ ids, id < w'.table.size

namespace ComesClosed

variable {w w' w'' : Workspace} {r r' : Except ResolveError (List TypeId)}

theorem fail (hw : w'.Closed) (hsize : w.table.size ≤ w'.table.size) (x : ResolveError) :
    ComesClosed w (.error x) w' := by
  refine ⟨hw, hsize, ?_⟩
  rintro ids ⟨⟩

theorem one (hw : w'.Closed) (hsize : w.table.size ≤ w'.table.size) {id : TypeId}
    (hid : id < w'.table.size) : ComesClosed w (.ok [id]) w' := by
  refine ⟨hw, hsize, ?_⟩
  rintro ids ⟨⟩ other hother
  rwa [List.mem_singleton.mp hother]

theorem place {id : TypeId} (h : ComesClosed w (.ok [id]) w') : id < w'.table.size :=
  h.places _ rfl id List.mem_cons_self

/-- What one step came to stays a place in the next. -/
theorem trans (h : ComesClosed w r w') (h' : ComesClosed w' r' w'') : ComesClosed w r' w'' :=
  ⟨h'.closed, Nat.le_trans h.size h'.size, h'.places⟩

theorem cons {id : TypeId} (h : ComesClosed w (.ok [id]) w') (h' : ComesClosed w' r w'') :
    ComesClosed w (r.map (id :: ·)) w'' := by
  refine ⟨h'.closed, Nat.le_trans h.size h'.size, ?_⟩
  intro ids hr other hother
  cases r with
  | error x => cases hr
  | ok rest =>
    cases hr
    rcases List.mem_cons.mp hother with rfl | hother
    · exact Nat.lt_of_lt_of_le h.place h'.size
    · exact h'.places rest rfl other hother

theorem interned (hw : w.Closed) (s : Shape) :
    ComesClosed w (.ok [(w.table.intern s).1]) (w.intern s) := by
  obtain ⟨htable, hid⟩ := hw.table.intern s
  exact .one (hw.withTable htable (Table.size_le_intern _ _)) (Table.size_le_intern _ _) hid

end ComesClosed

/-- Resolution comes to places of the table, and speaks of no others. -/
theorem Resolves.closed {p : Program} {room : Nat} {task : Task} {n : Nat} {w w' : Workspace}
    {r : Except ResolveError (List TypeId)} (h : Resolves p room task n w r w')
    (hw : w.Closed) (ht : task.Within w.table.size) : ComesClosed w r w' := by
  induction h with
  | nil => exact ⟨hw, Nat.le_refl _, by rintro ids ⟨⟩ id hid; cases hid⟩
  | fault | unknown | refused | tooDeep | bare => exact .fail hw (Nat.le_refl _) _
  | stop _ ih | unbuilt _ ih | unsound _ _ _ ih | unapplied _ _ ih =>
    have hc := ih hw ht
    exact .fail hc.closed hc.size _
  | next _ _ ih ih' =>
    have hc := ih hw ht
    exact hc.cons (ih' hc.closed (ht.mono hc.size))
  | built _ _ _ ih =>
    have hc := ih hw ht
    exact hc.trans (.interned hc.closed _)
  | index _ _ ih | declared _ _ _ ih => exact ih hw trivial
  | placed =>
    rename_i w i _
    unfold Table.typeAt
    split
    · exact .one hw (Nat.le_refl _) (hw.table.positions _ _ ‹_›)
    · exact .fail hw (Nat.le_refl _) _
    · exact .fail hw (Nat.le_refl _) _
  | bound hs => exact .one hw (Nat.le_refl _) (ht _ (mem_of_lookup hs))
  | known _ _ hname => exact .one hw (Nat.le_refl _) (hw.table.names _ (mem_of_lookup hname))
  | primitive => exact .interned hw _
  | applied _ _ _ ih ih' =>
    have hc := ih hw ht
    exact hc.trans (ih' hc.closed (hc.places _ rfl))
  | done hi => exact .one hw (Nat.le_refl _) (hw.done _ _ hi)
  | flat hi hmeet =>
    obtain ⟨hc, hsize, -⟩ := closed_meetAgain hw (hw.underway.definitions _ _ hi) hmeet
    exact .fail hc hsize _
  | again hi hmeet =>
    obtain ⟨hc, hsize, hslot⟩ := closed_meetAgain hw (hw.underway.definitions _ _ hi) hmeet
    refine .one (hc.setProgress _ (by rintro _ ⟨⟩) ?_) hsize (hslot _ _ rfl)
    rintro _ slot ⟨⟩ hreserved
    cases (underway_meetAgain hmeet).2.symm.trans hreserved
    exact hslot _ _ rfl
  | failed hi _ ih =>
    have hc := ih (hw.setProgress _ (by rintro _ ⟨⟩) (by rintro _ _ ⟨⟩ ⟨⟩)) (by rintro _ ⟨⟩)
    refine .fail hc.closed ?_ _
    exact hc.size
  | endless hi _ hu hsettle ih =>
    have hc := ih (hw.setProgress _ (by rintro _ ⟨⟩) (by rintro _ _ ⟨⟩ ⟨⟩)) (by rintro _ ⟨⟩)
    obtain ⟨hc', hsize, -⟩ := closed_settle hc.closed hc.place
      (hc.closed.underway.definitions _ _ hu) hsettle
    refine .fail hc' ?_ _
    exact Nat.le_trans hc.size (Nat.le_of_eq hsize.symm)
  | defined hi _ hu hsettle ih =>
    have hc := ih (hw.setProgress _ (by rintro _ ⟨⟩) (by rintro _ _ ⟨⟩ ⟨⟩)) (by rintro _ ⟨⟩)
    obtain ⟨hc', hsize, hid⟩ := closed_settle hc.closed hc.place
      (hc.closed.underway.definitions _ _ hu) hsettle
    have hid' := Nat.lt_of_lt_of_eq (hid _ rfl) hsize.symm
    refine .one (hc'.finishDefinition _ _ hid') ?_ ?_
    · rw [Workspace.size_finishDefinition]
      exact Nat.le_trans hc.size (Nat.le_of_eq hsize.symm)
    · rw [Workspace.size_finishDefinition]
      exact hid'
  | cached hid => exact .one hw (Nat.le_refl _) (hw.table.instances _ (mem_of_lookup hid))
  | flatInstance _ hkey hmeet =>
    obtain ⟨hc, hsize, -⟩ := closed_meetAgain hw (hw.underway.instances _ _ hkey) hmeet
    exact .fail hc hsize _
  | againInstance _ hkey hmeet =>
    obtain ⟨hc, hsize, hslot⟩ := closed_meetAgain hw (hw.underway.instances _ _ hkey) hmeet
    refine .one (hc.setInstance _ ?_) hsize (hslot _ _ rfl)
    intro slot hreserved
    cases (underway_meetAgain hmeet).2.symm.trans hreserved
    exact hslot _ _ rfl
  | failedInstance _ _ _ ih =>
    have hc := ih (hw.enterInstance _ _) (within_bind ht)
    refine .fail (hc.closed.leaveInstance _) ?_ _
    exact hc.size
  | endlessInstance _ _ _ hu hsettle ih =>
    have hc := ih (hw.enterInstance _ _) (within_bind ht)
    obtain ⟨hc', hsize, -⟩ := closed_settle (hc.closed.leaveInstance _) hc.place
      (hc.closed.underway.instances _ _ hu) hsettle
    refine .fail hc' ?_ _
    exact Nat.le_trans hc.size (Nat.le_of_eq hsize.symm)
  | instantiated _ _ _ hu hsettle ih =>
    have hc := ih (hw.enterInstance _ _) (within_bind ht)
    obtain ⟨hc', hsize, hid⟩ := closed_settle (hc.closed.leaveInstance _) hc.place
      (hc.closed.underway.instances _ _ hu) hsettle
    have hid' := Nat.lt_of_lt_of_eq (hid _ rfl) hsize.symm
    refine .one (hc'.finishInstance _ _ hid') ?_ ?_
    · rw [Workspace.size_finishInstance]
      exact Nat.le_trans hc.size (Nat.le_of_eq hsize.symm)
    · rw [Workspace.size_finishInstance]
      exact hid'

end Typewire
