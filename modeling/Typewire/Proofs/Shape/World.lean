-- A finished table is a world of its own. Every place has a shape, no shape leads out of the
-- table, equal shapes are found by looking one up, and a compact form stands around an unsigned
-- integer. While types are resolved this is not so; it is so again when they are taken up.
import Typewire.Proofs.Shape.Model

namespace Typewire

open Typewire.Language Resolving

/-! ## Checked places -/

theorem Shape.references_of_unguarded {s : Shape} {id : TypeId} (h : id ∈ s.unguarded) :
    id ∈ s.references := by
  cases s with
  | compact | tuple | struct => exact h
  | array element length =>
    change id ∈ (if length = 0 then [] else [element]) at h
    split at h
    · cases h
    · exact h
  | primitive | sequence | enum => cases h

namespace Table

variable {t t' : Table}

/-- What the rules for one place promise: it has a shape, which names places of the table, and a
compact form is around an unsigned integer. -/
structure Checked (t : Table) (id : TypeId) : Prop where
  filled : ∃ s, t.shape? id = some s
  references : ∀ s, t.shape? id = some s → ∀ child ∈ s.references, child < t.size
  unsigned : ∀ inner, t.shape? id = some (.compact inner) → t.isUnsigned inner = true

theorem checked_of_checkPlace {id : TypeId} (h : t.checkPlace id = .ok ()) : t.Checked id := by
  unfold checkPlace at h
  cases hs : t.shape? id with
  | none =>
    rw [hs] at h
    cases h
  | some s =>
    rw [hs] at h
    obtain ⟨u, -, h⟩ := except_bind_ok h
    cases hfind : s.references.find? (!t.contains ·) with
    | some child =>
      rw [hfind] at h
      cases h
    | none =>
      rw [hfind] at h
      have hin := List.find?_eq_none.mp hfind
      refine ⟨⟨s, hs⟩, ?_, ?_⟩
      · intro s' hs' child hchild
        cases hs.symm.trans hs'
        simpa [contains] using hin child hchild
      · intro inner hinner
        cases hs.symm.trans hinner
        cases hu : t.isUnsigned inner with
        | true => rfl
        | false =>
          simp only [hu] at h
          cases h

theorem checked_of_check {mark : Nat} (h : t.check mark = .ok ()) {id : TypeId} (hmark : mark ≤ id)
    (hid : id < t.size) : t.Checked id := by
  obtain ⟨u, hplaces, -⟩ := except_bind_ok h
  exact checked_of_checkPlace (forM_ok hplaces id (mem_places.mpr ⟨hmark, hid⟩))

/-- A place that keeps the rules passes them. -/
theorem checkPlace_of_checked {id : TypeId} (h : t.Checked id) (hsound : t.Sound) :
    t.checkPlace id = .ok () := by
  obtain ⟨s, hs⟩ := h.filled
  have hfind : s.references.find? (!t.contains ·) = none :=
    List.find?_eq_none.mpr fun child hchild => by
      simpa [contains] using h.references s hs child hchild
  unfold checkPlace
  simp only [hs, hsound id s hs, hfind]
  cases s with
  | compact inner =>
    simp only [h.unsigned inner hs]
    rfl
  | _ => rfl

theorem check_of_checked {mark : Nat}
    (h : ∀ id, mark ≤ id → id < t.size → t.Checked id) (hsound : t.Sound)
    (hguarded : t.checkGuarded mark = .ok ()) : t.check mark = .ok () := by
  have hplaces : ((List.range t.size).drop mark).forM t.checkPlace = .ok () := by
    refine forM_of fun id hid => ?_
    obtain ⟨hmark, hlt⟩ := mem_places.mp hid
    exact checkPlace_of_checked (h id hmark hlt) hsound
  unfold check
  rw [hplaces]
  exact hguarded

theorem isUnsigned_congr {id : TypeId} (h : t'.shape? id = t.shape? id) :
    t'.isUnsigned id = t.isUnsigned id := by
  rw [isUnsigned, h, isUnsigned]

theorem shape?_of_isUnsigned {id : TypeId} (h : t.isUnsigned id = true) :
    ∃ width, t.shape? id = some (.primitive (.integer ⟨false, width⟩)) := by
  unfold isUnsigned at h
  split at h
  · rename_i p hs
    cases p with
    | bool => cases h
    | str => cases h
    | integer k =>
      obtain ⟨signed, width⟩ := k
      cases signed with
      | false => exact ⟨width, hs⟩
      | true => cases h
  · cases h

/-! ## Tables with the same lower places -/

/-- Below a bound the tables hold the same shapes, and these are made of places below it. -/
structure SharesBelow (bound : Nat) (t t' : Table) : Prop where
  shapes : ∀ id < bound, t'.shape? id = t.shape? id
  references : ∀ id < bound, ∀ s, t.shape? id = some s → ∀ child ∈ s.references, child < bound

/-- A checked place stays so in a table that has the same lower places. -/
theorem SharesBelow.checked {bound : Nat} {id : TypeId} (h : SharesBelow bound t t')
    (hsize : bound ≤ t'.size) (hid : id < bound) (hchecked : t.Checked id) : t'.Checked id := by
  have hshape := h.shapes id hid
  refine ⟨hshape ▸ hchecked.filled, fun s hs child hchild => ?_, fun inner hs => ?_⟩
  · exact Nat.lt_of_lt_of_le (h.references id hid s (hshape ▸ hs) child hchild) hsize
  · rw [hshape] at hs
    rw [isUnsigned_congr (h.shapes inner (h.references id hid _ hs inner List.mem_cons_self))]
    exact hchecked.unsigned inner hs

/-! ## Closed worlds -/

/-- Every place of the table is checked and sound, every place that the table speaks of is one of
its own, and shapes are found where they stand. A generic instance speaks of the place that it
leads to; its key is only ever compared with other keys. -/
structure ClosedWorld (t : Table) : Prop where
  closed : t.Closed
  sound : t.Sound
  indexed : t.Indexed
  checked : ∀ id, id < t.size → t.Checked id

namespace ClosedWorld

theorem filled (h : t.ClosedWorld) {id : TypeId} (hid : id < t.size) :
    ∃ s, t.shape? id = some s := (h.checked id hid).filled

theorem references (h : t.ClosedWorld) {id : TypeId} {s : Shape} (hs : t.shape? id = some s) :
    ∀ child ∈ s.references, child < t.size :=
  (h.checked id (lt_size_of_shape? hs)).references s hs

theorem unsigned (h : t.ClosedWorld) {id inner : TypeId}
    (hs : t.shape? id = some (.compact inner)) : t.isUnsigned inner = true :=
  (h.checked id (lt_size_of_shape? hs)).unsigned inner hs

/-- Whatever holds what a closed world holds has its places. -/
theorem sharesBelow (h : t.ClosedWorld) (hext : t.Extends t') : SharesBelow t.size t t' :=
  ⟨hext.shape?, fun _ _ _ hs => h.references hs⟩

theorem checked_extends (h : t.ClosedWorld) (hext : t.Extends t') {id : TypeId}
    (hid : id < t.size) : t'.Checked id :=
  (h.sharesBelow hext).checked hext.size hid (h.checked id hid)

/-- A table is a closed world when the old places of one are, and the new ones were checked. -/
theorem of_extends (h : t.ClosedWorld) (hext : t.Extends t') (hclosed : t'.Closed)
    (hsound : t'.Sound) (hindexed : t'.Indexed)
    (hnew : ∀ id, t.size ≤ id → id < t'.size → t'.Checked id) : t'.ClosedWorld where
  closed := hclosed
  sound := hsound
  indexed := hindexed
  checked id hid := by
    rcases Nat.lt_or_ge id t.size with hlt | hge
    · exact h.checked_extends hext hlt
    · exact hnew id hge hid

/-- A finished table is in order: nothing is reserved in it. -/
theorem orderly (h : t.ClosedWorld) : Workspace.Orderly { table := t } where
  reserved := by
    have hfree : Workspace.reservedBy { table := t } = fun _ => none := by
      funext holder
      cases holder with
      | definition i => simp [Workspace.reservedBy, Workspace.progressAt, Progress.reserved]
      | generic key => rfl
      | linked k => rfl
    rw [hfree]
    refine ⟨h.indexed, fun _ _ hid => (by cases hid), fun id hid hnone => ?_,
      fun _ _ _ hid => by cases hid⟩
    obtain ⟨s, hs⟩ := h.filled hid
    cases hnone.symm.trans hs
  fresh _ _ hu := by cases hu

/-- What the resolver leaves to be filled is filled in order. -/
theorem indexed_fillAll (h : t.ClosedWorld) {e : TypeExpr} {id : TypeId}
    (hid : (t.resolving e).1 = .ok id)
    (hfill : fillAll (t.resolving e).2.table (t.resolving e).2.aliases = .ok t') :
    t'.Indexed := by
  have hrun := resolves_resolving t e
  rw [hid] at hrun
  obtain ⟨horderly, -⟩ := hrun.orderly h.orderly
  exact horderly.reserved.indexed.fillAll horderly.pending hfill

theorem noteAll (h : t.ClosedWorld) {notes : List Note} (hnotes : ∀ n ∈ notes, n.id < t.size) :
    (t.noteAll notes).ClosedWorld := by
  have hext := Extends.noteAll t notes
  refine h.of_extends hext (closed_noteAll h.closed hnotes) ?_
    (h.indexed.of_slots (slots_noteAll t notes) (interned_noteAll t notes)) ?_
  · intro id s hs
    exact h.sound id s ((shape?_congr (slots_noteAll t notes) id).symm.trans hs)
  · intro id hge hid
    rw [size_noteAll] at hid
    omega

/-- A table stays a closed world whether a type is taken up or not. -/
theorem extend (h : t.ClosedWorld) (e : TypeExpr) : (t.extend e).2.ClosedWorld := by
  rcases extend_cases t e with ⟨id, t', hid, hfill, hcheck, hext⟩ | ⟨x, hext⟩
  · refine h.of_extends (extends_extend h.closed e) (closed_extend h.closed e).1
      (sound_extend h.closed h.sound e) ?_ ?_
    · rw [hext]
      exact h.indexed_fillAll hid hfill
    · rw [hext]
      exact fun id hge hlt => checked_of_check hcheck hge hlt
  · obtain ⟨notes, -, hrollback, -⟩ := (since_resolving h.closed e).notes
    rw [hext, hrollback]
    refine h.noteAll fun n hn => ?_
    simpa using (List.mem_filter.mp hn).2

theorem withExpression (h : t.ClosedWorld) (text : String) {id : TypeId} (hid : id < t.size) :
    ClosedWorld { t with expressions := (text, id) :: t.expressions } :=
  h.of_extends ⟨Nat.le_refl _, fun _ _ => rfl, rfl, rfl, rfl, rfl⟩ (h.closed.withExpression hid)
    h.sound (h.indexed.of_slots rfl rfl) fun _ hge hlt => absurd hge (Nat.not_le_of_lt hlt)

/-- A tuple of known types can be added. -/
theorem tuple (h : t.ClosedWorld) {members : List TypeId} (hmembers : ∀ id ∈ members, id < t.size) :
    (t.intern (.tuple members)).2.ClosedWorld := by
  refine h.of_extends (.intern t _) (h.closed.intern _).1 (h.sound.intern rfl) (h.indexed.intern _) ?_
  intro id hge hid
  have hshape := shape?_intern_of_size_le (.tuple members) hge hid
  refine ⟨⟨_, hshape⟩, fun s hs child hchild => ?_, fun inner hs => ?_⟩
  · cases hshape.symm.trans hs
    exact Nat.lt_of_lt_of_le (hmembers child hchild) (size_le_intern t _)
  · cases hshape.symm.trans hs

/-- What was built and passes the rules is a closed world. -/
theorem of_check (hclosed : t.Closed) (hindexed : t.Indexed) (hcheck : t.check 0 = .ok ()) :
    t.ClosedWorld where
  closed := hclosed
  sound := sound_of_check hcheck fun id _ hid => absurd hid (Nat.not_lt_zero id)
  indexed := hindexed
  checked _ hid := checked_of_check hcheck (Nat.zero_le _) hid

theorem ofDefinitions {ds : List Definition} (h : Table.ofDefinitions ds = .ok t) :
    t.ClosedWorld := by
  obtain ⟨known, w, hall, -, hrun, hfill, hcheck⟩ := ofDefinitions_ok h
  have hof := Declared.of_all hall
  obtain ⟨horderly, -, -⟩ := resolveAll_keeps (fun _ _ _ _ hw _ hdef => (hdef.orderly hw).1)
    (waiting_start hof) (idle_start hof) (orderly_start hof) hrun
  exact .of_check (closed_ofDefinitions h)
    (horderly.reserved.indexed.fillAll horderly.pending hfill) hcheck

end ClosedWorld

end Table

end Typewire
