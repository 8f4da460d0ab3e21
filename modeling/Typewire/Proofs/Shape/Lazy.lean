-- The laws of types that are resolved later. A finished table takes up a type whole or not at
-- all, and what it holds already keeps its place and its shape.
import Typewire.Proofs.Shape.Distinct
import Typewire.Proofs.Shape.Undoing
import Typewire.Shape.Declare

namespace Typewire

open Typewire.Language Resolving

/-! ## What stays -/

/-- One table holds what the other holds, at the same places and under the same names. -/
structure Table.Extends (t t' : Table) : Prop where
  size : t.size ≤ t'.size
  shape? : ∀ id, id < t.size → t'.shape? id = t.shape? id
  positions : t'.positions = t.positions
  positionNames : t'.positionNames = t.positionNames
  names : t'.names = t.names
  generics : t'.generics = t.generics

namespace Table.Extends

variable {t t' t'' : Table}

theorem refl (t : Table) : t.Extends t := ⟨Nat.le_refl _, fun _ _ => rfl, rfl, rfl, rfl, rfl⟩

theorem trans (h : t.Extends t') (h' : t'.Extends t'') : t.Extends t'' where
  size := Nat.le_trans h.size h'.size
  shape? id hid := (h'.shape? id (Nat.lt_of_lt_of_le hid h.size)).trans (h.shape? id hid)
  positions := h'.positions.trans h.positions
  positionNames := h'.positionNames.trans h.positionNames
  names := h'.names.trans h.names
  generics := h'.generics.trans h.generics

theorem intern (t : Table) (s : Shape) : t.Extends (t.intern s).2 := by
  rcases intern_cases t s with ⟨id, -, hi⟩ | ⟨-, hi⟩
  · rw [hi]
    exact refl t
  · rw [hi]
    refine ⟨by simp [Table.size], fun id hid => ?_, rfl, rfl, rfl, rfl⟩
    rw [shape?_push rfl, if_neg (Nat.ne_of_lt hid)]

theorem note (t : Table) (n : Note) : t.Extends (t.note n) := by
  unfold Table.note
  rcases setLabel_cases { t with instances := (n.key, n.id) :: t.instances } n.id n.label with
    hl | hl
  all_goals
    rw [hl]
    exact ⟨Nat.le_refl _, fun _ _ => rfl, rfl, rfl, rfl, rfl⟩

theorem noteAll (t : Table) (notes : List Note) : t.Extends (t.noteAll notes) := by
  induction notes with
  | nil => exact refl t
  | cons n notes ih => exact ih.trans (note _ n)

/-- Filling places beyond a table leaves what it holds. -/
theorem fill (h : t.Extends t') {id : TypeId} (s : Shape) (hid : t.size ≤ id) :
    t.Extends (t'.fill id s) where
  size := Nat.le_trans h.size (Nat.le_of_eq (size_fill id s).symm)
  shape? other hother := by
    rw [shape?_fill_ne s (Nat.ne_of_lt (Nat.lt_of_lt_of_le hother hid)), h.shape? other hother]
  positions := h.positions
  positionNames := h.positionNames
  names := h.names
  generics := h.generics

end Table.Extends

/-- What was resolved since a table holds what that table holds. -/
theorem Workspace.Since.extends {t : Table} {w : Workspace} (h : w.Since t) :
    t.Extends w.table := by
  obtain ⟨notes, -, hrollback, -⟩ := h.notes
  have hback : t.Extends (w.table.rollback t.size) := by
    rw [hrollback]
    exact .noteAll t _
  refine ⟨h.size, fun id hid => ?_, hback.positions, hback.positionNames, hback.names,
    hback.generics⟩
  rw [← Table.shape?_rollback hid, hback.shape? id hid]

/-! ## Taking up a type -/

namespace Table

variable {t t' : Table} {e : TypeExpr}

/-- What resolving a type in the table comes to, before reserved places are filled. -/
def resolving (t : Table) (e : TypeExpr) : Except ResolveError TypeId × Workspace :=
  outcome (Program.resolve {} e [] 0) { table := t }

theorem resolves_resolving (t : Table) (e : TypeExpr) :
    Resolves {} maxInstances (.type e []) 0 { table := t } ((t.resolving e).1.map ([·]))
      (t.resolving e).2 :=
  resolves_resolve {} e [] 0 (Nat.le_refl _)

theorem since_resolving (ht : t.Closed) (e : TypeExpr) : (t.resolving e).2.Since t :=
  (resolves_resolving t e).since (.start ht)

theorem closed_start (ht : t.Closed) : Workspace.Closed { table := t } where
  table := ht
  done i id hi := by simp [Workspace.progressAt] at hi
  underway := ⟨fun _ _ hi => by simp [Workspace.progressAt] at hi, fun _ _ hu => by cases hu⟩
  aliases a ha := by cases ha

theorem closed_resolving (ht : t.Closed) (e : TypeExpr) :
    ComesClosed { table := t } ((t.resolving e).1.map ([·])) (t.resolving e).2 :=
  (resolves_resolving t e).closed (closed_start ht) (by rintro b ⟨⟩)

theorem extend_of_error {x : ResolveError} (h : (t.resolving e).1 = .error x) :
    t.extend e = (.error x, (t.resolving e).2.table.rollback t.size) := by
  rcases hrun : t.resolving e with ⟨y | id, w⟩
  · rw [hrun] at h
    cases h
    unfold extend
    rw [show (Program.resolve {} e [] 0).run.run { table := t } = (.error x, w) from hrun]
    rfl
  · rw [hrun] at h
    cases h

theorem extend_of_ok {id : TypeId} (hid : (t.resolving e).1 = .ok id)
    (hfill : fillAll (t.resolving e).2.table (t.resolving e).2.aliases = .ok t')
    (hcheck : t'.check t.size = .ok ()) : t.extend e = (.ok id, t') := by
  rcases hrun : t.resolving e with ⟨x | other, w⟩
  · rw [hrun] at hid
    cases hid
  · rw [hrun] at hid hfill
    cases hid
    unfold extend
    rw [show (Program.resolve {} e [] 0).run.run { table := t } = (.ok id, w) from hrun]
    simp only [bind, Except.bind, hfill, hcheck]
    rfl

/-- A type is taken up when it resolves, its reserved places can be filled and the new places
keep the rules. Else all is undone. -/
theorem extend_cases (t : Table) (e : TypeExpr) :
    (∃ id t', (t.resolving e).1 = .ok id ∧
      fillAll (t.resolving e).2.table (t.resolving e).2.aliases = .ok t' ∧
      t'.check t.size = .ok () ∧ t.extend e = (.ok id, t')) ∨
    ∃ x, t.extend e = (.error x, (t.resolving e).2.table.rollback t.size) := by
  unfold extend
  rcases hrun : t.resolving e with ⟨x | id, w⟩
  · rw [show (Program.resolve {} e [] 0).run.run { table := t } = (.error x, w) from hrun]
    exact Or.inr ⟨x, rfl⟩
  · rw [show (Program.resolve {} e [] 0).run.run { table := t } = (.ok id, w) from hrun]
    simp only [bind, Except.bind]
    cases hfill : fillAll w.table w.aliases with
    | error x => exact Or.inr ⟨x, rfl⟩
    | ok t' =>
      cases hcheck : t'.check t.size with
      | error x => exact Or.inr ⟨x, by simp only [hcheck]⟩
      | ok u => exact Or.inl ⟨id, t', rfl, rfl, hcheck, by simp only [hcheck]; rfl⟩

theorem extends_extend (ht : t.Closed) (e : TypeExpr) : t.Extends (t.extend e).2 := by
  have hsince := since_resolving ht e
  rcases extend_cases t e with ⟨id, t', -, hfill, -, h⟩ | ⟨x, h⟩
  · rw [h]
    exact fillAll_keeps (fun a ha u s hu => hu.fill s (hsince.aliases a ha)) hsince.extends hfill
  · obtain ⟨notes, -, hrollback, -⟩ := hsince.notes
    rw [h, hrollback]
    exact .noteAll t _

/-- A type that is taken up has a place, and the table speaks of its own places only. -/
theorem closed_extend (ht : t.Closed) (e : TypeExpr) :
    (t.extend e).2.Closed ∧ ∀ id, (t.extend e).1 = .ok id → id < (t.extend e).2.size := by
  have hclosed := closed_resolving ht e
  rcases extend_cases t e with ⟨id, t', hid, hfill, -, h⟩ | ⟨x, h⟩
  · rw [h]
    refine ⟨closed_fillAll hfill hclosed.closed.table
      fun a ha => (hclosed.closed.aliases a ha).1, ?_⟩
    rintro _ ⟨⟩
    rw [size_fillAll hfill]
    rw [hid] at hclosed
    exact hclosed.place
  · obtain ⟨notes, -, hrollback, -⟩ := (since_resolving ht e).notes
    rw [h, hrollback]
    refine ⟨closed_noteAll ht ?_, by rintro _ ⟨⟩⟩
    intro n hn
    simpa using (List.mem_filter.mp hn).2

/-- What fails to be taken up leaves no more than notes at known places. -/
theorem extend_error (ht : t.Closed) {x : ResolveError} (h : t.extend e = (.error x, t')) :
    ∃ notes : List Note,
      (t.resolving e).2.table.instances = notes.map (fun n => (n.key, n.id)) ++ t.instances ∧
      t' = t.noteAll (notes.filter (·.id < t.size)) ∧
      ∀ n ∈ notes, t.instances.lookup n.key = none := by
  obtain ⟨notes, hnotes, hrollback, hnew⟩ := (since_resolving ht e).notes
  rcases extend_cases t e with ⟨id, u, -, -, -, hok⟩ | ⟨y, herr⟩
  · cases hok.symm.trans h
  · cases herr.symm.trans h
    exact ⟨notes, hnotes, hrollback, hnew⟩

/-! ## Sound shapes -/

theorem sound_extend (ht : t.Closed) (hs : t.Sound) (e : TypeExpr) : (t.extend e).2.Sound := by
  have hext := extends_extend ht e
  rcases extend_cases t e with ⟨id, t', -, -, hcheck, h⟩ | ⟨x, h⟩
  · rw [h] at hext ⊢
    refine sound_of_check hcheck fun id s hid hshape => ?_
    rw [hext.shape? id hid] at hshape
    exact hs id s hshape
  · obtain ⟨notes, -, hrollback, -⟩ := (since_resolving ht e).notes
    rw [h, hrollback] at hext ⊢
    intro id s hshape
    have hid : id < t.size := Nat.lt_of_lt_of_eq (lt_size_of_shape? hshape) (size_noteAll t _)
    exact hs id s ((hext.shape? id hid).symm.trans hshape)

end Table

end Typewire
