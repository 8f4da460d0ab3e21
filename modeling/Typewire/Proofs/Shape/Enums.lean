-- An enum beside the tuple of its payloads. Both are resolved in the same way up to the last step,
-- so where the tuple is taken up, the payloads stand at places that the enum can be made of. The
-- places below are then filled alike, and the enum is refused only for its own names and tags.
import Typewire.Proofs.Shape.Ending
import Typewire.Proofs.Shape.Grounded
import Typewire.Proofs.Shape.Recall
import Typewire.Proofs.Shape.Repeated
import Typewire.Proofs.Shape.Settling

namespace Typewire

open Typewire.Language Resolving

/-! ## A table with an enum above -/

namespace Table.SharesBelow

variable {t t' : Table} {bound : Nat}

/-- With an enum above that is sound and made of the lower places, a table keeps the rules: what
an enum holds is not held by every value of it. -/
theorem check (h : SharesBelow bound t t') (ht : t.ClosedWorld) (hg : t.Grounded)
    (hsize : bound ≤ t.size) (hsize' : bound ≤ t'.size) {vs : List Variant}
    (hcheck : (Shape.enum vs).check = .ok ())
    (hreferences : ∀ child ∈ (Shape.enum vs).references, child < bound)
    (hnew : ∀ id, bound ≤ id → id < t'.size → t'.shape? id = some (.enum vs)) (mark : Nat) :
    t'.check mark = .ok () := by
  have hgrounded : t'.Grounded := by
    refine .of_places fun id hid => ?_
    rcases Nat.lt_or_ge id bound with hlt | hge
    · exact h.acc hlt (hg id)
    · refine Acc.intro id fun child hchild => ?_
      have hmem := hchild.1
      rw [unguarded, hnew id hge hid] at hmem
      cases hmem
  refine hgrounded.check (fun id hid => ?_) (fun id s hs => ?_) mark
  · rcases Nat.lt_or_ge id bound with hlt | hge
    · exact h.checked hsize' hlt (ht.checked id (Nat.lt_of_lt_of_le hlt hsize))
    · have hs := hnew id hge hid
      refine ⟨⟨_, hs⟩, fun s hs' child hchild => ?_, fun inner hinner => ?_⟩
      · cases hs.symm.trans hs'
        exact Nat.lt_of_lt_of_le (hreferences child hchild) hsize'
      · cases hs.symm.trans hinner
  · rcases Nat.lt_or_ge id bound with hlt | hge
    · exact ht.sound id s ((h.shapes id hlt).symm.trans hs)
    · cases (hnew id hge (lt_size_of_shape? hs)).symm.trans hs
      exact hcheck

end Table.SharesBelow

/-! ## Types of two tables -/

/-- The places in the two tables hold the same type: some relation pairs them that pairs places
only where their shapes are made alike of parts that it pairs too. -/
def Table.SameType (t t' : Table) (x y : TypeId) : Prop :=
  ∃ R : TypeId → TypeId → Prop, (∀ x y, R x y → ∃ s s', t.shape? x = some s ∧
    t'.shape? y = some s' ∧ s.Matches R s') ∧ R x y

theorem Table.SameType.lt_size {t t' : Table} {x y : TypeId} (h : t.SameType t' x y) :
    y < t'.size := by
  obtain ⟨R, hR, hxy⟩ := h
  obtain ⟨s, s', -, hs', -⟩ := hR x y hxy
  exact lt_size_of_shape? hs'

/-- The same type stays so while the one table grows and the other keeps its lower places. -/
theorem Table.SameType.keep {d d' t t' : Table} {bound : Nat} {x y : TypeId}
    (h : d.SameType t x y) (hd : d.Extends d') (ht : SharesBelow bound t t') (hy : y < bound) :
    d'.SameType t' x y := by
  obtain ⟨R, hR, hxy⟩ := h
  refine ⟨fun x y => R x y ∧ y < bound, ?_, hxy, hy⟩
  rintro x y ⟨hxy, hy⟩
  obtain ⟨s, s', hs, hs', hmatches⟩ := hR x y hxy
  refine ⟨s, s', (hd.shape? x (lt_size_of_shape? hs)).trans hs, (ht.shapes y hy).trans hs', ?_⟩
  exact hmatches.of_references fun x child hchild hx =>
    ⟨hx, ht.references y hy s' hs' child hchild⟩

/-! ## An enum and the tuple of its payloads -/

namespace Table

variable {t t' : Table} {es : List TypeExpr} {ys : List TypeId} {id : TypeId}

/-- When a tuple is taken up its members have come to places, and the tuple was added to these. -/
theorem members_of_extend (ht : t.ClosedWorld) (h : t.extend (.tuple es) = (.ok id, t'))
    (hmembers : t'.shape? id = some (.tuple ys)) :
    ∃ w, Resolves {} maxInstances (.parts (es.map .ok) []) 1 { table := t } (.ok ys) w ∧
      fillAll (w.table.intern (.tuple ys)).2 w.aliases = .ok t' := by
  rcases extend_cases t (.tuple es) with ⟨_, _, hid, hfill, -, hext⟩ | ⟨x, hext⟩
  · cases hext.symm.trans h
    have hrun := resolves_resolving t (.tuple es)
    have horderly := hrun
    rw [hid] at hrun horderly
    obtain ⟨horderly, -⟩ := horderly.orderly ht.orderly
    have hpending := horderly.pending
    generalize (t.resolving (.tuple es)).2 = w at hrun hfill hpending
    cases hrun with
    | @built _ _ _ _ w _ ids _ hparts hover =>
      cases hover
      obtain ⟨horderly, -⟩ := hparts.orderly ht.orderly
      have hshape := (hpending.fillAll hfill).1 _ _ (horderly.reserved.indexed.shape?_intern _)
      cases hshape.symm.trans hmembers
      exact ⟨w, hparts, hfill⟩
  · cases hext.symm.trans h

variable {vs : List (String × Option TypeExpr × Option Nat)}

/-- An enum with too many variants is refused before any of them is looked at. -/
theorem extend_enum_many (h : vs.length > Shape.maxVariants) :
    (t.extend (.enum vs)).1 = .error .tooManyVariants := by
  have hparts : parts (.enum vs) = [.error .tooManyVariants] := if_pos h
  have hrun : Resolves {} maxInstances (.parts (parts (.enum vs)) []) 1 { table := t }
      (.error .tooManyVariants) { table := t } := hparts ▸ .fault
  exact extend_error_of_resolves (.unbuilt hrun)

/-- The enum is refused for its own names and tags, though its payloads come to places. -/
theorem extend_enum_error (ht : t.ClosedWorld) (h : t.extend (.tuple es) = (.ok id, t'))
    (hmembers : t'.shape? id = some (.tuple ys)) (hparts : parts (.enum vs) = es.map .ok)
    {x : ResolveError} (hcheck : (Shape.enum (variantsOver vs 0 ys)).check = .error x) :
    (t.extend (.enum vs)).1 = .error x := by
  obtain ⟨w, hrun, -⟩ := members_of_extend ht h hmembers
  exact extend_error_of_resolves (.unsound (hparts ▸ hrun) rfl hcheck)

/-- Where all is filled beside one new shape, it is filled alike beside another. -/
theorem fillAll_beside {w : Workspace} {s : Shape} (s' : Shape) (hw : w.Closed)
    (hpending : Pending (w.table.intern s).2 w.aliases)
    (hfill : fillAll (w.table.intern s).2 w.aliases = .ok t') :
    ∃ v, fillAll (w.table.intern s').2 w.aliases = .ok v ∧
      (∀ id < w.table.size, v.shape? id = t'.shape? id) ∧
      ∀ id, w.table.size ≤ id → id < v.size → v.shape? id = some s' := by
  have hsame : ∀ id < w.table.size,
      (w.table.intern s').2.shape? id = (w.table.intern s).2.shape? id := by
    intro id hid
    rw [(Extends.intern w.table s').shape? id hid, (Extends.intern w.table s).shape? id hid]
  obtain ⟨v, hfill', hshapes⟩ :=
    hpending.fillAll_congr (size_le_intern _ s') hw.aliases hsame hfill
  refine ⟨v, hfill', hshapes, fun id hge hlt => ?_⟩
  rw [size_fillAll hfill'] at hlt
  have hslot : id ∉ w.aliases.map Prod.fst := by
    intro hslot
    obtain ⟨a, ha, rfl⟩ := List.mem_map.mp hslot
    exact absurd (hw.aliases a ha).1 (Nat.not_lt_of_le hge)
  rw [shape?_fillAll hfill' hslot]
  exact shape?_intern_of_size_le s' hge hlt

/-- The enum is taken up over the places that its payloads come to in the tuple of them. -/
theorem extend_enum_ok (ht : t.ClosedWorld) (hg : t.Grounded)
    (h : t.extend (.tuple es) = (.ok id, t')) (hmembers : t'.shape? id = some (.tuple ys))
    (hparts : parts (.enum vs) = es.map .ok)
    (hcheck : (Shape.enum (variantsOver vs 0 ys)).check = .ok ()) :
    ∃ place v, t.extend (.enum vs) = (.ok place, v) ∧
      v.shape? place = some (.enum (variantsOver vs 0 ys)) ∧
      ∃ bound, SharesBelow bound t' v ∧ ∀ y ∈ ys, y < bound := by
  obtain ⟨w, hrun, hfill⟩ := members_of_extend ht h hmembers
  have hc := hrun.closed (closed_start ht.closed) (by rintro b ⟨⟩)
  have hplaces := hc.places ys rfl
  have htuple : Resolves {} maxInstances (.type (.tuple es) []) 0 { table := t } _ _ :=
    .built hrun rfl rfl
  have henum : Resolves {} maxInstances (.type (.enum vs) []) 0 { table := t } _ _ :=
    .built (hparts ▸ hrun) rfl hcheck
  have hpending : Pending (w.table.intern (.tuple ys)).2 w.aliases :=
    (htuple.orderly ht.orderly).1.pending
  obtain ⟨v, hfill', hshapes, hnew⟩ :=
    fillAll_beside (.enum (variantsOver vs 0 ys)) hc.closed hpending hfill
  have hsound : Workspace.SoundBelow w.table.size (w.intern (.tuple ys)) :=
    (ht.soundBelow_of_resolves hrun (by rintro b ⟨⟩)).intern rfl hplaces
  -- No place below leads to the tuple, as that came last.
  have hshares : SharesBelow w.table.size t' v := by
    refine ⟨hshapes, fun id _ s hs => ?_⟩
    obtain ⟨place, hplace⟩ := shapes_fillAll hfill hs
    exact (hsound place s hplace).2
  have hcheck' : v.check t.size = .ok () := by
    have hworld := ht.extend (.tuple es)
    have hgrounded := hg.extend ht (.tuple es)
    rw [h] at hworld hgrounded
    have hsize (s : Shape) {u : Table} (hu : fillAll (w.table.intern s).2 w.aliases = .ok u) :
        w.table.size ≤ u.size := (size_fillAll hu).symm ▸ size_le_intern w.table s
    exact hshares.check hworld hgrounded (hsize _ hfill) (hsize _ hfill') hcheck
      (fun child hchild => hplaces child (payloads_variantsOver hchild)) hnew _
  obtain ⟨horderly, -⟩ := henum.orderly ht.orderly
  obtain ⟨horderly', -⟩ := hrun.orderly ht.orderly
  refine ⟨_, v, extend_ok_of_resolves henum hfill' hcheck', ?_, w.table.size, hshares, hplaces⟩
  exact (horderly.pending.fillAll hfill').1 _ _ (horderly'.reserved.indexed.shape?_intern _)

/-- A tuple of types that are found is taken up over their places. -/
theorem Recalls.extend_tuple (ht : t.ClosedWorld) (hg : t.Grounded)
    (h : t.Recalls (.parts (es.map .ok) []) ys) :
    t.extend (.tuple es) = (.ok (t.intern (.tuple ys)).1, (t.intern (.tuple ys)).2) := by
  have hrun : Resolves {} maxInstances (.parts (es.map .ok) []) 1 { table := t } (.ok ys)
      { table := t } := by
    have hrun := resolves_resolving t (.tuple es)
    generalize (t.resolving (.tuple es)).1.map ([·]) = r at hrun
    generalize (t.resolving (.tuple es)).2 = w at hrun
    cases hrun with
    | unbuilt hparts => cases (Recalls.resolves (w := { table := t }) h hparts).1
    | unsound _ hover hcheck =>
      cases hover
      cases hcheck
    | built hparts =>
      obtain ⟨hids, rfl⟩ := Recalls.resolves (w := { table := t }) h hparts
      cases hids
      exact hparts
  have hknown := (hrun.closed (closed_start ht.closed) (by rintro b ⟨⟩)).places ys rfl
  have hworld := ht.tuple hknown
  have htuple : Resolves {} maxInstances (.type (.tuple es) []) 0 { table := t } _ _ :=
    .built hrun rfl rfl
  apply extend_ok_of_resolves htuple
  · rw [Workspace.intern, fillAll]
  · exact (hg.tuple ht hknown).check hworld.checked hworld.sound _

end Table

end Typewire
