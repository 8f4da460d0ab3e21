-- Whatever is resolved comes to what it denotes. The induction is over the rules of resolution,
-- and each rule promises what the rules before it promised.
import Typewire.Proofs.Shape.Faithful

namespace Typewire

open Typewire.Language Resolving

/-- The generic definition of a task is the one that the table has. -/
def Task.Known (w : Workspace) : Task → Prop
  | .generic g key => w.table.generics.lookup key.name = some g
  | _ => True

/-- A task came to the places that it denotes, in every table that keeps what is promised. -/
structure Arrives (p : Program) (task : Task) (w : Workspace) (ids : List TypeId)
    (w' : Workspace) : Prop where
  refines : w.Refines w'
  faithful : w'.Faithful p
  denoted : ∀ t, w'.KeptBy t → task.Denoted p t ids

theorem genericOf_ok {p : Program} {t : Table} {s : Bindings} {name : String} {given : Nat}
    {g : Generic} (h : p.genericOf t s name given = .ok g) :
    t.generics.lookup name = some g ∧ g.params.length = given := by
  unfold Program.genericOf at h
  split at h
  · cases h
  · split at h
    · cases h
    · rename_i hg
      split at h
      · rename_i hlength
        cases h
        exact ⟨hg, hlength⟩
      · cases h

variable {p : Program} {w w' w'' : Workspace}

theorem Arrives.one_intern {task : Task} {s : Shape} {ids : List TypeId} (hw : w.Refines w')
    (hw' : w'.Faithful p)
    (hdenoted : ∀ t, w'.KeptBy t → t.shape? (w'.table.intern s).1 = some s → task.Denoted p t ids) :
    Arrives p task w ids (w'.intern s) where
  refines := hw.trans (Workspace.refines_intern w' s)
  faithful := hw'.intern s
  denoted t ht := hdenoted t (ht.of_refines (Workspace.refines_intern w' s))
    (ht.shapes _ s (hw'.orderly.reserved.indexed.shape?_intern s))

/-- A position past the definitions is no place of a faithful workspace. -/
theorem typeAt_of_le (hw : w.Faithful p) {i : Nat} (hi : p.definitions.size ≤ i) {id : TypeId} :
    w.table.typeAt i ≠ .ok id := by
  have hnone : w.table.positions[i]? = none :=
    Array.getElem?_eq_none (by rw [hw.positions]; exact hi)
  rw [Table.typeAt, hnone]
  exact fun h => by cases h

theorem Arrives.definition_of_place {i : Nat} {id : TypeId} (hw : w.Refines w')
    (hw' : w'.Faithful p) (hi : w'.placeOf i = some id) :
    Arrives p (.definition i) w [id] w' where
  refines := hw
  faithful := hw'
  denoted _ ht := ⟨id, id, rfl, ht.definitions i id hi, rfl⟩

theorem Arrives.generic_of_place {g : Generic} {key : InstanceKey} {id : TypeId}
    (hw : w.Refines w') (hw' : w'.Faithful p) (hkey : w'.instancePlace key = some id) :
    Arrives p (.generic g key) w [id] w' where
  refines := hw
  faithful := hw'
  denoted _ ht := ⟨id, id, rfl, ht.instances key id hkey, rfl⟩

/-- Whatever is resolved comes to what it denotes. -/
theorem Resolves.arrives {room : Nat} {task : Task} {n : Nat} {ids : List TypeId}
    (h : Resolves p room task n w (.ok ids) w') (hw : w.Faithful p) (hknown : task.Known w) :
    Arrives p task w ids w' := by
  induction h using Resolves.ok_induction with
  | nil => exact ⟨.refl _, hw, fun _ _ => .nil⟩
  | next _ _ ih ih' =>
    have hfirst := ih hw trivial
    have hrest := ih' hfirst.faithful trivial
    refine ⟨hfirst.refines.trans hrest.refines, hrest.faithful, fun t ht => ?_⟩
    obtain ⟨id, hid, hdenotes⟩ := hfirst.denoted t (ht.of_refines hrest.refines)
    cases hid
    exact .cons hdenotes (hrest.denoted t ht)
  | built _ hover _ ih =>
    have hparts := ih hw trivial
    exact .one_intern hparts.refines hparts.faithful fun t ht hid =>
      ⟨_, rfl, .built hover (hparts.denoted t ht) hid⟩
  | index _ _ ih =>
    have hdef := ih hw trivial
    refine ⟨hdef.refines, hdef.faithful, fun t ht => ?_⟩
    obtain ⟨id, y, hids, hi, hid⟩ := hdef.denoted t ht
    exact ⟨id, hids, .index hi hid⟩
  | placed hi hplace => exact absurd hplace (typeAt_of_le hw hi)
  | bound hs => exact ⟨.refl _, hw, fun _ _ => ⟨_, rfl, .bound hs rfl⟩⟩
  | declared hs hname _ ih =>
    have hdef := ih hw trivial
    refine ⟨hdef.refines, hdef.faithful, fun t ht => ?_⟩
    obtain ⟨id, y, hids, hi, hid⟩ := hdef.denoted t ht
    exact ⟨id, hids, .declared hs hname hi hid⟩
  | known _ hname hbound =>
    obtain ⟨i, hi, -⟩ := hw.bound _ _ hbound
    cases hname.symm.trans hi
  | primitive hs hname _ hprim =>
    exact .one_intern (.refl _) hw fun t _ hid => ⟨_, rfl, .primitive hs hname hprim hid⟩
  | applied hg _ _ ih ih' =>
    obtain ⟨hg, hlength⟩ := genericOf_ok hg
    have hargs := ih hw trivial
    have hinst := ih' hargs.faithful (by rw [Task.Known, hargs.refines.generics, hg])
    refine ⟨hargs.refines.trans hinst.refines, hinst.faithful, fun t ht => ?_⟩
    obtain ⟨id, y, hids, hkey, hid⟩ := hinst.denoted t ht
    have hkept := ht.of_refines (hargs.refines.trans hinst.refines)
    refine ⟨id, hids, .applied (by rw [hkept.generics, hg]) hlength ?_ hkey hid⟩
    exact hargs.denoted t (ht.of_refines hinst.refines)
  | done hi => exact .definition_of_place (.refl _) hw (Workspace.placeOf_eq hi)
  | again hi hmeet =>
    obtain ⟨hrefines, hfaithful⟩ := hw.meetDefinition hi hmeet
    obtain ⟨hp, -⟩ := progress_meetAgain hmeet
    refine .definition_of_place hrefines hfaithful ?_
    have hlt := Workspace.lt_of_progressAt (show _ ≠ Progress.generic by rw [hi]; simp)
    rw [Workspace.placeOf_eq (Workspace.progressAt_setProgress_self (hp ▸ hlt))]
    exact (underway_meetAgain hmeet).2
  | defined hi _ hu hsettle ih =>
    obtain ⟨henter, hentered⟩ := hw.enterDefinition hi _
    have hbody := ih hentered trivial
    obtain ⟨hp, -⟩ := progress_settle hsettle
    have hlt := Workspace.lt_of_progressAt (show _ ≠ Progress.generic by rw [hu]; simp)
    refine .definition_of_place (henter.trans (hbody.refines.trans
      (Workspace.refines_finishDefinition hbody.faithful.orderly hu hsettle _))) ?_
      (Workspace.placeOf_eq (Workspace.progressAt_finishDefinition_self (hp ▸ hlt) _ _))
    refine hbody.faithful.finishDefinition hu hsettle fun t ht => ?_
    obtain ⟨id, hids, hdenotes⟩ := hbody.denoted t ht
    cases hids
    exact hdenotes
  | cached hid => exact .generic_of_place (.refl _) hw (Workspace.instancePlace_of_done hid)
  | againInstance hnone hkey hmeet =>
    obtain ⟨hrefines, hfaithful⟩ := hw.meetInstance hkey hmeet
    exact .generic_of_place hrefines hfaithful (Workspace.instancePlace_meetInstance hnone hmeet)
  | instantiated hnone hkey _ hu hsettle ih =>
    obtain ⟨henter, hentered⟩ := hw.enterInstance hnone hkey _
    have hbody := ih hentered trivial
    have hg : _ = some _ := (congrArg _ hbody.refines.generics).trans hknown
    refine .generic_of_place (henter.trans (hbody.refines.trans
      (Workspace.refines_finishInstance hbody.faithful.orderly hu hsettle))) ?_ ?_
    · refine hbody.faithful.finishInstance hu hsettle hg fun t ht => ?_
      obtain ⟨id, hids, hdenotes⟩ := hbody.denoted t ht
      cases hids
      exact hdenotes
    · refine Workspace.instancePlace_of_done ?_
      rw [(Workspace.notes_finishInstance _ _ _ _).2.2.2.2]
      simp

end Typewire
