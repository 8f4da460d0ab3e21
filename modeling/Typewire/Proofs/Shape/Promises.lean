-- What a workspace promises. Shapes, finished definitions and instances, and the places reserved
-- for those underway stay as they are, and an alias gets the shape of its target. A later
-- workspace promises no less, and a table that keeps what is promised later keeps all of it.
import Typewire.Proofs.Shape.Reserved

namespace Typewire

open Typewire.Language Resolving

/-- The place of a definition that has come that far, where it is known already. -/
def Progress.place : Progress → Option TypeId
  | done id => some id
  | underway u => u.reserved
  | _ => none

namespace Workspace

/-- The place of a definition, where it is known already. -/
def placeOf (w : Workspace) (i : Nat) : Option TypeId := (w.progressAt i).place

/-- The place of a generic instance, where it is known already. -/
def instancePlace (w : Workspace) (key : InstanceKey) : Option TypeId :=
  (w.table.instances.lookup key).or ((w.instances.lookup key).bind (·.reserved))

/-- The other workspace promises no less. -/
structure Refines (w w' : Workspace) : Prop where
  shapes : ∀ id s, w.table.shape? id = some s → w'.table.shape? id = some s
  aliases : ∀ a ∈ w.aliases, a ∈ w'.aliases
  definitions : ∀ i id, w.placeOf i = some id → w'.placeOf i = some id
  instances : ∀ key id, w.instancePlace key = some id → w'.instancePlace key = some id
  generics : w'.table.generics = w.table.generics

/-- The table keeps what the workspace promises. -/
structure KeptBy (w : Workspace) (t : Table) : Prop where
  shapes : ∀ id s, w.table.shape? id = some s → t.shape? id = some s
  aliases : ∀ a ∈ w.aliases, t.shape? a.1 = t.shape? a.2
  definitions : ∀ i id, w.placeOf i = some id → t.positions[i]? = some (some id)
  instances : ∀ key id, w.instancePlace key = some id → t.instances.lookup key = some id
  generics : t.generics = w.table.generics

variable {w w' w'' : Workspace} {t : Table}

namespace Refines

theorem refl (w : Workspace) : w.Refines w :=
  ⟨fun _ _ h => h, fun _ h => h, fun _ _ h => h, fun _ _ h => h, rfl⟩

theorem trans (h : w.Refines w') (h' : w'.Refines w'') : w.Refines w'' where
  shapes id s hid := h'.shapes id s (h.shapes id s hid)
  aliases a ha := h'.aliases a (h.aliases a ha)
  definitions i id hi := h'.definitions i id (h.definitions i id hi)
  instances key id hkey := h'.instances key id (h.instances key id hkey)
  generics := h'.generics.trans h.generics

end Refines

theorem KeptBy.of_refines (h : w'.KeptBy t) (hw : w.Refines w') : w.KeptBy t where
  shapes id s hid := h.shapes id s (hw.shapes id s hid)
  aliases a ha := h.aliases a (hw.aliases a ha)
  definitions i id hi := h.definitions i id (hw.definitions i id hi)
  instances key id hkey := h.instances key id (hw.instances key id hkey)
  generics := h.generics.trans hw.generics

/-! ## Places -/

theorem placeOf_eq {i : Nat} {q : Progress} (h : w.progressAt i = q) :
    w.placeOf i = q.place := by
  rw [placeOf, h]

theorem placeOf_congr (h : w'.progress = w.progress) (i : Nat) : w'.placeOf i = w.placeOf i := by
  rw [placeOf, progressAt_of_eq h, placeOf]

theorem placeOf_setProgress_ne {i j : Nat} {q : Progress} (h : i ≠ j) :
    (w.setProgress j q).placeOf i = w.placeOf i := by
  rw [placeOf, progressAt_setProgress_ne h, placeOf]

theorem instancePlace_of_done {key : InstanceKey} {id : TypeId}
    (h : w.table.instances.lookup key = some id) : w.instancePlace key = some id := by
  rw [instancePlace, h, Option.some_or]

theorem instancePlace_of_underway {key : InstanceKey} {u : Underway}
    (hkey : w.table.instances.lookup key = none) (h : w.instances.lookup key = some u) :
    w.instancePlace key = u.reserved := by
  rw [instancePlace, hkey, h, Option.none_or, Option.bind_some]

theorem instancePlace_congr (ht : w'.table.instances = w.table.instances)
    (h : w'.instances = w.instances) (key : InstanceKey) :
    w'.instancePlace key = w.instancePlace key := by
  rw [instancePlace, ht, h, instancePlace]

/-- Only shapes, labels and names are added. -/
theorem Refines.of_shapes
    (hshapes : ∀ id s, w.table.shape? id = some s → w'.table.shape? id = some s)
    (haliases : w'.aliases = w.aliases) (hprogress : w'.progress = w.progress)
    (hinstances : w'.instances = w.instances) (ht : w'.table.instances = w.table.instances)
    (hgenerics : w'.table.generics = w.table.generics) : w.Refines w' where
  shapes := hshapes
  aliases _ ha := haliases ▸ ha
  definitions i _ hi := (placeOf_congr hprogress i).trans hi
  instances key _ hkey := (instancePlace_congr ht hinstances key).trans hkey
  generics := hgenerics

theorem Refines.setProgress {i : Nat} {q : Progress}
    (hq : ∀ id, w.placeOf i = some id → q.place = some id) :
    w.Refines (w.setProgress i q) where
  shapes _ _ h := h
  aliases _ h := h
  definitions j id hj := by
    by_cases hij : j = i
    · subst hij
      have hlt : j < w.progress.size := by
        refine lt_of_progressAt fun hgeneric => ?_
        rw [placeOf, hgeneric] at hj
        cases hj
      rw [placeOf, progressAt_setProgress_self hlt]
      exact hq id hj
    · rw [placeOf_setProgress_ne hij]
      exact hj
  instances _ _ h := h
  generics := rfl

theorem Refines.setInstance {key : InstanceKey} {u : Underway}
    (hu : ∀ v, w.instances.lookup key = some v → ∀ slot, v.reserved = some slot →
      u.reserved = some slot) : w.Refines (w.setInstance key u) where
  shapes _ _ h := h
  aliases _ h := h
  definitions _ _ h := h
  instances other id hother := by
    by_cases hkey : other = key
    · subst hkey
      simp only [instancePlace, Workspace.setInstance, List.lookup_cons, beq_self_eq_true,
        Option.bind_some] at hother ⊢
      cases hdone : w.table.instances.lookup other with
      | some done =>
        rw [hdone, Option.some_or] at hother
        rw [Option.some_or, hother]
      | none =>
        rw [hdone, Option.none_or] at hother
        obtain ⟨v, hv, hslot⟩ := Option.bind_eq_some_iff.mp hother
        rw [Option.none_or]
        exact hu v hv id hslot
    · simp only [instancePlace, Workspace.setInstance, List.lookup_cons, beq_false_of_ne hkey,
        lookup_filter_ne hkey] at hother ⊢
      exact hother
  generics := rfl

theorem Refines.enterInstance {key : InstanceKey} {n : Nat}
    (hkey : w.instances.lookup key = none) : w.Refines (w.enterInstance key n) where
  shapes _ _ h := h
  aliases _ h := h
  definitions _ _ h := h
  instances other id hother := by
    by_cases hother' : other = key
    · subst hother'
      simp only [instancePlace, Workspace.enterInstance, List.lookup_cons, beq_self_eq_true,
        Option.bind_some, hkey, Option.bind_none] at hother ⊢
      exact hother
    · simp only [instancePlace, Workspace.enterInstance, List.lookup_cons,
        beq_false_of_ne hother'] at hother ⊢
      exact hother
  generics := rfl

end Workspace

end Typewire
