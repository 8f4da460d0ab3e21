-- What it does to a registry that types are made ready. Forms are kept, and those kept are the
-- ones that the registry would give anyway; so nothing that is asked later can tell.
import Typewire.Proofs.Shape.Steps
import Typewire.Registry

namespace Typewire.Registry

open Wire

/-! ## One type -/

/-- A form that is kept is the one that the registry gives anyway. -/
theorem form_keep {r : Registry} {id : TypeId} {f : Form} (h : r.form id = .ok f) :
    form { r with ready := (id, f) :: r.ready } = r.form := by
  funext other
  by_cases hother : other = id
  · subst hother
    rw [h]
    simp [form]
  · have hne : (other == id) = false := by simpa using hother
    simp [form, List.lookup_cons, hne]

theorem outcome_prepare_ok {r : Registry} {id : TypeId} {f : Form} (h : r.form id = .ok f) :
    ∃ r', outcome (prepare id) r = (.ok f, r') ∧ r'.table = r.table ∧ r'.form = r.form := by
  unfold prepare
  rw [outcome_get, h]
  by_cases hnew : (r.ready.lookup id).isNone
  · refine ⟨{ r with ready := (id, f) :: r.ready }, ?_, rfl, form_keep h⟩
    simp only [if_pos hnew]
    rfl
  · refine ⟨r, ?_, rfl, rfl⟩
    simp only [if_neg hnew]
    rfl

theorem outcome_prepare_error {r : Registry} {id : TypeId} {x : CodecError}
    (h : r.form id = .error x) : outcome (prepare id) r = (.error (.codec x), r) := by
  unfold prepare
  rw [outcome_get, h]
  rfl

/-! ## Many types -/

/-- The registries differ in the forms that are kept, and in nothing that can be asked. -/
structure Alike (r r' : Registry) : Prop where
  table : r'.table = r.table
  form : r'.form = r.form

theorem Alike.refl (r : Registry) : Alike r r := ⟨rfl, rfl⟩

theorem Alike.trans {r r' r'' : Registry} (h : Alike r r') (h' : Alike r' r'') : Alike r r'' :=
  ⟨h'.table.trans h.table, h'.form.trans h.form⟩

/-- Types are made ready one after another, up to the first that has no form. -/
theorem outcome_prepareAll (ids : List TypeId) (r : Registry) :
    Alike r (outcome (prepareAll ids) r).2 ∧
      ((∀ id ∈ ids, ∃ f, r.form id = .ok f) → (outcome (prepareAll ids) r).1 = .ok ()) := by
  induction ids generalizing r with
  | nil => exact ⟨.refl r, fun _ => rfl⟩
  | cons id ids ih =>
    have hdiscard := outcome_map (fun _ => ()) (prepare id) r
    change outcome (discard (prepare id)) r = _ at hdiscard
    change Alike r (outcome (discard (prepare id) >>= fun _ => prepareAll ids) r).2 ∧
      (_ → (outcome (discard (prepare id) >>= fun _ => prepareAll ids) r).1 = _)
    cases hform : r.form id with
    | error x =>
      rw [outcome_prepare_error hform] at hdiscard
      rw [outcome_bind_error hdiscard]
      refine ⟨.refl r, fun h => ?_⟩
      obtain ⟨f, hf⟩ := h id List.mem_cons_self
      cases hform.symm.trans hf
    | ok f =>
      obtain ⟨r', hrun, htable, hform'⟩ := outcome_prepare_ok hform
      rw [hrun] at hdiscard
      rw [outcome_bind_ok hdiscard]
      obtain ⟨hlike, hok⟩ := ih r'
      refine ⟨.trans ⟨htable, hform'⟩ hlike, fun h => hok fun id hid => ?_⟩
      rw [hform']
      exact h id (List.mem_cons_of_mem _ hid)

/-- Making a type ready does what naming it does, and then keeps forms. It succeeds if the type
has a name and if there are forms for all that lies inside its values. -/
theorem outcome_codec (ref : TypeRef) (r : Registry) :
    Alike (outcome (typeId ref) r).2 (outcome (codec ref) r).2 ∧
      ∀ id r', outcome (typeId ref) r = (.ok id, r') →
        (∀ inner ∈ r'.reachable id, ∃ f, r'.form inner = .ok f) →
        (outcome (codec ref) r).1 = .ok id := by
  unfold codec
  rcases h : outcome (typeId ref) r with ⟨x | id, r'⟩
  · rw [outcome_bind_error h]
    exact ⟨.refl r', fun _ _ h => by cases h⟩
  · rw [outcome_bind_ok h, outcome_get]
    obtain ⟨hlike, hok⟩ := outcome_prepareAll (r'.reachable id) r'
    rcases hrun : outcome (prepareAll (r'.reachable id)) r' with ⟨x | u, r''⟩
    · rw [hrun] at hlike hok
      rw [outcome_bind_error hrun]
      refine ⟨hlike, fun _ _ h hforms => ?_⟩
      cases h
      cases hok hforms
    · rw [hrun] at hlike
      rw [outcome_bind_ok hrun]
      exact ⟨hlike, fun _ _ h _ => by cases h; rfl⟩

end Typewire.Registry
