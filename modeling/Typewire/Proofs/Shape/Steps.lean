-- What a step comes to. A step runs from a state to an outcome and the state after it, also
-- where it fails; the laws below follow the steps of resolution one by one.
import Typewire.Shape.Resolve

namespace Typewire

/-- What a step comes to from a state, and the state after it. -/
def outcome {ε σ α : Type} (step : ExceptT ε (StateM σ) α) (s : σ) : Except ε α × σ :=
  step.run.run s

/-! ## One step after another -/

section

variable {ε σ α β : Type}

/-- After a step that succeeds, the next starts from what it left. -/
theorem outcome_bind_ok {step : ExceptT ε (StateM σ) α} {s s' : σ} {a : α}
    (h : outcome step s = (.ok a, s')) (next : α → ExceptT ε (StateM σ) β) :
    outcome (step >>= next) s = outcome (next a) s' := by
  change (ExceptT.bindCont next (outcome step s).1).run (outcome step s).2 = _
  rw [h]
  rfl

/-- A step that fails is the last, and what it left stays. -/
theorem outcome_bind_error {step : ExceptT ε (StateM σ) α} {s s' : σ} {e : ε}
    (h : outcome step s = (.error e, s')) (next : α → ExceptT ε (StateM σ) β) :
    outcome (step >>= next) s = (.error e, s') := by
  change (ExceptT.bindCont next (outcome step s).1).run (outcome step s).2 = _
  rw [h]
  rfl

theorem outcome_get (next : σ → ExceptT ε (StateM σ) α) (s : σ) :
    outcome (get >>= next) s = outcome (next s) s := rfl

theorem outcome_modify (f : σ → σ) (next : Unit → ExceptT ε (StateM σ) α) (s : σ) :
    outcome (modify f >>= next) s = outcome (next ()) (f s) := rfl

theorem outcome_map (f : α → β) (step : ExceptT ε (StateM σ) α) (s : σ) :
    outcome (f <$> step) s = ((outcome step s).1.map f, (outcome step s).2) := by
  rcases h : outcome step s with ⟨e | a, s'⟩
  · exact outcome_bind_error h _
  · exact outcome_bind_ok h _

theorem outcome_tryCatch (step : ExceptT ε (StateM σ) α) (handle : ε → ExceptT ε (StateM σ) α)
    (s : σ) :
    outcome (tryCatch step handle) s
      = match outcome step s with
        | (.ok a, s') => (.ok a, s')
        | (.error e, s') => outcome (handle e) s' := by
  simp only [outcome, ExceptT.run_tryCatch, StateT.run_bind]
  generalize StateT.run (ExceptT.run step) s = o
  obtain ⟨e | a, s'⟩ := o <;> rfl

end

namespace Resolving

theorem outcome_table {α : Type} (next : Table → Resolving α) (w : Workspace) :
    outcome (table >>= next) w = outcome (next w.table) w := rfl

theorem outcome_intern (s : Shape) (w : Workspace) :
    outcome (intern s) w
      = (.ok (w.table.intern s).1, { w with table := (w.table.intern s).2 }) := rfl

theorem outcome_setProgress {α : Type} (position : Nat) (p : Progress)
    (next : Unit → Resolving α) (w : Workspace) :
    outcome (setProgress position p >>= next) w
      = outcome (next ()) { w with progress := w.progress.setIfInBounds position p } := rfl

/-- A step inside a definition does what it does, and its error names the definition. -/
theorem outcome_within {α : Type} (line : Nat) (label : String) (step : Resolving α)
    (w : Workspace) :
    outcome (within line label step) w
      = ((outcome step w).1.mapError (·.within line label), (outcome step w).2) := by
  rw [within, outcome_tryCatch]
  rcases outcome step w with ⟨e | a, w'⟩ <;> rfl

end Resolving

open Resolving

/-! ## Meeting and settling -/

/-- The workspace with a new place in its table, and the label of that place. -/
def Workspace.reserve (w : Workspace) (label : Option String) : Workspace :=
  { w with
    table := match label with
      | some label => w.table.reserve.2.setLabel w.table.size label
      | none => w.table.reserve.2 }

/-- A type that is met again goes on only behind a new bracket, and then it has a place. -/
theorem meetAgain_cases (u : Underway) (n : Nat) (label : String) (reservedLabel : Option String)
    (w : Workspace) :
    (n ≤ u.nesting ∧ outcome (meetAgain u n label reservedLabel) w
        = (.error (.infiniteType label), w)) ∨
      (u.nesting < n ∧ ∃ slot, u.reserved = some slot ∧
        outcome (meetAgain u n label reservedLabel) w = (.ok (slot, u), w)) ∨
      (u.nesting < n ∧ u.reserved = none ∧
        outcome (meetAgain u n label reservedLabel) w
          = (.ok (w.table.size, { u with reserved := some w.table.size }),
              w.reserve reservedLabel)) := by
  unfold meetAgain
  by_cases hn : n ≤ u.nesting
  · exact Or.inl ⟨hn, by rw [if_pos hn]; rfl⟩
  · right
    rw [if_neg hn]
    cases hslot : u.reserved with
    | some slot => exact Or.inl ⟨by omega, slot, rfl, rfl⟩
    | none => exact Or.inr ⟨by omega, rfl, by cases reservedLabel <;> rfl⟩

/-- A body that came to a place settles there, unless a place was reserved for it. That place
takes the shape of the body, or waits for it; it cannot be the body itself. -/
theorem settle_cases (u : Underway) (id : TypeId) (label : String) (w : Workspace) :
    (u.reserved = none ∧ outcome (settle u id label) w = (.ok id, w)) ∨
      ∃ slot, u.reserved = some slot ∧
        ((id = slot ∧ outcome (settle u id label) w = (.error (.infiniteType label), w)) ∨
          (∃ s, w.table.shape? id = some s ∧ id ≠ slot ∧
            outcome (settle u id label) w
              = (.ok slot, { w with table := w.table.fill slot s })) ∨
          (w.table.shape? id = none ∧ id ≠ slot ∧
            outcome (settle u id label) w
              = (.ok slot, { w with aliases := w.aliases ++ [(slot, id)] }))) := by
  unfold settle
  cases hslot : u.reserved with
  | none => exact Or.inl ⟨rfl, rfl⟩
  | some slot =>
    refine Or.inr ⟨slot, rfl, ?_⟩
    by_cases hid : id = slot
    · exact Or.inl ⟨hid, by simp only [if_pos hid]; rfl⟩
    · right
      simp only [if_neg hid]
      cases hs : w.table.shape? id with
      | some s => exact Or.inl ⟨s, rfl, hid, by rw [outcome_table]; simp only [hs]; rfl⟩
      | none => exact Or.inr ⟨rfl, hid, by rw [outcome_table]; simp only [hs]; rfl⟩

end Typewire
