-- How long the texts of a registry are. A type that is shown fits its budget of pieces, but for one
-- label at most. Only generic types have labels that are longer than all pieces.
import Typewire.Proofs.Registry.World
import Typewire.Proofs.Shape.Called

namespace Typewire

open Typewire.Language

namespace Table

variable {t t' : Table}

/-! ## Labels of registries -/

theorem Drafted.called (h : t.Drafted) : t.Called :=
  h.keeps (P := Called) (by rintro _ ⟨⟩) (fun _ s ht => ht.intern s) (fun _ ht => ht)
    (fun _ _ _ ht => ht) (fun _ name id ht => ht.bindName name id) fun _ _ _ _ _ ht => ht

theorem Called.step (h : t.Called) (ht : t.Closed) (hstep : t.Step t') : t'.Called := by
  cases hstep with
  | same => exact h
  | extended e => exact h.extend ht e
  | remembered => exact h.extend ht _
  | tuple => exact h.intern _

end Table

namespace Registry

variable {r : Registry}

theorem Made.called (h : r.Made) : r.table.Called := by
  rcases h.table_cases with ⟨ds, ht⟩ | ⟨hdraft, -⟩
  · exact Table.called_ofDefinitions ht
  · exact hdraft.called

/-- In every registry the labels are names of definitions, or call generic instances. -/
theorem Reachable.called (h : r.Reachable) : r.table.Called :=
  (h.table_induction (P := fun t => t.Closed ∧ t.Called)
    (fun _ hm => ⟨hm.closed, hm.called⟩)
    fun _ _ ht hstep => ⟨ht.1.step hstep, ht.2.step ht.1 hstep⟩).2

/-! ## Lengths of texts -/

/-- The text of a type comes to an end by its budget, however much room there is. It is no longer
than the budget of pieces and what the longest label is longer than a piece. Such labels are those
of generic types with arguments: without generic definitions, the text fits the budget. -/
theorem a_shown_type_fits_its_budget_but_for_a_label (hr : r.Reachable) (id : TypeId) :
    (∀ room, Table.textBudget < room →
      spoken (r.table.textWithin room [] id) Table.textBudget = r.table.text id) ∧
    (id < r.size → (r.table.text id).utf8ByteSize
      ≤ Table.textBudget * r.table.longestPiece
        + (r.table.longestLabel - r.table.longestPiece)) ∧
    (r.size ≤ id → r.table.text id = id.text) ∧
    (∀ label ∈ r.table.labels.map (·.2), r.table.longestPiece < label.utf8ByteSize →
      CallsInstance r.table.generics label) ∧
    (r.table.generics = [] → id < r.size →
      (r.table.text id).utf8ByteSize ≤ Table.textBudget * r.table.longestPiece) := by
  have hfilled (hid : id < r.size) : r.table.shape? id ≠ none := by
    obtain ⟨s, hs⟩ := hr.world.table.filled hid
    rw [hs]
    exact Option.some_ne_none s
  refine ⟨fun room hroom => Table.spoken_textWithin_congr hroom [] id,
    fun hid => Table.length_text_le (hfilled hid), fun hid => ?_, fun label hlabel hlong => ?_,
    fun hnone hid => ?_⟩
  · exact Table.text_of_size_le hr.closed_and_sound.1 hid
  · obtain ⟨q, hq, rfl⟩ := List.mem_map.mp hlabel
    refine (hr.called q hq).resolve_left fun hname => Nat.not_le_of_lt hlong ?_
    exact Nat.le_trans (le_longest (List.mem_append_left _ hname)) (Nat.le_max_right 16 _)
  · have hlength := Table.length_text_le (hfilled hid)
    rwa [hr.called.overshoot_eq_zero hnone] at hlength

/-- A generic type of many parameters, and two types that give it arguments: `u8` each time, and
then the first of the two each time. -/
def wideDefinitions : List Definition :=
  [⟨some "P", (List.range 74).map fun i => "T" ++ toString i, .tuple [.named "T0" []], 1⟩,
    ⟨none, [], .named "P" (List.replicate 74 (.named "u8" [])), 2⟩,
    ⟨none, [], .named "P" (List.replicate 74 (.index 1)), 3⟩]

/-- The registry of the three definitions. -/
def wide : Registry := (ofDefinitions wideDefinitions).toOption.getD empty

/-- The label of the last type is written whole, though it is longer than the budget of pieces. -/
theorem a_label_with_many_arguments_does_not_fit_the_budget :
    wide.Reachable ∧ 2 < wide.size ∧
      Table.textBudget * wide.table.longestPiece < (wide.table.text 2).utf8ByteSize ∧
      (wide.table.text 2).utf8ByteSize ≤ Table.textBudget * wide.table.longestPiece
        + (wide.table.longestLabel - wide.table.longestPiece) := by
  have hmade : wide.Reachable := by
    cases h : ofDefinitions wideDefinitions with
    | ok r =>
      rw [wide, h]
      exact .made (.defined h)
    | error x =>
      rw [wide, h]
      exact .made .empty
  have hsize : 2 < wide.size := by decide +kernel
  have hlong : Table.textBudget * wide.table.longestPiece
      < (wide.table.text 2).utf8ByteSize := by decide +kernel
  obtain ⟨-, hbound, -⟩ := a_shown_type_fits_its_budget_but_for_a_label hmade 2
  exact ⟨hmade, hsize, hlong, hbound hsize⟩

end Registry

end Typewire
