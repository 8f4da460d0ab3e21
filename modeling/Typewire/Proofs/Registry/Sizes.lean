-- Zero-sized types of registries. Every registry is grounded, after whatever was asked of it, so
-- the types that are found to be zero-sized have values, and those take no bytes; the values of
-- all other types take some.
import Typewire.Proofs.Registry.World
import Typewire.Proofs.Wire.Sizes

namespace Typewire

open Wire

/-- Every step keeps a table grounded. -/
theorem Table.Grounded.step {t t' : Table} (h : t.Grounded) (ht : t.ClosedWorld)
    (hstep : t.Step t') : t'.Grounded := by
  cases hstep with
  | same => exact h
  | extended e => exact h.extend ht e
  | remembered => exact h.extend ht _
  | tuple hmembers => exact h.tuple ht (lt_of_mapM_typeAt ht.closed hmembers)

namespace Registry

variable {r : Registry}

theorem Made.grounded (h : r.Made) : r.table.Grounded := by
  rcases h.table_cases with ⟨ds, ht⟩ | ⟨-, hcheck⟩
  · exact Table.grounded_ofDefinitions ht
  · obtain ⟨u, -, hguarded⟩ := except_bind_ok hcheck
    exact fun id => Table.acc_of_checkGuarded hguarded (Nat.zero_le id)

/-- In every registry all ways along what values hold come to an end. -/
theorem Reachable.grounded (h : r.Reachable) : r.table.Grounded :=
  (h.table_induction (P := fun t => t.ClosedWorld ∧ t.Grounded)
    (fun _ hm => ⟨hm.world.table, hm.grounded⟩)
    fun _ _ ht hstep => ⟨ht.1.step hstep, ht.2.step ht.1 hstep⟩).2

/-- A type that is found to be zero-sized has a value that is written as nothing; all its values
are, and reading one takes no bytes. The values of any other type are written as one byte at
least, and reading one takes as many. So a list that is read, at any level, has no more elements
than it takes bytes, or at most 65536 elements of a zero-sized type. -/
theorem zero_sized_types_are_those_without_bytes (hr : r.Reachable) (id : TypeId) :
    (r.table.isZeroSized id = true →
      (∃ v, r.form.encode id v = .ok []) ∧
      (∀ v bytes, r.form.encode id v = .ok bytes → bytes = []) ∧
      ∀ bytes v n, r.form.decodePrefix id bytes = .ok (v, n) → n = 0) ∧
    (r.table.isZeroSized id = false →
      (∀ v bytes, r.form.encode id v = .ok bytes → 1 ≤ bytes.length) ∧
      ∀ bytes v n, r.form.decodePrefix id bytes = .ok (v, n) → 1 ≤ n) ∧
    (∀ element, r.table.shape? id = some (.sequence element) →
      ∀ levels bytes v rest, decodeWithin r.form levels id bytes = .ok (v, rest) →
        ∃ front count, bytes = front ++ rest ∧ v.count? = some count ∧
          (r.table.isZeroSized element = false → count ≤ front.length) ∧
          (r.table.isZeroSized element = true → count ≤ 65536)) := by
  have hworld := hr.world
  have hsound := hworld.table.sound
  rw [hworld.form]
  refine ⟨fun hzero => ?_, fun hsome => ?_, fun element hs levels bytes v rest h => ?_⟩
  · have hnot := Table.isZeroSized_iff.mp hzero
    refine ⟨?_, fun v bytes h => ?_, fun bytes v n h => ?_⟩
    · obtain ⟨v, hv⟩ := exists_encode_nil hsound (hr.grounded id) hnot
      exact ⟨v, Encoding.result_eq_ok.mpr hv⟩
    · exact encode_eq_nil hnot (Encoding.result_eq_ok.mp h)
    · obtain ⟨front, rest, -, rfl, hfront⟩ := encode_of_decodePrefix hsound h
      exact List.length_eq_zero_iff.mpr (encode_eq_nil hnot hfront)
  · have htakes := Table.takesBytes_iff.mpr hsome
    refine ⟨fun v bytes h => ?_, fun bytes v n h => ?_⟩
    · exact List.length_pos_iff.mpr (encode_ne_nil htakes (Encoding.result_eq_ok.mp h))
    · obtain ⟨front, rest, -, rfl, hfront⟩ := encode_of_decodePrefix hsound h
      exact List.length_pos_iff.mpr (encode_ne_nil htakes hfront)
  · obtain ⟨front, count, hbytes, hcount, hmany, hzero⟩ := count_of_decodeWithin hsound hs h
    exact ⟨front, count, hbytes, hcount, fun hsome => hmany (Table.takesBytes_iff.mpr hsome),
      fun hz => hzero (Table.isZeroSized_iff.mp hz)⟩

/-- The unit type, three units in a row, and lists of such rows. -/
def unitsRegistry : Registry :=
  { table := (Table.intern (Table.intern (Table.intern {} .unit).2 (.array 0 3)).2 (.sequence 1)).2 }

theorem reachable_unitsRegistry : unitsRegistry.Reachable := by
  have hunit : (Table.intern {} .unit).2.Drafted := .interned (s := .unit) .empty rfl
  have hrow : (Table.intern (Table.intern {} .unit).2 (.array 0 3)).2.Drafted :=
    .interned (s := .array 0 3) hunit rfl
  have hdraft : unitsRegistry.table.Drafted := .interned (s := .sequence 1) hrow rfl
  exact .made (.built hdraft rfl)

theorem rows_of_units_take_no_bytes_and_lists_of_them_some :
    unitsRegistry.Reachable ∧
      unitsRegistry.form.encode 1 (.list [.null, .null, .null]) = .ok [] ∧
      (∀ v bytes, unitsRegistry.form.encode 1 v = .ok bytes → bytes = []) ∧
      (∀ v bytes, unitsRegistry.form.encode 2 v = .ok bytes → 1 ≤ bytes.length) ∧
      ∀ levels bytes v rest, decodeWithin unitsRegistry.form levels 2 bytes = .ok (v, rest) →
        ∃ count, v.count? = some count ∧ count ≤ 65536 := by
  have hcovers : unitsRegistry.table.Covers [0, 1] [0, 1] :=
    List.forall_mem_cons.mpr
      ⟨⟨[], rfl, by decide⟩, List.forall_mem_singleton.mpr ⟨[0], rfl, by decide⟩⟩
  have hzero : unitsRegistry.table.isZeroSized 1 = true :=
    Table.isZeroSized_iff.mpr fun h => hcovers.not_takesBytes h (by decide)
  have hsome : unitsRegistry.table.isZeroSized 2 = false := Table.takesBytes_iff.mp (.here rfl)
  have hencode : unitsRegistry.form.encode 1 (.list [.null, .null, .null]) = .ok [] := rfl
  obtain ⟨hrow, -, -⟩ := zero_sized_types_are_those_without_bytes reachable_unitsRegistry 1
  obtain ⟨-, hlist, hread⟩ := zero_sized_types_are_those_without_bytes reachable_unitsRegistry 2
  refine ⟨reachable_unitsRegistry, hencode, (hrow hzero).2.1, (hlist hsome).1,
    fun levels bytes v rest h => ?_⟩
  obtain ⟨front, count, -, hcount, -, hshort⟩ := hread 1 rfl levels bytes v rest h
  exact ⟨count, hcount, hshort hzero⟩

end Registry

end Typewire
