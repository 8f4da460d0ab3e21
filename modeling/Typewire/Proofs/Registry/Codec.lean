-- The laws of encoding and decoding in a registry. They are those of its table, and they hold
-- because the table keeps the rules.
import Typewire.Proofs.Registry.Rules
import Typewire.Proofs.Wire.DecodedForm
import Typewire.Proofs.Wire.RoundTrip

namespace Typewire.Registry

open Wire

/-- Bytes that are accepted at the front are the one encoding of the value that they are. -/
theorem accepted_bytes_are_the_encoding {r : Registry} (hr : r.Reachable) {id : TypeId}
    {bytes : List UInt8} {v : Value} {n : Nat} (h : r.table.decodePrefix id bytes = .ok (v, n)) :
    n ≤ bytes.length ∧ r.table.encode id v = .ok (bytes.take n) := by
  obtain ⟨⟨w, rest⟩, hrun, hpair⟩ := except_bind_ok h
  cases hpair
  obtain ⟨front, rfl, hencode⟩ :=
    canonical_decodeWithin hr.closed_and_sound.2 maxLevels id bytes v rest hrun
  have htaken : (front ++ rest).length - rest.length = front.length := by simp
  rw [htaken, List.take_left]
  exact ⟨by simp, Encoding.result_eq_ok.mpr hencode⟩

/-- A table of a 16-bit integer and, at the place after it, of its option. -/
def optionTable : Table :=
  (Table.intern (Table.intern {} (.primitive (.integer ⟨false, .w16⟩))).2
    (.enum [⟨"_None", 0, none⟩, ⟨"_Some", 1, some 0⟩])).2

theorem reachable_optionTable : Reachable { table := optionTable } := by
  have hfirst : (Table.intern {} (.primitive (.integer ⟨false, .w16⟩))).2.Drafted :=
    .interned (s := .primitive (.integer ⟨false, .w16⟩)) .empty rfl
  have hdraft : optionTable.Drafted :=
    .interned (s := .enum [⟨"_None", 0, none⟩, ⟨"_Some", 1, some 0⟩]) hfirst rfl
  exact .made (.built hdraft rfl)

theorem accepted_bytes_are_the_encoding_of_an_option :
    optionTable.decodePrefix 1 [1, 5, 0, 9] = .ok (.integer 5, 3) ∧
      3 ≤ [1, 5, 0, 9].length ∧ optionTable.encode 1 (.integer 5) = .ok [1, 5, 0] := by
  have hread : optionTable.decodePrefix 1 [1, 5, 0, 9] = .ok (.integer 5, 3) := rfl
  exact ⟨hread, accepted_bytes_are_the_encoding reachable_optionTable hread⟩

/-- What is encoded is decoded to its normal form, whatever comes after it, unless it goes more
than 256 levels deep or holds too long a list of elements that take no bytes. A value that has
the form in which values are decoded is equal to its normal form. -/
theorem encoded_values_are_decoded_to_their_normal_form {r : Registry} (hr : r.Reachable)
    {id : TypeId} {v : Value} (hv : v.Short) {bytes : List UInt8}
    (h : r.table.encode id v = .ok bytes) (rest : List UInt8) :
    ((r.table.decodePrefix id (bytes ++ rest) = .ok (normal r.table v id, bytes.length) ∧
        ∀ e, ¬ Unreadable r.table maxLevels (v, id) e) ∨
      ∃ e, r.table.decodePrefix id (bytes ++ rest) = .error e ∧
        Unreadable r.table maxLevels (v, id) e) ∧
    (ReadForm r.table v id → (normal r.table v id == v) = true) := by
  have hsound := hr.closed_and_sound.2
  refine ⟨?_, eq_normal hsound⟩
  have hencode := Encoding.result_eq_ok.mp h
  rcases readBack_decodeWithin hsound maxLevels v id bytes rest hv hencode with
    ⟨hok, hno⟩ | ⟨e, herr, he⟩
  · refine Or.inl ⟨?_, hno⟩
    have hlength : (bytes ++ rest).length - rest.length = bytes.length := by simp
    rw [← hlength]
    change (decodeWithin r.table maxLevels id (bytes ++ rest) >>= _) = _
    rw [hok]
    rfl
  · refine Or.inr ⟨e, ?_, he⟩
    change (decodeWithin r.table maxLevels id (bytes ++ rest) >>= _) = _
    rw [herr]
    rfl

theorem encoded_values_are_decoded_to_their_normal_form_in_an_option :
    (Value.text "5n").Short ∧ optionTable.encode 1 (.text "5n") = .ok [1, 5, 0] ∧
      normal optionTable (.text "5n") 1 = .integer 5 := by
  have hshort : (Value.text "5n").Short := .text (by decide +kernel)
  have hencode : optionTable.encode 1 (.text "5n") = .ok [1, 5, 0] :=
    Encoding.result_eq_ok.mpr (by decide +kernel)
  have hread : optionTable.decodePrefix 1 [1, 5, 0, 9] = .ok (.integer 5, 3) := rfl
  refine ⟨hshort, hencode, ?_⟩
  rcases (encoded_values_are_decoded_to_their_normal_form reachable_optionTable hshort hencode
    [9]).1 with ⟨hok, -⟩ | ⟨e, herr, -⟩
  · have hpair := Except.ok.inj (hread.symm.trans hok)
    exact (congrArg Prod.fst hpair).symm
  · cases hread.symm.trans herr

/-- What is decoded has the form in which values are decoded. -/
theorem decoded_values_have_the_form_of_their_type {r : Registry} (hr : r.Reachable) {id : TypeId}
    {bytes : List UInt8} {v : Value} {n : Nat} (h : r.table.decodePrefix id bytes = .ok (v, n)) :
    ReadForm r.table v id := by
  obtain ⟨⟨w, rest⟩, hrun, hpair⟩ := except_bind_ok h
  cases hpair
  exact readForm_decodeWithin hr.closed_and_sound.2 maxLevels id bytes v rest hrun

end Typewire.Registry
