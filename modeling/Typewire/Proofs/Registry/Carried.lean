-- Values that are read survive JSON. What comes back is not always the value that was sent, but it
-- is written as the same bytes.
import Typewire.Proofs.Registry.World
import Typewire.Proofs.Wire.Carried

namespace Typewire.Registry

open Wire

/-- Bytes that are read whole are the one encoding of the value that they are. -/
theorem encode_of_decode {t : Table} (ht : t.Sound) {id : TypeId} {bytes : List UInt8} {v : Value}
    (h : t.decode id bytes = .ok v) :
    ReadForm t v id ∧ Wire.encode t v id = .ofBytes bytes := by
  obtain ⟨⟨w, used⟩, hprefix, hwhole⟩ := except_bind_ok h
  obtain ⟨⟨w', rest⟩, hrun, hpair⟩ := except_bind_ok hprefix
  cases hpair
  obtain ⟨front, rfl, hencode⟩ := canonical_decodeWithin ht maxLevels id bytes w rest hrun
  have hread := readForm_decodeWithin ht maxLevels id (front ++ rest) w rest hrun
  simp only at hwhole
  split at hwhole
  · rename_i hused
    cases hwhole
    have hnone : rest = [] := by
      rw [List.length_append, Nat.add_sub_cancel] at hused
      exact List.length_eq_zero_iff.mp (Nat.left_eq_add.mp hused)
    rw [hnone, List.append_nil]
    exact ⟨hread, hencode⟩
  · cases hwhole

/-- A value that was read comes back from its JSON form, and what comes back is written as the
bytes that the value was read from. -/
theorem json_carries_what_was_decoded {r : Registry} (hr : r.Reachable) {id : TypeId}
    {bytes : List UInt8} {v : Value} (h : r.form.decode id bytes = .ok v) :
    ∃ v', Value.ofJson v.toJson = .ok v' ∧ r.form.encode id v' = .ok bytes := by
  have hsound := hr.world.table.sound
  rw [hr.world.form] at h ⊢
  obtain ⟨hread, hencode⟩ := encode_of_decode hsound h
  refine ⟨v.carried, v.ofJson_toJson, ?_⟩
  exact Encoding.result_eq_ok.mpr ((encode_carried hsound hread).trans hencode)

/-- A 64-bit integer beside some bytes, in a tuple at the last place. -/
def wideRegistry : Registry :=
  let t := (Table.intern {} (.primitive (.integer ⟨false, .w64⟩))).2
  let t := (t.intern (.primitive (.integer ⟨false, .w8⟩))).2
  let t := (t.intern (.sequence 1)).2
  { table := (t.intern (.tuple [0, 2])).2 }

theorem reachable_wideRegistry : wideRegistry.Reachable := by
  have hinteger := Table.Drafted.interned (s := .primitive (.integer ⟨false, .w64⟩)) .empty rfl
  have hbyte := Table.Drafted.interned (s := .primitive (.integer ⟨false, .w8⟩)) hinteger rfl
  have hbytes := Table.Drafted.interned (s := .sequence 1) hbyte rfl
  have htuple := Table.Drafted.interned (s := .tuple [0, 2]) hbytes rfl
  exact .made (.built htuple rfl)

theorem json_carries_a_wide_integer_beside_bytes :
    wideRegistry.form.decode 3 [255, 255, 255, 255, 255, 255, 255, 255, 8, 1, 2]
        = .ok (.list [.bigInteger 18446744073709551615, .bytes [1, 2]]) ∧
      ∃ v', Value.ofJson (Value.list [.bigInteger 18446744073709551615, .bytes [1, 2]]).toJson
          = .ok v' ∧
        wideRegistry.form.encode 3 v'
          = .ok [255, 255, 255, 255, 255, 255, 255, 255, 8, 1, 2] := by
  have hread : wideRegistry.form.decode 3 [255, 255, 255, 255, 255, 255, 255, 255, 8, 1, 2]
      = .ok (.list [.bigInteger 18446744073709551615, .bytes [1, 2]]) := rfl
  exact ⟨hread, json_carries_what_was_decoded reachable_wideRegistry hread⟩

end Typewire.Registry
