-- Values in a row. Items of one type and fields are read and written as any row of values is,
-- each of its own type, so a law of rows is a law of lists, tuples and structs.
import Typewire.Proofs.Wire.Encoding
import Typewire.Proofs.Wire.Numbers
import Typewire.Wire.Decode

namespace Typewire.Wire

/-! ## Writing a row -/

/-- The encodings of some values in a row. -/
def encodeRow (forms : Forms) (ps : List (Value × TypeId)) : Encoding :=
  .concat (ps.map fun p => encode forms p.1 p.2)

theorem map_pair (items : List Value) (element : TypeId) :
    items.map (·, element) = items.zip (List.replicate items.length element) := by
  induction items with
  | nil => rfl
  | cons v vs ih =>
    rw [List.map_cons, ih]
    rfl

theorem encodeMembers_eq (forms : Forms) (items : List Value) (ids : List TypeId) :
    encodeMembers forms items ids = encodeRow forms (items.zip ids) := by
  induction items generalizing ids with
  | nil => rfl
  | cons v vs ih =>
    cases ids with
    | nil => rfl
    | cons id ids =>
      rw [encodeMembers, ih]
      rfl

theorem encodeItems_eq (forms : Forms) (items : List Value) (id : TypeId) :
    encodeItems forms items id = encodeRow forms (items.map (·, id)) := by
  induction items with
  | nil => rfl
  | cons v vs ih =>
    rw [encodeItems, ih]
    rfl

/-- Fields are written as a row of the values under their names. -/
theorem map_encodeField {t : Table} {all : List (String × Value)} {fields : List Field}
    {vs : List Value} (hlength : vs.length = fields.length)
    (h : ∀ e ∈ (fields.map (·.name)).zip vs, all.lookup e.1 = some e.2) :
    fields.map (encodeField t all)
      = (vs.zip (fields.map (·.type))).map fun p => encode t p.1 p.2 := by
  induction fields generalizing vs with
  | nil =>
    cases List.length_eq_zero_iff.mp hlength
    rfl
  | cons f fields ih =>
    cases vs with
    | nil => cases hlength
    | cons v vs =>
      have hlookup : all.lookup f.name = some v := h (f.name, v) List.mem_cons_self
      have hrest := ih (Nat.succ.inj hlength) fun e he => h e (List.mem_cons_of_mem _ he)
      rw [List.map_cons, hrest, encodeField, hlookup]
      rfl

/-! ## Reading a row -/

theorem takeMany_eq (decode : TypeId → Taking Value) (id : TypeId) (count : Nat)
    (before : List Value) :
    takeMany (decode id) count before
      = do return before.reverse ++ (← takeAll decode (List.replicate count id)) := by
  induction count generalizing before with
  | zero => simp [takeMany, takeAll]
  | succ count ih => simp [takeMany, takeAll, List.replicate_succ, ih]

theorem takeFields_eq (decode : TypeId → Taking Value) (fields : List Field) :
    takeFields decode fields
      = do return (fields.map (·.name)).zip (← takeAll decode (fields.map (·.type))) := by
  induction fields with
  | nil => simp [takeFields, takeAll]
  | cons f fields ih => simp [takeFields, takeAll, ih]

theorem takeMany_ok {decode : TypeId → Taking Value} {id : TypeId} {count : Nat}
    {vs : List Value} {bytes rest : List UInt8}
    (h : takeMany (decode id) count [] bytes = .ok (vs, rest)) :
    takeAll decode (List.replicate count id) bytes = .ok (vs, rest) := by
  simpa [takeMany_eq] using h

theorem takeFields_ok {decode : TypeId → Taking Value} {fields : List Field}
    {entries : List (String × Value)} {bytes rest : List UInt8}
    (h : takeFields decode fields bytes = .ok (entries, rest)) :
    ∃ vs, takeAll decode (fields.map (·.type)) bytes = .ok (vs, rest) ∧
      entries = (fields.map (·.name)).zip vs := by
  rw [takeFields_eq] at h
  obtain ⟨vs, mid, hvs, hpure⟩ := taking_bind_ok h
  obtain ⟨rfl, rfl⟩ := taking_pure_ok hpure
  exact ⟨vs, hvs, rfl⟩

/-- What is read as a row has one value for each type, and each was read. -/
theorem takeAll_ok {decode : TypeId → Taking Value} {ids : List TypeId} {vs : List Value}
    {bytes rest : List UInt8} (h : takeAll decode ids bytes = .ok (vs, rest)) :
    vs.length = ids.length ∧
      ∀ p ∈ vs.zip ids, ∃ bytes rest, decode p.2 bytes = .ok (p.1, rest) := by
  induction ids generalizing vs bytes with
  | nil =>
    cases h
    exact ⟨rfl, fun p hp => by cases hp⟩
  | cons id ids ih =>
    obtain ⟨v, mid, hv, htail⟩ := taking_bind_ok h
    obtain ⟨ws, mid', hws, hpure⟩ := taking_bind_ok htail
    obtain ⟨rfl, rfl⟩ := taking_pure_ok hpure
    obtain ⟨hlength, hothers⟩ := ih hws
    refine ⟨congrArg Nat.succ hlength, fun p hp => ?_⟩
    rcases List.mem_cons.mp hp with rfl | hp
    · exact ⟨bytes, mid, hv⟩
    · exact hothers p hp

end Typewire.Wire
