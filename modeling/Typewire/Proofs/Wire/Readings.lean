-- How values are read. What comes out of a layout is told by one case for each form of value: the
-- bytes of the value's own, and the row of values inside that was read behind them. So a law of
-- all values that are read goes by these cases, and need not follow the steps of the reader.
import Typewire.Proofs.Wire.Rows

namespace Typewire.Wire

/-- The bytes are read as the value by the layout, up to the rest. -/
inductive ReadBy (decode : TypeId → Taking Value) (rest : List UInt8) :
    Layout → List UInt8 → Value → Prop
  | no : ReadBy decode rest .bool (0 :: rest) (.bool false)
  | yes : ReadBy decode rest .bool (1 :: rest) (.bool true)
  | text {body : List UInt8} {s : String} :
      Text.Utf8.decode body = .ok s →
      ReadBy decode rest .str (Compact.write body.length ++ (body ++ rest)) (.text s)
  | integer {k : IntKind} {n : Int} {front : List UInt8} :
      k.holds n = true → writeInt k (valueOf k n) = .ok front →
      ReadBy decode rest (.integer k) (front ++ rest) (valueOf k n)
  | compact {k : IntKind} {n : Nat} :
      k.holds n = true → ReadBy decode rest (.compact k) (Compact.write n ++ rest) (valueOf k n)
  | counted (body : List UInt8) :
      ReadBy decode rest (.bytes none) (Compact.write body.length ++ (body ++ rest)) (.bytes body)
  | bytes (body : List UInt8) :
      ReadBy decode rest (.bytes (some body.length)) (body ++ rest) (.bytes body)
  | sequence {element : TypeId} {zeroSized : Bool} {bytes : List UInt8} {vs : List Value} :
      (zeroSized = true → vs.length ≤ maxZeroSized) →
      takeAll decode (List.replicate vs.length element) bytes = .ok (vs, rest) →
      ReadBy decode rest (.sequence element zeroSized) (Compact.write vs.length ++ bytes) (.list vs)
  | array {element : TypeId} {bytes : List UInt8} {vs : List Value} :
      takeAll decode (List.replicate vs.length element) bytes = .ok (vs, rest) →
      ReadBy decode rest (.array element vs.length) bytes (.list vs)
  | unit : ReadBy decode rest (.tuple []) rest .null
  | tuple {m : TypeId} {ms : List TypeId} {bytes : List UInt8} {vs : List Value} :
      takeAll decode (m :: ms) bytes = .ok (vs, rest) →
      ReadBy decode rest (.tuple (m :: ms)) bytes (.list vs)
  | struct {fields : List Field} {bytes : List UInt8} {vs : List Value} :
      takeAll decode (fields.map (·.type)) bytes = .ok (vs, rest) →
      ReadBy decode rest (.struct fields) bytes (.ofEntries ((fields.map (·.name)).zip vs))
  | bare {variants : List Variant} {name : String} {tag : UInt8} :
      ⟨name, tag, none⟩ ∈ variants →
      ReadBy decode rest (.enum variants) (tag :: rest) (.variant name .null)
  | carrying {variants : List Variant} {name : String} {tag : UInt8} {payload : TypeId}
      {bytes : List UInt8} {w : Value} :
      ⟨name, tag, some payload⟩ ∈ variants → decode payload bytes = .ok (w, rest) →
      ReadBy decode rest (.enum variants) (tag :: bytes) (.variant name w)

variable {decode : TypeId → Taking Value} {bytes rest : List UInt8} {v : Value}

/-! ## Values without values inside -/

theorem readBy_bool (h : takeBool bytes = .ok (v, rest)) : ReadBy decode rest .bool bytes v := by
  obtain ⟨b, mid, hbyte, h⟩ := taking_bind_ok h
  rw [takeByte_ok hbyte]
  split at h
  · cases h
    exact .no
  · cases h
    exact .yes
  · cases h

/-- A run of bytes that is read stands behind its length. -/
theorem counted_ok {n : Nat} {mid after body : List UInt8}
    (hlength : Compact.decodeLength bytes = .ok (n, mid)) (htake : take n mid = .ok (body, after)) :
    bytes = Compact.write body.length ++ (body ++ after) := by
  obtain ⟨rfl, rfl⟩ := take_ok htake
  exact Compact.eq_write_of_decodeLength hlength

theorem readBy_text (h : takeText bytes = .ok (v, rest)) : ReadBy decode rest .str bytes v := by
  obtain ⟨n, mid, hlength, h⟩ := taking_bind_ok h
  obtain ⟨body, mid', htake, h⟩ := taking_bind_ok h
  rw [counted_ok hlength htake]
  cases hdecode : Text.Utf8.decode body with
  | error fault =>
    simp only [hdecode] at h
    cases h
  | ok s =>
    simp only [hdecode] at h
    cases h
    exact .text hdecode

theorem readBy_integer {k : IntKind} (h : takeInt k bytes = .ok (v, rest)) :
    ReadBy decode rest (.integer k) bytes v := by
  obtain ⟨front, rfl, hwrite⟩ := takeInt_ok h
  obtain ⟨body, mid, htake, h⟩ := taking_bind_ok h
  obtain ⟨rfl, rfl⟩ := taking_pure_ok h
  have hlength := (take_ok htake).2
  rw [readInt_eq hlength] at hwrite ⊢
  exact .integer (holds_intOfBytes hlength) hwrite

theorem readBy_compact {k : IntKind} (h : takeCompact k bytes = .ok (v, rest)) :
    ReadBy decode rest (.compact k) bytes v := by
  obtain ⟨n, mid, hn, h⟩ := taking_bind_ok h
  rw [Compact.eq_write_of_decode hn]
  split at h
  · rename_i hholds
    cases h
    exact .compact hholds
  · cases h

theorem readBy_bytes {length : Option Nat} (h : takeBytes length bytes = .ok (v, rest)) :
    ReadBy decode rest (.bytes length) bytes v := by
  cases length with
  | some n =>
    obtain ⟨body, mid, htake, hbody⟩ := taking_bind_ok h
    obtain ⟨rfl, rfl⟩ := take_ok htake
    cases hbody
    exact .bytes body
  | none =>
    obtain ⟨n, mid, hlength, h⟩ := taking_bind_ok h
    obtain ⟨body, mid', htake, h⟩ := taking_bind_ok h
    rw [counted_ok hlength htake]
    cases h
    exact .counted body

/-! ## Values with values inside -/

/-- Items of one type are as many as were asked for, and they were read as a row. -/
theorem items_ok {element : TypeId} {count : Nat} {vs : List Value}
    (h : takeMany (decode element) count [] bytes = .ok (vs, rest)) :
    vs.length = count ∧
      takeAll decode (List.replicate vs.length element) bytes = .ok (vs, rest) := by
  have hall := takeMany_ok h
  have hlength : vs.length = count := by simpa using (takeAll_ok hall).1
  rw [hlength]
  exact ⟨rfl, hall⟩

theorem readBy_sequence {element : TypeId} {zeroSized : Bool}
    (h : decodeLayout decode (.sequence element zeroSized) bytes = .ok (v, rest)) :
    ReadBy decode rest (.sequence element zeroSized) bytes v := by
  obtain ⟨count, mid, hcount, h⟩ := taking_bind_ok h
  rw [Compact.eq_write_of_decodeLength hcount]
  split at h
  · cases h
  · rename_i hshort
    obtain ⟨vs, mid', hmany, h⟩ := taking_bind_ok h
    obtain ⟨rfl, rfl⟩ := taking_pure_ok h
    obtain ⟨rfl, hall⟩ := items_ok hmany
    refine .sequence (fun hzero => ?_) hall
    rw [hzero, Bool.true_and, decide_eq_true_eq] at hshort
    exact Nat.le_of_not_lt hshort

theorem readBy_array {element : TypeId} {length : Nat}
    (h : decodeLayout decode (.array element length) bytes = .ok (v, rest)) :
    ReadBy decode rest (.array element length) bytes v := by
  obtain ⟨vs, mid, hmany, h⟩ := taking_bind_ok h
  obtain ⟨rfl, rfl⟩ := taking_pure_ok h
  obtain ⟨rfl, hall⟩ := items_ok hmany
  exact .array hall

theorem readBy_tuple {members : List TypeId}
    (h : decodeLayout decode (.tuple members) bytes = .ok (v, rest)) :
    ReadBy decode rest (.tuple members) bytes v := by
  cases members with
  | nil =>
    cases h
    exact .unit
  | cons m ms =>
    obtain ⟨vs, mid, hall, h⟩ := taking_bind_ok h
    obtain ⟨rfl, rfl⟩ := taking_pure_ok h
    exact .tuple hall

theorem readBy_struct {fields : List Field}
    (h : decodeLayout decode (.struct fields) bytes = .ok (v, rest)) :
    ReadBy decode rest (.struct fields) bytes v := by
  obtain ⟨entries, mid, hfields, h⟩ := taking_bind_ok h
  obtain ⟨rfl, rfl⟩ := taking_pure_ok h
  obtain ⟨vs, hall, rfl⟩ := takeFields_ok hfields
  exact .struct hall

theorem readBy_enum {variants : List Variant}
    (h : decodeLayout decode (.enum variants) bytes = .ok (v, rest)) :
    ReadBy decode rest (.enum variants) bytes v := by
  obtain ⟨tag, mid, htag, h⟩ := taking_bind_ok h
  rw [takeByte_ok htag]
  cases hfind : variants.find? (·.tag == tag) with
  | none =>
    simp only [hfind] at h
    cases h
  | some x =>
    have hx := List.mem_of_find?_eq_some hfind
    have hxtag : x.tag = tag := by simpa using List.find?_some hfind
    obtain ⟨name, xtag, payload⟩ := x
    subst hxtag
    cases payload with
    | none =>
      simp only [hfind] at h
      cases h
      exact .bare hx
    | some p =>
      simp only [hfind] at h
      obtain ⟨w, mid', hw, h⟩ := taking_bind_ok h
      obtain ⟨rfl, rfl⟩ := taking_pure_ok h
      exact .carrying hx hw

/-! ## Layouts and types -/

theorem readBy_of_decodeLayout {layout : Layout}
    (h : decodeLayout decode layout bytes = .ok (v, rest)) : ReadBy decode rest layout bytes v := by
  cases layout with
  | bool => exact readBy_bool h
  | str => exact readBy_text h
  | integer k => exact readBy_integer h
  | compact k => exact readBy_compact h
  | bytes length => exact readBy_bytes h
  | sequence element zeroSized => exact readBy_sequence h
  | array element length => exact readBy_array h
  | tuple members => exact readBy_tuple h
  | struct fields => exact readBy_struct h
  | enum variants => exact readBy_enum h

/-- The bytes are read as the value of the type, up to the rest, where that many levels are left
for the values inside. -/
inductive ReadAt (t : Table) (levels : Nat) (rest : List UInt8) :
    TypeId → List UInt8 → Value → Prop
  | plain {id : TypeId} {layout : Layout} {bytes : List UInt8} {v : Value} :
      t.form id = .ok (.plain layout) → ReadBy (decodeWithin t levels) rest layout bytes v →
      ReadAt t levels rest id bytes v
  | absent {id : TypeId} {tags : Shape.OptionForm} {layout : Layout} :
      t.form id = .ok (.option tags layout) →
      ReadAt t levels rest id (tags.noneTag :: rest) .null
  | present {id : TypeId} {tags : Shape.OptionForm} {layout : Layout} {bytes : List UInt8}
      {v : Value} :
      t.form id = .ok (.option tags layout) →
      decodeWithin t levels tags.payload bytes = .ok (v, rest) →
      ReadAt t levels rest id (tags.someTag :: bytes) v

theorem readAt_of_decodeWithin {t : Table} {levels : Nat} {id : TypeId}
    (h : decodeWithin t (levels + 1) id bytes = .ok (v, rest)) :
    ReadAt t levels rest id bytes v := by
  cases hform : t.form id with
  | error e =>
    simp only [decodeWithin, hform] at h
    cases h
  | ok form =>
    cases form with
    | plain layout =>
      simp only [decodeWithin, hform] at h
      exact .plain hform (readBy_of_decodeLayout h)
    | option tags layout =>
      simp only [decodeWithin, hform] at h
      obtain ⟨tag, mid, htag, h⟩ := taking_bind_ok h
      rw [takeByte_ok htag]
      split at h
      · rename_i hnone
        subst hnone
        cases h
        exact .absent hform
      split at h
      · rename_i hsome
        subst hsome
        exact .present hform h
      · cases h

theorem readBy_of_decodeWithin {t : Table} {levels : Nat} {id : TypeId} {layout : Layout}
    (hform : t.form id = .ok (.plain layout))
    (h : decodeWithin t (levels + 1) id bytes = .ok (v, rest)) :
    ReadBy (decodeWithin t levels) rest layout bytes v := by
  cases readAt_of_decodeWithin h with
  | plain hplain hread =>
    cases hform.symm.trans hplain
    exact hread
  | absent hoption => cases hform.symm.trans hoption
  | present hoption => cases hform.symm.trans hoption

/-- What holds of a value as soon as it holds of the values that are read inside it holds of
whatever is read. -/
theorem decodeWithin_induction {t : Table}
    {motive : TypeId → List UInt8 → Value → List UInt8 → Prop}
    (step : ∀ levels, (∀ id bytes v rest,
        decodeWithin t levels id bytes = .ok (v, rest) → motive id bytes v rest) →
      ∀ id bytes v rest, ReadAt t levels rest id bytes v → motive id bytes v rest)
    (levels : Nat) :
    ∀ id bytes v rest, decodeWithin t levels id bytes = .ok (v, rest) → motive id bytes v rest := by
  induction levels with
  | zero =>
    intro id bytes v rest h
    cases h
  | succ levels ih =>
    intro id bytes v rest h
    exact step levels ih id bytes v rest (readAt_of_decodeWithin h)

end Typewire.Wire
