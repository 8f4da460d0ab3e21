-- Lists of integers on the wire. They are written item by item, single bytes all at once. Both
-- come to the same bytes, but for one thing: text is an integer by itself and in all lists of
-- integers but those of single bytes.
import Typewire.Proofs.Registry.Sizes
import Typewire.Proofs.Wire.TwosComplement

namespace Typewire

namespace Wire

/-! ## Rows of items -/

/-- The bytes are those of some values of one type, one after the other. -/
def ItemBytes (forms : Forms) (element : TypeId) (items : List Value) (bytes : List UInt8) : Prop :=
  ∃ rows, List.Forall₂ (fun v row => forms.encode element v = .ok row) items rows ∧
    bytes = rows.flatten

theorem itemBytes_nil {forms : Forms} {element : TypeId} {bytes : List UInt8} :
    ItemBytes forms element [] bytes ↔ bytes = [] := by
  constructor
  · rintro ⟨rows, hrows, rfl⟩
    cases hrows
    rfl
  · rintro rfl
    exact ⟨[], .nil, rfl⟩

theorem itemBytes_cons {forms : Forms} {element : TypeId} {v : Value} {vs : List Value}
    {bytes : List UInt8} :
    ItemBytes forms element (v :: vs) bytes ↔ ∃ row rest, forms.encode element v = .ok row ∧
      ItemBytes forms element vs rest ∧ bytes = row ++ rest := by
  constructor
  · rintro ⟨rows, hrows, rfl⟩
    cases hrows with
    | @cons _ row _ rows hrow hrows => exact ⟨row, rows.flatten, hrow, ⟨rows, hrows, rfl⟩, rfl⟩
  · rintro ⟨row, rest, hrow, ⟨rows, hrows, rfl⟩, rfl⟩
    exact ⟨row :: rows, .cons hrow hrows, rfl⟩

theorem append_eq_ofBytes_iff {a b : Encoding} {bytes : List UInt8} :
    a ++ b = .ofBytes bytes ↔
      ∃ front back, a = .ofBytes front ∧ b = .ofBytes back ∧ bytes = front ++ back := by
  constructor
  · exact Encoding.append_eq_ofBytes
  · rintro ⟨front, back, rfl, rfl, rfl⟩
    rfl

theorem encodeItems_iff {forms : Forms} {element : TypeId} {items : List Value}
    {bytes : List UInt8} :
    encodeItems forms items element = .ofBytes bytes ↔ ItemBytes forms element items bytes := by
  induction items generalizing bytes with
  | nil =>
    rw [encodeItems, itemBytes_nil]
    constructor
    · intro h
      cases h
      rfl
    · rintro rfl
      rfl
  | cons v vs ih =>
    rw [encodeItems, itemBytes_cons, append_eq_ofBytes_iff]
    simp only [ih, Forms.encode, Encoding.result_eq_ok]

/-! ## Items that are bytes -/

/-- The type of single bytes. -/
abbrev byteKind : IntKind := ⟨false, .w8⟩

theorem result_ofExcept (r : Except CodecError (List UInt8)) :
    (Encoding.ofExcept r).result = r := by
  cases r <;> rfl

/-- A value of an integer type is written as an integer. -/
theorem encode_integer {t : Table} {id : TypeId} {k : IntKind}
    (h : t.shape? id = some (.primitive (.integer k))) (v : Value) :
    Forms.encode t id v = writeInt k v := by
  have hform : t.form id = .ok (.plain (.integer k)) := by
    rw [form_of_shape? h rfl]
    rfl
  rw [Forms.encode, encode_plain hform, encodeAs_integer, result_ofExcept]

theorem intBytes_byte {n : Int} (h : byteKind.holds n = true) :
    intBytes byteKind n = [UInt8.ofNat n.toNat] ∧ 0 ≤ n ∧ n < 256 := by
  obtain ⟨hlow, hhigh⟩ := holds_iff.mp h
  change 0 ≤ n at hlow
  change n < 256 at hhigh
  refine ⟨?_, hlow, hhigh⟩
  rw [intBytes]
  change [UInt8.ofNat (n % 256).toNat] = _
  rw [Int.emod_eq_of_lt hlow hhigh]

/-- An item of a list of bytes is a byte if it is an integer of one byte and no text. -/
theorem byteOf_iff {v : Value} {b : UInt8} :
    byteOf v = .ok b ↔ v.text? = none ∧ writeInt byteKind v = .ok [b] := by
  have hint {n : Int} (hn : v.int? = some n) (hgives : Gives n v) :
      byteOf v = .ok b ↔ writeInt byteKind v = .ok [b] := by
    rw [byteOf, hn, writeInt_of_gives hgives]
    by_cases hholds : byteKind.holds n = true
    · obtain ⟨hbytes, hrange⟩ := intBytes_byte hholds
      simp only [if_pos hholds, if_pos hrange, hbytes, Except.ok.injEq, List.cons.injEq, and_true]
    · have hrange : ¬ (0 ≤ n ∧ n < 256) := mt (fun h => holds_iff.mpr h) hholds
      simp only [if_neg hholds, if_neg hrange, reduceCtorEq]
  cases v with
  | integer n => exact (hint rfl (.native rfl)).trans (by simp [Value.text?])
  | bigInteger n => exact (hint rfl .wide).trans (by simp [Value.text?])
  | text s => simp [byteOf, Value.int?, Value.text?]
  | _ =>
    constructor
    · intro h
      cases h
    · rintro ⟨-, h⟩
      cases h

theorem length_of_writeInt {k : IntKind} {v : Value} {bytes : List UInt8}
    (h : writeInt k v = .ok bytes) : bytes.length = k.width.bytes := by
  rw [writeInt_eq] at h
  cases hn : intWithin v k with
  | error e =>
    rw [hn] at h
    cases h
  | ok n =>
    rw [hn] at h
    cases h
    exact length_intBytes k n

theorem mapM_byteOf_iff {t : Table} {element : TypeId}
    (h : t.shape? element = some (.primitive (.integer byteKind))) {items : List Value}
    {bytes : List UInt8} :
    items.mapM byteOf = .ok bytes ↔
      (∀ v ∈ items, v.text? = none) ∧ ItemBytes t element items bytes := by
  induction items generalizing bytes with
  | nil =>
    rw [itemBytes_nil]
    constructor
    · intro h
      cases h
      exact ⟨by simp, rfl⟩
    · rintro ⟨-, rfl⟩
      rfl
  | cons v vs ih =>
    rw [itemBytes_cons, List.forall_mem_cons, encode_integer h]
    constructor
    · intro hmap
      rw [List.mapM_cons] at hmap
      obtain ⟨b, hb, hmap⟩ := except_bind_ok hmap
      obtain ⟨bs, hbs, hmap⟩ := except_bind_ok hmap
      cases hmap
      obtain ⟨hnone, hwrite⟩ := byteOf_iff.mp hb
      obtain ⟨hnones, hrest⟩ := ih.mp hbs
      exact ⟨⟨hnone, hnones⟩, [b], bs, hwrite, hrest, rfl⟩
    · rintro ⟨⟨hnone, hnones⟩, row, rest, hwrite, hrest, rfl⟩
      obtain ⟨b, rfl⟩ := List.length_eq_one_iff.mp (length_of_writeInt hwrite)
      rw [List.mapM_cons, byteOf_iff.mpr ⟨hnone, hwrite⟩, ih.mpr ⟨hnones, hrest⟩]
      rfl

theorem ItemBytes.length {t : Table} {element : TypeId}
    (h : t.shape? element = some (.primitive (.integer byteKind))) {items : List Value}
    {bytes : List UInt8} (hbytes : ItemBytes t element items bytes) :
    bytes.length = items.length := by
  induction items generalizing bytes with
  | nil =>
    rw [itemBytes_nil.mp hbytes]
    rfl
  | cons v vs ih =>
    obtain ⟨row, rest, hrow, hrest, rfl⟩ := itemBytes_cons.mp hbytes
    rw [encode_integer h] at hrow
    have hone : row.length = 1 := length_of_writeInt hrow
    rw [List.length_append, hone, ih hrest, List.length_cons, Nat.add_comm]

/-! ## Lists of integers -/

section

variable {t : Table} {id element : TypeId} {k : IntKind} {items : List Value} {bytes : List UInt8}

/-- Bytes are written all at once. -/
theorem encode_bytes {length : Option Nat} (h : t.form id = .ok (.plain (.bytes length)))
    (v : Value) : Forms.encode t id v = encodeBytes length v := by
  rw [Forms.encode, encode_plain h, encodeAs_bytes, result_ofExcept]

theorem encodeBytes_counted (he : t.shape? element = some (.primitive (.integer byteKind))) :
    encodeBytes none (.list items) = .ok bytes ↔ (∀ v ∈ items, v.text? = none) ∧
      ∃ row, ItemBytes t element items row ∧ bytes = Compact.write items.length ++ row := by
  constructor
  · intro h
    obtain ⟨row, hmap, h⟩ := except_bind_ok h
    obtain ⟨hnone, hrow⟩ := (mapM_byteOf_iff he).mp hmap
    rw [← hrow.length he]
    exact ⟨hnone, row, hrow, (Except.ok.inj h).symm⟩
  · rintro ⟨hnone, row, hrow, rfl⟩
    have hmap : bytesOf (.list items) = .ok row := (mapM_byteOf_iff he).mpr ⟨hnone, hrow⟩
    rw [encodeBytes, hmap, ← hrow.length he]
    rfl

theorem encodeBytes_fixed {n : Nat}
    (he : t.shape? element = some (.primitive (.integer byteKind))) :
    encodeBytes (some n) (.list items) = .ok bytes ↔ (∀ v ∈ items, v.text? = none) ∧
      items.length = n ∧ ItemBytes t element items bytes := by
  constructor
  · intro h
    obtain ⟨row, hmap, h⟩ := except_bind_ok h
    obtain ⟨hnone, hrow⟩ := (mapM_byteOf_iff he).mp hmap
    simp only at h
    split at h
    · rename_i hlength
      cases h
      exact ⟨hnone, (hrow.length he).symm.trans hlength, hrow⟩
    · cases h
  · rintro ⟨hnone, hlength, hrow⟩
    have hmap : bytesOf (.list items) = .ok bytes := (mapM_byteOf_iff he).mpr ⟨hnone, hrow⟩
    rw [encodeBytes, hmap]
    exact if_pos ((hrow.length he).trans hlength)

theorem encode_sequence (he : t.shape? element = some (.primitive (.integer k)))
    (hs : t.shape? id = some (.sequence element)) :
    Forms.encode t id (.list items) = .ok bytes ↔
      (k = byteKind → ∀ v ∈ items, v.text? = none) ∧
        ∃ row, ItemBytes t element items row ∧ bytes = Compact.write items.length ++ row := by
  have hform := form_of_shape? hs rfl
  by_cases hk : k = byteKind
  · subst hk
    have hbyte : t.isByte element = true := by rw [Table.isByte, he, beq_self_eq_true]
    rw [Table.layoutOf, if_pos hbyte] at hform
    simp only [encode_bytes hform, encodeBytes_counted he, forall_const]
  · have hbyte : ¬ t.isByte element = true := by simpa [Table.isByte, he] using hk
    rw [Table.layoutOf, if_neg hbyte] at hform
    rw [Forms.encode, encode_plain hform, Encoding.result_eq_ok, encodeAs, append_eq_ofBytes_iff]
    constructor
    · rintro ⟨front, row, hfront, hrow, rfl⟩
      rw [Encoding.ofBytes_inj hfront]
      exact ⟨fun h => absurd h hk, row, encodeItems_iff.mp hrow, rfl⟩
    · rintro ⟨-, row, hrow, rfl⟩
      exact ⟨_, row, rfl, encodeItems_iff.mpr hrow, rfl⟩

theorem encode_array {n : Nat} (he : t.shape? element = some (.primitive (.integer k)))
    (hs : t.shape? id = some (.array element n)) :
    Forms.encode t id (.list items) = .ok bytes ↔
      (k = byteKind → ∀ v ∈ items, v.text? = none) ∧
        items.length = n ∧ ItemBytes t element items bytes := by
  have hform := form_of_shape? hs rfl
  by_cases hk : k = byteKind
  · subst hk
    have hbyte : t.isByte element = true := by rw [Table.isByte, he, beq_self_eq_true]
    rw [Table.layoutOf, if_pos hbyte] at hform
    simp only [encode_bytes hform, encodeBytes_fixed he, forall_const]
  · have hbyte : ¬ t.isByte element = true := by simpa [Table.isByte, he] using hk
    rw [Table.layoutOf, if_neg hbyte] at hform
    rw [Forms.encode, encode_plain hform, Encoding.result_eq_ok, encodeAs]
    split
    · rename_i hlength
      rw [encodeItems_iff]
      exact ⟨fun h => ⟨fun h' => absurd h' hk, hlength, h⟩, fun h => h.2.2⟩
    · rename_i hlength
      exact ⟨fun h => absurd h (Encoding.stop_ne_ofBytes _ _), fun h => absurd h.2.1 hlength⟩

end

end Wire

namespace Registry

open Wire

/-- A list of integers of one type is written if each item is, and, for single bytes, if none is
text. Its bytes are those of the items, in a sequence after their number, in an array if there
are as many as the type says. -/
theorem lists_of_integers_are_written_item_by_item {r : Registry} (hr : r.Reachable)
    {element : TypeId} {k : IntKind}
    (he : r.table.shape? element = some (.primitive (.integer k))) (id : TypeId)
    (items : List Value) (bytes : List UInt8) :
    (r.table.shape? id = some (.sequence element) →
      (r.form.encode id (.list items) = .ok bytes ↔
        (k = byteKind → ∀ v ∈ items, v.text? = none) ∧
          ∃ row, ItemBytes r.form element items row ∧
            bytes = Compact.write items.length ++ row)) ∧
    ∀ n, r.table.shape? id = some (.array element n) →
      (r.form.encode id (.list items) = .ok bytes ↔
        (k = byteKind → ∀ v ∈ items, v.text? = none) ∧
          items.length = n ∧ ItemBytes r.form element items bytes) := by
  rw [hr.world.form]
  exact ⟨encode_sequence he, fun n => encode_array he⟩

/-- Single bytes, lists of them, and pairs of them. -/
def bytesRegistry : Registry :=
  { table := (Table.intern (Table.intern (Table.intern {} (.primitive (.integer byteKind))).2
      (.sequence 0)).2 (.array 0 2)).2 }

theorem reachable_bytesRegistry : bytesRegistry.Reachable := by
  have hbyte : (Table.intern {} (.primitive (.integer byteKind))).2.Drafted :=
    .interned (s := .primitive (.integer byteKind)) .empty rfl
  have hlist : (Table.intern (Table.intern {} (.primitive (.integer byteKind))).2
      (.sequence 0)).2.Drafted := .interned (s := .sequence 0) hbyte rfl
  have hdraft : bytesRegistry.table.Drafted := .interned (s := .array 0 2) hlist rfl
  exact .made (.built hdraft rfl)

/-- Two bytes in two forms are written as a list and as a pair; text that is written as a byte is
not written as a list of one. -/
theorem lists_of_bytes_are_written_unless_an_item_is_text :
    bytesRegistry.Reachable ∧
      bytesRegistry.form.encode 1 (.list [.integer 5, .bigInteger 255]) = .ok [8, 5, 255] ∧
      bytesRegistry.form.encode 2 (.list [.integer 5, .bigInteger 255]) = .ok [5, 255] ∧
      bytesRegistry.form.encode 0 (.text "5n") = .ok [5] ∧
      ∀ bytes, bytesRegistry.form.encode 1 (.list [.text "5n"]) ≠ .ok bytes := by
  have hbyte : bytesRegistry.table.shape? 0 = some (.primitive (.integer byteKind)) := rfl
  have hlist : bytesRegistry.table.shape? 1 = some (.sequence 0) := rfl
  have hpair : bytesRegistry.table.shape? 2 = some (.array 0 2) := rfl
  have hitems : ItemBytes bytesRegistry.form 0 [.integer 5, .bigInteger 255] [5, 255] :=
    ⟨[[5], [255]], .cons (by decide +kernel) (.cons (by decide +kernel) .nil), rfl⟩
  have hnone : ∀ v ∈ [Value.integer 5, .bigInteger 255], v.text? = none := by decide
  have hwritten := lists_of_integers_are_written_item_by_item reachable_bytesRegistry hbyte
  refine ⟨reachable_bytesRegistry, ?_, ?_, by decide +kernel, fun bytes h => ?_⟩
  · exact ((hwritten _ _ _).1 hlist).mpr ⟨fun _ => hnone, _, hitems, by decide +kernel⟩
  · exact ((hwritten _ _ _).2 2 hpair).mpr ⟨fun _ => hnone, rfl, hitems⟩
  · cases (((hwritten _ _ _).1 hlist).mp h).1 rfl (.text "5n") (by simp)

end Registry

end Typewire
