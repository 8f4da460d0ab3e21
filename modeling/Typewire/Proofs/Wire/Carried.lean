-- What JSON makes of a value. Bytes come back as text in digits, and wide integers as numbers or as
-- text; the type of a value tells what was meant, so what was read is written again as it was.
import Typewire.Proofs.Text.Hex
import Typewire.Proofs.Wire.DecodedForm
import Typewire.Proofs.Wire.TwosComplement
import Typewire.Value.Json

namespace Typewire

/-! ## There and back -/

namespace Value

mutual

/-- The value that comes back from the JSON form of a value. -/
def carried : Value → Value
  | null => null
  | bool b => bool b
  | integer n => integer n
  | bigInteger n => if fitsNative n then integer (.ofInt n) else text (toString n ++ "n")
  | bytes bs => text ("0x" ++ Text.Hex.encode bs)
  | text s => text s
  | list items => list (carriedItems items)
  | map entries => map (carriedEntries entries)

/-- The items that come back. -/
def carriedItems : List Value → List Value
  | [] => []
  | v :: vs => v.carried :: carriedItems vs

/-- The entries that come back. -/
def carriedEntries : List (String × Value) → List (String × Value)
  | [] => []
  | (k, v) :: rest => (k, v.carried) :: carriedEntries rest

end

theorem carriedItems_eq (items : List Value) : carriedItems items = items.map carried := by
  induction items with
  | nil => rfl
  | cons v vs ih => rw [carriedItems, ih, List.map_cons]

theorem length_carriedItems (items : List Value) : (carriedItems items).length = items.length := by
  rw [carriedItems_eq, List.length_map]

theorem lookup_carriedEntries (entries : List (String × Value)) (key : String) :
    (carriedEntries entries).lookup key = (entries.lookup key).map carried := by
  induction entries with
  | nil => rfl
  | cons e rest ih =>
    obtain ⟨k, v⟩ := e
    rw [carriedEntries, List.lookup_cons, List.lookup_cons, ih]
    split <;> rfl

theorem isNull_carried (v : Value) : v.carried.isNull = v.isNull := by
  cases v with
  | bigInteger n =>
    rw [carried]
    split <;> rfl
  | _ => simp only [carried, isNull]

theorem fitsNative_toInt (n : Int64) : fitsNative n.toInt = true := by
  have hlow := n.le_toInt
  have hhigh := n.toInt_lt
  simp only [fitsNative, Bool.and_eq_true, decide_eq_true_eq]
  exact ⟨hlow, hhigh⟩

mutual

/-- Every value comes back from JSON. -/
theorem ofJson_toJson (v : Value) : ofJson v.toJson = .ok v.carried := by
  cases v with
  | integer n =>
    simp only [toJson, ofJson, carried, ofInt, fitsNative_toInt, if_true, Int64.ofInt_toInt]
  | bigInteger n =>
    rw [toJson, carried]
    split
    · rename_i hfits
      simp only [ofJson, ofInt, hfits, if_true]
    · rfl
  | list items =>
    rw [toJson, ofJson, ofJsonItems_toJsonItems items, carried]
    rfl
  | map entries =>
    rw [toJson, ofJson, ofJsonEntries_toJsonEntries entries, carried]
    rfl
  | _ => rfl

theorem ofJsonItems_toJsonItems (items : List Value) :
    ofJsonItems (toJsonItems items) = .ok (carriedItems items) := by
  cases items with
  | nil => rfl
  | cons v vs =>
    rw [toJsonItems, ofJsonItems, ofJson_toJson v, ofJsonItems_toJsonItems vs, carriedItems]
    rfl

theorem ofJsonEntries_toJsonEntries (entries : List (String × Value)) :
    ofJsonEntries (toJsonEntries entries) = .ok (carriedEntries entries) := by
  cases entries with
  | nil => rfl
  | cons e rest =>
    obtain ⟨k, v⟩ := e
    rw [toJsonEntries, ofJsonEntries, ofJson_toJson v, ofJsonEntries_toJsonEntries rest,
      carriedEntries]
    rfl

end

end Value

namespace Wire

/-! ## Integers and bytes -/

/-- An integer that is written in decimal before an `n` is spelt. -/
theorem spells_toString (n : Int) : Spells n (toString n ++ "n").toList := by
  have hchars (m : Nat) : (Nat.repr m).toList = Nat.toDigits 10 m := by
    rw [Nat.repr_eq_ofList_toDigits, String.toList_ofList]
  have hdigits (m : Nat) : ∀ c ∈ Nat.toDigits 10 m, c.isDigit = true := fun c hc =>
    Nat.isDigit_of_mem_toDigits (by decide) (by decide) hc
  have hend : "n".toList = ['n'] := by decide
  rw [Int.toString_eq_repr, Int.repr_eq_if, String.toList_append, hend]
  split
  · rename_i hpos
    rw [hchars]
    refine .plain Nat.toDigits_ne_nil (hdigits _) ?_
    rw [Nat.ofDigitChars_ten_toDigits]
    exact (Int.toNat_of_nonneg hpos).symm
  · rename_i hneg
    have hminus : "-".toList = ['-'] := by decide
    rw [String.toList_append, hchars, hminus, List.singleton_append, List.cons_append]
    refine .minus Nat.toDigits_ne_nil (hdigits _) ?_
    rw [Nat.ofDigitChars_ten_toDigits]
    omega

/-- An integer that came through JSON is read as the integer that it was. -/
theorem intOf_carried {v : Value} {k : IntKind} {n : Int} (h : v.int? = some n) :
    intOf v.carried k = .ok n := by
  cases v with
  | integer m =>
    cases h
    rfl
  | bigInteger m =>
    cases h
    rw [Value.carried]
    split
    · rename_i hfits
      simp only [Value.fitsNative, Bool.and_eq_true, decide_eq_true_eq] at hfits
      exact intOf_of_int? (congrArg some (Int64.toInt_ofInt_of_le hfits.1 hfits.2))
    · exact intOf_iff.mpr (.text (spells_toString n))
  | _ => cases h

/-- Bytes that came through JSON are read as the bytes that they were. -/
theorem bytesOf_carried (bs : List UInt8) : bytesOf (Value.bytes bs).carried = .ok bs := by
  have htext : Text.Utf8.encode ("0x" ++ Text.Hex.encode bs)
      = 0x30 :: 0x78 :: Text.Utf8.encode (Text.Hex.encode bs) := by
    have hchars : "0x" ++ Text.Hex.encode bs
        = String.ofList ('0' :: 'x' :: bs.flatMap Text.Hex.ofByte) := String.ofList_append.symm
    rw [hchars, Text.Hex.encode, Text.Utf8.encode_ofList, Text.Utf8.encode_ofList]
    rfl
  rw [Value.carried, bytesOf, htext]
  simp only [Text.Hex.decode_encode]
  rfl

/-! ## Written again -/

variable {t : Table}

theorem encodeRow_carried {ps : List (Value × TypeId)}
    (h : ∀ p ∈ ps, encode t p.1.carried p.2 = encode t p.1 p.2) :
    encodeRow t (ps.map fun p => (p.1.carried, p.2)) = encodeRow t ps := by
  rw [encodeRow, List.map_map]
  exact congrArg Encoding.concat (List.map_congr_left h)

theorem encodeItems_carried {items : List Value} {element : TypeId}
    (h : ∀ p ∈ items.map (·, element), encode t p.1.carried p.2 = encode t p.1 p.2) :
    encodeItems t (Value.carriedItems items) element = encodeItems t items element := by
  rw [encodeItems_eq, encodeItems_eq, Value.carriedItems_eq, ← encodeRow_carried h, List.map_map,
    List.map_map]
  rfl

theorem encodeMembers_carried {items : List Value} {ids : List TypeId}
    (h : ∀ p ∈ items.zip ids, encode t p.1.carried p.2 = encode t p.1 p.2) :
    encodeMembers t (Value.carriedItems items) ids = encodeMembers t items ids := by
  rw [encodeMembers_eq, encodeMembers_eq, Value.carriedItems_eq, ← encodeRow_carried h,
    List.zip_map_left]
  rfl

theorem encodeAs_struct_carried {fields : List Field} {v : Value}
    (hread : ReadFormBy v (.struct fields))
    (h : ∀ p ∈ partsBy v (.struct fields), encode t p.1.carried p.2 = encode t p.1 p.2) :
    encodeAs t v.carried (.struct fields) = encodeAs t v (.struct fields) := by
  obtain ⟨entries, rfl, -, hkeys⟩ := hread
  have hfields : fields.map (encodeField t (Value.carriedEntries entries))
      = fields.map (encodeField t entries) := by
    refine List.map_congr_left fun f hf => ?_
    have hname := (hkeys f.name).mpr (List.mem_map.mpr ⟨f, hf, rfl⟩)
    obtain ⟨w, hw⟩ := Option.isSome_iff_exists.mp (mem_keys_iff.mp hname)
    have hpart := h (w, f.type) (List.mem_map.mpr ⟨f, hf, by rw [hw]; rfl⟩)
    simp only [encodeField, Value.lookup_carriedEntries, hw, Option.map_some]
    exact hpart
  simp only [Value.carried, encodeAs, hfields]

theorem encodeAs_enum_carried {vs : List Variant} (hcheck : (Shape.enum vs).check = .ok ())
    {v : Value} (hread : ReadFormBy v (.enum vs))
    (h : ∀ p ∈ partsBy v (.enum vs), encode t p.1.carried p.2 = encode t p.1 p.2) :
    encodeAs t v.carried (.enum vs) = encodeAs t v (.enum vs) := by
  obtain ⟨⟨name, tag, payload⟩, hx, w, rfl, hnull⟩ := hread
  have hchoice := ofEntries_inline hcheck hx w hnull
  have hchoice' := ofEntries_inline hcheck hx w.carried fun hnone => by
    rw [hnull hnone]
    rfl
  have hpayload (w : Value) : Choice.payload [(name, w)] (some name) = w := by
    simp [Choice.payload]
  simp only [Value.variant, Value.carried, Value.carriedEntries, encodeAs, hchoice, hchoice',
    encodePayload, hpayload]
  cases payload with
  | none => rfl
  | some p =>
    simp only [Value.variant, partsBy, hchoice, hpayload] at h
    have hw : encode t w.carried p = encode t w p := h (w, p) List.mem_cons_self
    simp only [hw]

/-- A value that has at its outside the form in which its layout is read is written by the layout
as it was before it came through JSON, when its parts are. -/
theorem encodeAs_carried (ht : t.Sound) {v : Value} {id : TypeId} {layout : Layout}
    (hform : t.form id = .ok (.plain layout)) (hread : ReadFormBy v layout)
    (h : ∀ p ∈ partsBy v layout, encode t p.1.carried p.2 = encode t p.1 p.2) :
    encodeAs t v.carried layout = encodeAs t v layout := by
  obtain ⟨s, hshape, hlayout⟩ := form_plain hform
  have hsame := shape_of_layoutOf hlayout
  have hcheck := ht id s hshape
  cases layout with
  | bool =>
    obtain ⟨b, rfl⟩ := hread
    rfl
  | str =>
    obtain ⟨s, rfl⟩ := hread
    rfl
  | integer k =>
    obtain ⟨n, hn, -⟩ := hread
    rw [encodeAs_integer, encodeAs_integer, writeInt_eq, writeInt_eq, intWithin, intWithin,
      intOf_carried hn, intOf_of_int? hn]
  | compact k =>
    obtain ⟨n, hn, -⟩ := hread
    rw [encodeAs_compact, encodeAs_compact, intWithin, intWithin, intOf_carried hn,
      intOf_of_int? hn]
  | bytes length =>
    obtain ⟨bs, rfl⟩ := hread
    rw [encodeAs_bytes, encodeAs_bytes, encodeBytes, bytesOf_carried]
    rfl
  | sequence element zeroSized =>
    obtain ⟨items, rfl⟩ := hread
    have hitems := encodeItems_carried h
    simp only [Value.carried, encodeAs, hitems, Value.length_carriedItems]
  | array element length =>
    obtain ⟨items, rfl⟩ := hread
    have hitems := encodeItems_carried h
    simp only [Value.carried, encodeAs, hitems, Value.length_carriedItems]
  | tuple members =>
    cases members with
    | nil =>
      cases hread
      rfl
    | cons m ms =>
      obtain ⟨items, rfl, hlength⟩ := hread
      have hmembers := encodeMembers_carried h
      simp only [Value.carried, encodeAs, hmembers, Value.length_carriedItems]
  | struct fields =>
    cases hsame
    exact encodeAs_struct_carried hread h
  | enum vs =>
    cases hsame
    exact encodeAs_enum_carried hcheck hread h

/-- A value in the form in which its type is read is written as it was before it came through
JSON. -/
theorem encode_carried (ht : t.Sound) {v : Value} {id : TypeId} (h : ReadForm t v id) :
    encode t v.carried id = encode t v id := by
  induction h with
  | plain hform hread _ ih =>
    rw [encode_plain hform, encode_plain hform]
    exact encodeAs_carried ht hform hread ih
  | null => rfl
  | payload hform hsome _ ih =>
    obtain ⟨hplain, -⟩ := form_payload hform
    rw [encode_plain hplain, encode_plain hplain] at ih
    rw [encode_option hform, encode_option hform, Value.isNull_carried, hsome, ih]

end Wire

end Typewire
