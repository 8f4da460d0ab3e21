-- Equal values are encoded alike. Every value has a form in which no integer is held in 64 bits;
-- values are equal when their forms are the same, and a value is encoded as its form is.
import Typewire.Proofs.Wire.Appending
import Typewire.Proofs.Wire.Numbers
import Typewire.Proofs.Wire.Rows

namespace Typewire

/-! ## The form of a value -/

namespace Value

mutual

/-- The value with every integer in it held in as many bits as it needs. -/
def widened : Value → Value
  | null => null
  | bool b => bool b
  | integer n => bigInteger n.toInt
  | bigInteger n => bigInteger n
  | bytes bs => bytes bs
  | text s => text s
  | list items => list (widenedItems items)
  | map entries => map (widenedEntries entries)

/-- The items of a list in that form. -/
def widenedItems : List Value → List Value
  | [] => []
  | v :: vs => v.widened :: widenedItems vs

/-- The entries of a map in that form. -/
def widenedEntries : List (String × Value) → List (String × Value)
  | [] => []
  | (k, v) :: rest => (k, v.widened) :: widenedEntries rest

end

mutual

/-- Two values are equal exactly if their forms are the same. -/
theorem eq_iff_widened (a b : Value) : eq a b = true ↔ a.widened = b.widened := by
  cases a with
  | integer m => cases b <;> simp [eq, widened, ← Int64.toInt_inj]
  | bigInteger m => cases b <;> simp [eq, widened]
  | list items =>
    cases b with
    | list others => rw [eq, widened, widened, list.injEq, eqItems_iff_widened items others]
    | _ => simp [eq, widened]
  | map entries =>
    cases b with
    | map others => rw [eq, widened, widened, map.injEq, eqEntries_iff_widened entries others]
    | _ => simp [eq, widened]
  | _ => cases b <;> simp [eq, widened]

theorem eqItems_iff_widened (as bs : List Value) :
    eqItems as bs = true ↔ widenedItems as = widenedItems bs := by
  cases as with
  | nil => cases bs <;> simp [eqItems, widenedItems]
  | cons a as =>
    cases bs with
    | nil => simp [eqItems, widenedItems]
    | cons b bs =>
      rw [eqItems, widenedItems, widenedItems, List.cons.injEq, Bool.and_eq_true,
        eq_iff_widened a b, eqItems_iff_widened as bs]

theorem eqEntries_iff_widened (as bs : List (String × Value)) :
    eqEntries as bs = true ↔ widenedEntries as = widenedEntries bs := by
  cases as with
  | nil => cases bs <;> simp [eqEntries, widenedEntries]
  | cons a as =>
    cases bs with
    | nil => simp [eqEntries, widenedEntries]
    | cons b bs =>
      obtain ⟨k, a⟩ := a
      obtain ⟨l, b⟩ := b
      rw [eqEntries, widenedEntries, widenedEntries, List.cons.injEq, Prod.mk.injEq,
        Bool.and_eq_true, Bool.and_eq_true, beq_iff_eq, eq_iff_widened a b,
        eqEntries_iff_widened as bs]

end

/-- Equality is an equivalence, as it says that two forms are the same. -/
theorem equivalence_eq : Equivalence fun a b : Value => (a == b) = true where
  refl a := (eq_iff_widened a a).mpr rfl
  symm {a b} h := (eq_iff_widened b a).mpr ((eq_iff_widened a b).mp h).symm
  trans {a b c} h₁ h₂ :=
    (eq_iff_widened a c).mpr (((eq_iff_widened a b).mp h₁).trans ((eq_iff_widened b c).mp h₂))

theorem isNull_widened (v : Value) : v.widened.isNull = v.isNull := by
  cases v <;> rfl

theorem kindName_widened (v : Value) : v.widened.kindName = v.kindName := by
  cases v <;> rfl

theorem int?_widened (v : Value) : v.widened.int? = v.int? := by
  cases v <;> rfl

theorem text?_widened (v : Value) : v.widened.text? = v.text? := by
  cases v <;> rfl

theorem widenedItems_eq_map (items : List Value) : widenedItems items = items.map widened := by
  induction items with
  | nil => rfl
  | cons v vs ih => rw [widenedItems, ih, List.map_cons]

theorem length_widenedItems (items : List Value) : (widenedItems items).length = items.length := by
  rw [widenedItems_eq_map, List.length_map]

theorem isEmpty_widenedItems (items : List Value) :
    (widenedItems items).isEmpty = items.isEmpty := by
  cases items <;> rfl

theorem lookup_widenedEntries (entries : List (String × Value)) (key : String) :
    (widenedEntries entries).lookup key = (entries.lookup key).map widened := by
  induction entries with
  | nil => rfl
  | cons e rest ih =>
    obtain ⟨k, v⟩ := e
    rw [widenedEntries, List.lookup_cons, List.lookup_cons, ih]
    split <;> rfl

theorem all_keys_widenedEntries (entries : List (String × Value)) (p : String → Bool) :
    (widenedEntries entries).all (fun e => p e.1) = entries.all (fun e => p e.1) := by
  induction entries with
  | nil => rfl
  | cons e rest ih => rw [widenedEntries, List.all_cons, List.all_cons, ih]

end Value

namespace Wire

open Value

/-! ## Values without values inside -/

theorem mismatch_widened (expected : String) (v : Value) :
    mismatch expected v.widened = mismatch expected v := by
  rw [mismatch, kindName_widened, mismatch]

theorem intOf_widened (v : Value) (k : IntKind) : intOf v.widened k = intOf v k := by
  cases v <;> rfl

theorem intWithin_widened (v : Value) (k : IntKind) : intWithin v.widened k = intWithin v k := by
  rw [intWithin, intOf_widened, intWithin]

/-- An integer is written alike on both ways, with the same complaint where it does not fit. -/
theorem writeInt_widened (k : IntKind) (v : Value) : writeInt k v.widened = writeInt k v := by
  rw [writeInt_eq, writeInt_eq, intWithin_widened]

theorem byteOf_widened (v : Value) : byteOf v.widened = byteOf v := by
  rw [byteOf, int?_widened, mismatch_widened, byteOf]

theorem bytesOf_widened (v : Value) : bytesOf v.widened = bytesOf v := by
  cases v with
  | list items =>
    have hbyte : byteOf ∘ widened = byteOf := funext byteOf_widened
    simp only [widened, bytesOf, widenedItems_eq_map, List.mapM_map, hbyte]
  | _ => rfl

theorem encodeBytes_widened (length : Option Nat) (v : Value) :
    encodeBytes length v.widened = encodeBytes length v := by
  rw [encodeBytes, bytesOf_widened, encodeBytes]

theorem encodeScalar_widened (v : Value) (layout : Layout) :
    encodeScalar v.widened layout = encodeScalar v layout := by
  cases layout with
  | bool => cases v <;> rfl
  | str => cases v <;> rfl
  | integer k => rw [encodeScalar, writeInt_widened, encodeScalar]
  | compact k => rw [encodeScalar, intWithin_widened, encodeScalar]
  | bytes length => rw [encodeScalar, encodeBytes_widened, encodeScalar]
  | tuple members =>
    cases members with
    | nil => rw [encodeScalar, isNull_widened, mismatch_widened, encodeScalar]
    | cons m members =>
      rw [encodeScalar, mismatch_widened, encodeScalar] <;> exact List.cons_ne_nil _ _
  | _ => simp only [encodeScalar, mismatch_widened]

/-! ## Enum values -/

theorem payload_widened (entries : List (String × Value)) (key : Option String) :
    Choice.payload (widenedEntries entries) key = (Choice.payload entries key).widened := by
  cases key with
  | none => rfl
  | some key =>
    simp only [Choice.payload, Option.bind_some, lookup_widenedEntries]
    cases entries.lookup key <;> rfl

theorem explicitName?_widened (entries : List (String × Value)) :
    Choice.explicitName? (widenedEntries entries) = Choice.explicitName? entries := by
  have hname : ((widenedEntries entries).lookup "tag").bind text?
      = (entries.lookup "tag").bind text? := by
    rw [lookup_widenedEntries]
    cases entries.lookup "tag" with
    | none => rfl
    | some v => exact text?_widened v
  rw [Choice.explicitName?, hname, Choice.explicitName?,
    all_keys_widenedEntries entries (fun k => k == "tag" || k == "value")]

theorem nameAndKey_widened (variants : List Variant) (entries : List (String × Value)) :
    Choice.nameAndKey variants (widenedEntries entries) = Choice.nameAndKey variants entries := by
  have hvalue : ((widenedEntries entries).lookup "value").map (fun _ => "value")
      = (entries.lookup "value").map (fun _ => "value") := by
    rw [lookup_widenedEntries, Option.map_map]
    rfl
  have hmismatch (expected : String) :
      mismatch expected (.map (widenedEntries entries)) = mismatch expected (.map entries) := rfl
  simp only [Choice.nameAndKey, explicitName?_widened, hvalue, hmismatch]
  cases entries with
  | nil => rfl
  | cons e rest =>
    cases rest with
    | nil => rfl
    | cons f rest => rfl

theorem ofEntries_widened (variants : List Variant) (entries : List (String × Value)) :
    Choice.ofEntries variants (widenedEntries entries) = Choice.ofEntries variants entries := by
  simp only [Choice.ofEntries, nameAndKey_widened, payload_widened, isNull_widened]

/-! ## Values -/

/-- Encoding by the form of a type looks at no more of the value than whether it is `null`. -/
theorem encodeBy_congr (forms : Forms) (id : TypeId) {v w : Value} {f g : Layout → Encoding}
    (hnull : v.isNull = w.isNull) (hlayout : ∀ layout, f layout = g layout) :
    encodeBy forms id v f = encodeBy forms id w g := by
  rw [encodeBy, hnull, funext hlayout, encodeBy]

mutual

/-- A value is encoded as its form is. -/
theorem encode_widened (forms : Forms) (v : Value) (id : TypeId) :
    encode forms v.widened id = encode forms v id := by
  cases v with
  | list items =>
    rw [widened, encode, encode]
    refine encodeBy_congr forms id rfl fun layout => ?_
    cases layout with
    | sequence element zeroSized => simp only [length_widenedItems, encodeItems_widened forms items]
    | array element length => simp only [length_widenedItems, encodeItems_widened forms items]
    | tuple members =>
      cases members with
      | nil =>
        simp only [isEmpty_widenedItems]
        rfl
      | cons m members => simp only [length_widenedItems, encodeMembers_widened forms items]
    | _ => exact encodeScalar_widened (.list items) _
  | map entries =>
    rw [widened, encode, encode]
    refine encodeBy_congr forms id rfl fun layout => ?_
    cases layout with
    | struct fields => simp only [encodeEntry_widened forms entries]
    | enum variants => simp only [ofEntries_widened, encodeEntry_widened forms entries]
    | _ => exact encodeScalar_widened (.map entries) _
  | integer n =>
    rw [widened, encode, encode]
    exact encodeBy_congr forms id rfl (encodeScalar_widened (.integer n))
  | _ => rfl

theorem encodeItems_widened (forms : Forms) (items : List Value) (id : TypeId) :
    encodeItems forms (widenedItems items) id = encodeItems forms items id := by
  cases items with
  | nil => rfl
  | cons v vs => rw [widenedItems, encodeItems, encode_widened, encodeItems_widened, encodeItems]

theorem encodeMembers_widened (forms : Forms) (items : List Value) (ids : List TypeId) :
    encodeMembers forms (widenedItems items) ids = encodeMembers forms items ids := by
  cases items with
  | nil => rfl
  | cons v vs =>
    cases ids with
    | nil => rfl
    | cons id ids =>
      rw [widenedItems, encodeMembers, encode_widened, encodeMembers_widened, encodeMembers]

theorem encodeEntry_widened (forms : Forms) (entries : List (String × Value)) (key : String)
    (id : TypeId) :
    encodeEntry forms (widenedEntries entries) key id = encodeEntry forms entries key id := by
  cases entries with
  | nil => rfl
  | cons e rest =>
    obtain ⟨k, v⟩ := e
    rw [widenedEntries, encodeEntry, encode_widened, encodeEntry_widened, encodeEntry]

end

/-- Equal values are encoded alike: as the same bytes, up to the same complaint if there is one. -/
theorem encode_of_eq (forms : Forms) {a b : Value} (h : (a == b) = true) (id : TypeId) :
    encode forms a id = encode forms b id := by
  rw [← encode_widened, (eq_iff_widened a b).mp h, encode_widened]

end Wire

/-- Equality of values is an equivalence, and equal values are written alike after any bytes, in
every table and in every registry, whichever types it has made ready: what was written is the
same, and so is the reason why writing stopped, if it did. -/
theorem equal_values_are_written_alike :
    (Equivalence fun a b : Value => (a == b) = true) ∧
    ∀ a b : Value, (a == b) = true → ∀ bytes id,
      (∀ t : Table, t.encodeOnto bytes id a = t.encodeOnto bytes id b) ∧
      ∀ r : Registry, Wire.Encoding.ofBytes bytes ++ Wire.encode r.form a id
        = Wire.Encoding.ofBytes bytes ++ Wire.encode r.form b id := by
  refine ⟨Value.equivalence_eq, fun a b h bytes id => ⟨fun t => ?_, fun r => ?_⟩⟩
  · unfold Table.encodeOnto
    rw [Wire.encodeOnto_eq, Wire.encodeOnto_eq, Wire.encode_of_eq t h id]
  · exact congrArg (Wire.Encoding.ofBytes bytes ++ ·) (Wire.encode_of_eq r.form h id)

/-- A table of a 16-bit integer and, at the place after it, of lists of it. -/
def integersTable : Table :=
  ((Table.intern {} (.primitive (.integer ⟨false, .w16⟩))).2.intern (.sequence 0)).2

/-- The second item does not fit, and both lists are written up to it. -/
theorem equal_lists_stop_at_the_same_item :
    (Value.list [.integer 5, .integer 70000] == .list [.bigInteger 5, .bigInteger 70000]) = true ∧
    integersTable.encodeOnto [9] 1 (.list [.integer 5, .integer 70000])
      = ⟨[9, 8, 5, 0], some (.integerOutOfRange "70000" "u16")⟩ ∧
    integersTable.encodeOnto [9] 1 (.list [.bigInteger 5, .bigInteger 70000])
      = ⟨[9, 8, 5, 0], some (.integerOutOfRange "70000" "u16")⟩ := by
  have hequal : (Value.list [.integer 5, .integer 70000]
      == .list [.bigInteger 5, .bigInteger 70000]) = true := by decide
  have hnative : integersTable.encodeOnto [9] 1 (.list [.integer 5, .integer 70000])
      = ⟨[9, 8, 5, 0], some (.integerOutOfRange "70000" "u16")⟩ := by decide +kernel
  have hsame := (equal_values_are_written_alike.2 _ _ hequal [9] 1).1 integersTable
  exact ⟨hequal, hnative, hsame.symm.trans hnative⟩

end Typewire
