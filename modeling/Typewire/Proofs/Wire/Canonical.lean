-- Every value has one encoding that is read. Whatever bytes a type reads as a value, the value
-- is written as those bytes: for each layout below, and so for types of any depth.
import Typewire.Proofs.Entries
import Typewire.Proofs.Text.Utf8
import Typewire.Proofs.Wire.Readings
import Typewire.Registry

namespace Typewire.Wire

/-- What is read as a value of a type is what the type writes for that value. -/
def Canonical (t : Table) (decode : TypeId → Taking Value) : Prop :=
  ∀ id bytes v rest, decode id bytes = .ok (v, rest) →
    ∃ front, bytes = front ++ rest ∧ encode t v id = .ofBytes front

/-! ## Values in a row -/

theorem canonical_row {t : Table} {decode : TypeId → Taking Value} (hd : Canonical t decode)
    {ids : List TypeId} {vs : List Value} {bytes rest : List UInt8}
    (h : takeAll decode ids bytes = .ok (vs, rest)) :
    ∃ front, bytes = front ++ rest ∧ encodeRow t (vs.zip ids) = .ofBytes front := by
  induction ids generalizing vs bytes with
  | nil =>
    cases h
    exact ⟨[], rfl, rfl⟩
  | cons id ids ih =>
    obtain ⟨v, mid, hv, htail⟩ := taking_bind_ok h
    obtain ⟨ws, mid', hws, hpure⟩ := taking_bind_ok htail
    obtain ⟨rfl, rfl⟩ := taking_pure_ok hpure
    obtain ⟨one, rfl, hone⟩ := hd _ _ _ _ hv
    obtain ⟨front, rfl, hrow⟩ := ih hws
    refine ⟨one ++ front, (List.append_assoc _ _ _).symm, ?_⟩
    change encode t v id ++ encodeRow t (ws.zip ids) = _
    rw [hone, hrow]
    rfl

theorem canonical_items {t : Table} {decode : TypeId → Taking Value} (hd : Canonical t decode)
    {element : TypeId} {vs : List Value} {bytes rest : List UInt8}
    (h : takeAll decode (List.replicate vs.length element) bytes = .ok (vs, rest)) :
    ∃ front, bytes = front ++ rest ∧ encodeItems t vs element = .ofBytes front := by
  rw [encodeItems_eq, map_pair]
  exact canonical_row hd h

/-! ## Values -/

/-- Values by the names of the fields are written as a row, in the order of the fields. -/
theorem encodeAs_ofEntries {t : Table} {fields : List Field}
    (hcheck : (Shape.struct fields).check = .ok ()) {vs : List Value}
    (hlength : vs.length = fields.length) :
    encodeAs t (.ofEntries ((fields.map (·.name)).zip vs)) (.struct fields)
      = encodeRow t (vs.zip (fields.map (·.type))) := by
  have hnames : ((fields.map (·.name)).zip vs).map Prod.fst = fields.map (·.name) :=
    List.map_fst_zip (by simp [hlength])
  have hnodup : (((fields.map (·.name)).zip vs).map Prod.fst).Nodup := by
    rw [hnames, List.Nodup, List.pairwise_map]
    exact Shape.pairwise_fields hcheck
  have hlookup : ∀ e ∈ (fields.map (·.name)).zip vs,
      (sortEntries ((fields.map (·.name)).zip vs)).lookup e.1 = some e.2 := fun e he => by
    rw [lookup_sortEntries hnodup, lookup_of_mem hnodup he]
  exact congrArg Encoding.concat (map_encodeField hlength hlookup)

/-- A variant in its inline form is chosen by its name. -/
theorem ofEntries_inline {vs : List Variant} (hcheck : (Shape.enum vs).check = .ok ())
    {v : Variant} (hv : v ∈ vs) (payload : Value)
    (hnull : v.payload = none → payload = .null) :
    Choice.ofEntries vs [(v.name, payload)] = .ok ⟨v, some v.name⟩ := by
  have hany : vs.any (·.name == v.name) = true := List.any_eq_true.mpr ⟨v, hv, by simp⟩
  have hkey : Choice.nameAndKey vs [(v.name, payload)] = .ok (v.name, some v.name) := by
    simp only [Choice.nameAndKey, hany, if_true]
  have hpayload : (v.payload.isNone && !(Choice.payload [(v.name, payload)] (some v.name)).isNull)
      = false := by
    cases hp : v.payload with
    | some p => rfl
    | none =>
      rw [hnull hp]
      simp [Choice.payload, Value.isNull]
  unfold Choice.ofEntries
  rw [hkey]
  simp only [bind, Except.bind, Shape.find?_name hcheck hv, hpayload, Bool.false_eq_true, if_false]
  rfl

theorem encodeAs_compact_valueOf {t : Table} {k : IntKind} {n : Nat} (h : k.holds n = true) :
    encodeAs t (valueOf k n) (.compact k) = .ofBytes (Compact.write n) := by
  have hsmall : n < 256 ^ Compact.maxBytes := by
    have hbound := (holds_iff.mp h).2
    have hwidth : k.bound ≤ 256 ^ 32 := by
      obtain ⟨s, w⟩ := k
      cases s <;> cases w <;> decide
    have : (256 : Nat) ^ 32 < 256 ^ Compact.maxBytes := by decide
    omega
  rw [encodeAs_compact, intWithin_valueOf h]
  simp only [bind, Except.bind, Int.toNat_natCast, Compact.encode_of_lt hsmall]
  rfl

/-- A value that is read by a layout is written as the bytes that were read, if the values inside
it are. -/
theorem canonical_layout {t : Table} (ht : t.Sound) {decode : TypeId → Taking Value}
    (hd : Canonical t decode) {id : TypeId} {layout : Layout}
    (hform : t.form id = .ok (.plain layout)) {bytes rest : List UInt8} {v : Value}
    (h : ReadBy decode rest layout bytes v) :
    ∃ front, bytes = front ++ rest ∧ encodeAs t v layout = .ofBytes front := by
  obtain ⟨s, hshape, hlayout⟩ := form_plain hform
  have hsame := shape_of_layoutOf hlayout
  have hcheck := ht id s hshape
  cases h with
  | no => exact ⟨[0], rfl, rfl⟩
  | yes => exact ⟨[1], rfl, rfl⟩
  | @text body s hdecode =>
    refine ⟨Compact.write body.length ++ body, (List.append_assoc _ _ _).symm, ?_⟩
    simp only [encodeAs, encodeScalar, Text.Utf8.encode_of_decode hdecode]
  | @integer k n front hholds hwrite =>
    refine ⟨front, rfl, ?_⟩
    rw [encodeAs_integer, hwrite]
    rfl
  | compact hholds => exact ⟨_, rfl, encodeAs_compact_valueOf hholds⟩
  | counted body => exact ⟨_, (List.append_assoc _ _ _).symm, rfl⟩
  | bytes body =>
    refine ⟨body, rfl, ?_⟩
    simp only [encodeAs, encodeScalar, encodeBytes, bytesOf, bind, Except.bind]
    rfl
  | sequence _ hall =>
    obtain ⟨front, rfl, hitems⟩ := canonical_items hd hall
    refine ⟨_, (List.append_assoc _ _ _).symm, ?_⟩
    simp only [encodeAs, hitems]
    rfl
  | array hall =>
    obtain ⟨front, rfl, hitems⟩ := canonical_items hd hall
    exact ⟨front, rfl, by simp [encodeAs, hitems]⟩
  | unit => exact ⟨[], rfl, rfl⟩
  | tuple hall =>
    obtain ⟨front, rfl, hrow⟩ := canonical_row hd hall
    refine ⟨front, rfl, ?_⟩
    simp only [encodeAs, (takeAll_ok hall).1, if_true, encodeMembers_eq, hrow]
  | struct hall =>
    cases hsame
    have hlength := (takeAll_ok hall).1
    rw [List.length_map] at hlength
    obtain ⟨front, rfl, hrow⟩ := canonical_row hd hall
    exact ⟨front, rfl, (encodeAs_ofEntries hcheck hlength).trans hrow⟩
  | @bare vs name tag hx =>
    cases hsame
    have hchoice := ofEntries_inline hcheck hx .null fun _ => rfl
    refine ⟨[tag], rfl, ?_⟩
    simp only [Value.variant, encodeAs, hchoice, encodePayload]
    rfl
  | @carrying vs name tag payload mid w hx hw =>
    cases hsame
    obtain ⟨front, rfl, hfront⟩ := hd _ _ _ _ hw
    have hchoice := ofEntries_inline hcheck hx w fun hnone => by cases hnone
    refine ⟨tag :: front, rfl, ?_⟩
    simp only [Value.variant, encodeAs, hchoice, encodePayload, Choice.payload,
      Option.bind_some, List.lookup_cons, beq_self_eq_true, Option.getD_some, hfront]
    rfl

theorem valueOf_ne_null (k : IntKind) (n : Int) : valueOf k n ≠ .null := by
  unfold valueOf
  split <;> exact fun h => by cases h

/-- Only the unit type is read as `null` by its layout. -/
theorem ReadBy.ne_null {decode : TypeId → Taking Value} {layout : Layout}
    (hunit : layout ≠ .tuple []) {bytes rest : List UInt8} {v : Value}
    (h : ReadBy decode rest layout bytes v) : v ≠ .null := by
  cases h with
  | integer => exact valueOf_ne_null _ _
  | compact => exact valueOf_ne_null _ _
  | unit => exact absurd rfl hunit
  | _ => exact fun hnull => by cases hnull

/-- A payload that is read is not `null`. -/
theorem isNull_of_present {t : Table} {levels : Nat} {id : TypeId} {tags : Shape.OptionForm}
    {layout : Layout} (hform : t.form id = .ok (.option tags layout)) {bytes rest : List UInt8}
    {v : Value} (h : decodeWithin t levels tags.payload bytes = .ok (v, rest)) :
    v.isNull = false := by
  obtain ⟨hpayload, hunit⟩ := form_payload hform
  cases levels with
  | zero => cases h
  | succ levels =>
    have hne := (readBy_of_decodeWithin hpayload h).ne_null hunit
    cases v with
    | null => exact absurd rfl hne
    | _ => rfl

/-- The values of a sound table are read only from what they are written as. -/
theorem canonical_decodeWithin {t : Table} (ht : t.Sound) (levels : Nat) :
    Canonical t (decodeWithin t levels) := by
  refine decodeWithin_induction (fun levels ih id bytes v rest h => ?_) levels
  cases h with
  | plain hform hread =>
    rw [encode_plain hform]
    exact canonical_layout ht ih hform hread
  | absent hform =>
    refine ⟨[_], rfl, ?_⟩
    rw [encode_option hform]
    rfl
  | present hform hpayload =>
    obtain ⟨front, rfl, hfront⟩ := ih _ _ _ _ hpayload
    rw [encode_plain (form_payload hform).1] at hfront
    refine ⟨_ :: front, rfl, ?_⟩
    rw [encode_option hform, isNull_of_present hform hpayload, hfront]
    rfl

/-- What is accepted at the front of some bytes is what the type writes for the value. -/
theorem encode_of_decodePrefix {t : Table} (ht : t.Sound) {id : TypeId} {bytes : List UInt8}
    {v : Value} {n : Nat} (h : Forms.decodePrefix t.form id bytes = .ok (v, n)) :
    ∃ front rest, bytes = front ++ rest ∧ front.length = n ∧ encode t v id = .ofBytes front := by
  obtain ⟨⟨w, rest⟩, hrun, hpair⟩ := except_bind_ok h
  cases hpair
  obtain ⟨front, rfl, hencode⟩ := canonical_decodeWithin ht maxLevels id _ _ _ hrun
  exact ⟨front, rest, rfl, by simp, hencode⟩

end Typewire.Wire
