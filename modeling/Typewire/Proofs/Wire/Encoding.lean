-- The laws of encodings. An encoding that does not stop is its bytes, and the encoding of a
-- value by its type is the encoding by the layout of the type, after the tag of an option.
import Typewire.Proofs.Shape.Distinct
import Typewire.Wire.Encode

namespace Typewire.Wire

/-! ## Encodings in a row -/

namespace Encoding

/-- Two encodings in a row give bytes when both do. -/
theorem append_eq_ofBytes {a b : Encoding} {bytes : List UInt8} (h : a ++ b = ofBytes bytes) :
    ∃ front back, a = ofBytes front ∧ b = ofBytes back ∧ bytes = front ++ back := by
  obtain ⟨front, _ | x⟩ := a
  · obtain ⟨back, fault⟩ := b
    change (⟨front ++ back, fault⟩ : Encoding) = ofBytes bytes at h
    cases h
    exact ⟨front, back, rfl, rfl, rfl⟩
  · cases h

theorem stop_ne_ofBytes (x : CodecError) (bytes : List UInt8) : stop x ≠ ofBytes bytes := by
  intro h
  cases h

theorem ofBytes_inj {a b : List UInt8} (h : ofBytes a = ofBytes b) : a = b := by
  cases h
  rfl

theorem ofExcept_eq_ofBytes {r : Except CodecError (List UInt8)} {bytes : List UInt8}
    (h : ofExcept r = ofBytes bytes) : r = .ok bytes := by
  cases r with
  | error e => cases h
  | ok front => cases h; rfl

theorem result_eq_ok {e : Encoding} {bytes : List UInt8} :
    e.result = .ok bytes ↔ e = ofBytes bytes := by
  rcases e with ⟨front, _ | x⟩
  · constructor
    · intro h
      cases h
      rfl
    · intro h
      cases h
      rfl
  · constructor <;> intro h <;> cases h

end Encoding

open Encoding

/-! ## By layout -/

/-- The encoding of a field by the entries of a map. -/
def encodeField (forms : Forms) (entries : List (String × Value)) (f : Field) : Encoding :=
  match entries.lookup f.name with
  | some v => encode forms v f.type
  | none => encodeAbsent forms f

/-- The encoding of the payload that a choice made among the entries of an enum value. -/
def encodePayload (forms : Forms) (entries : List (String × Value)) (choice : Choice) : Encoding :=
  match choice.variant.payload with
  | none => .empty
  | some p => encode forms (Choice.payload entries choice.payloadKey) p

/-- The encoding of a value by a layout. -/
def encodeAs (forms : Forms) : Value → Layout → Encoding
  | .list items, .sequence element _ =>
    .ofBytes (Compact.write items.length) ++ encodeItems forms items element
  | .list items, .array element length =>
    if items.length = length then encodeItems forms items element
    else .stop (.arityMismatch length items.length)
  | .list items, .tuple [] =>
    if items.isEmpty then .empty else .stop (mismatch "null or empty list" (.list items))
  | .list items, .tuple members =>
    if items.length = members.length then encodeMembers forms items members
    else .stop (.arityMismatch members.length items.length)
  | .map entries, .struct fields => .concat (fields.map (encodeField forms entries))
  | .map entries, .enum variants =>
    match Choice.ofEntries variants entries with
    | .error e => .stop e
    | .ok choice => .ofBytes [choice.variant.tag] ++ encodePayload forms entries choice
  | v, layout => encodeScalar v layout

theorem encodeAs_integer (forms : Forms) (v : Value) (k : IntKind) :
    encodeAs forms v (.integer k) = .ofExcept (writeInt k v) := by
  cases v <;> rfl

theorem encodeAs_compact (forms : Forms) (v : Value) (k : IntKind) :
    encodeAs forms v (.compact k)
      = .ofExcept (do Compact.encode (← intWithin v k).toNat) := by
  cases v <;> rfl

theorem encodeAs_bytes (forms : Forms) (v : Value) (length : Option Nat) :
    encodeAs forms v (.bytes length) = .ofExcept (encodeBytes length v) := by
  cases v <;> rfl

theorem encodeEntry_eq (forms : Forms) (entries : List (String × Value)) (key : String) (id : TypeId) :
    encodeEntry forms entries key id = (entries.lookup key).map (encode forms · id) := by
  induction entries with
  | nil => rfl
  | cons e rest ih =>
    obtain ⟨k, v⟩ := e
    by_cases hk : k = key
    · simp [encodeEntry, hk]
    · have hne : ¬ key = k := fun h => hk h.symm
      simp [encodeEntry, hk, List.lookup_cons, beq_false_of_ne hne, ih]

theorem lookup_of_explicit {entries : List (String × Value)} {name key : String}
    {otherwise : CodecError}
    (h : (match Choice.explicitName? entries with
      | some name => .ok (name, (entries.lookup "value").map fun _ => "value")
      | none => .error otherwise) = Except.ok (name, some key)) :
    ∃ v, entries.lookup key = some v := by
  split at h
  · cases hv : entries.lookup "value" with
    | none => simp [hv] at h
    | some v =>
      simp only [hv, Option.map_some, Except.ok.injEq, Prod.mk.injEq, Option.some.injEq] at h
      exact ⟨v, h.2 ▸ hv⟩
  · cases h

/-- A payload key is one of the keys of the value. -/
theorem lookup_of_nameAndKey {variants : List Variant} {entries : List (String × Value)}
    {name key : String} (h : Choice.nameAndKey variants entries = .ok (name, some key)) :
    ∃ v, entries.lookup key = some v := by
  simp only [Choice.nameAndKey] at h
  split at h
  · rename_i single v
    split at h
    · cases h
      exact ⟨v, by simp⟩
    · exact lookup_of_explicit h
  · exact lookup_of_explicit h

theorem ofEntries_ok {variants : List Variant} {entries : List (String × Value)} {choice : Choice}
    (h : Choice.ofEntries variants entries = .ok choice) :
    ∃ name, Choice.nameAndKey variants entries = .ok (name, choice.payloadKey) ∧
      variants.find? (·.name == name) = some choice.variant ∧
      (choice.variant.payload = none →
        (Choice.payload entries choice.payloadKey).isNull = true) := by
  unfold Choice.ofEntries at h
  rcases hkey : Choice.nameAndKey variants entries with e | ⟨name, key⟩
  · rw [hkey] at h; cases h
  · rw [hkey] at h
    simp only [bind, Except.bind] at h
    cases hv : variants.find? (·.name == name) with
    | none => rw [hv] at h; cases h
    | some v =>
      rw [hv] at h
      simp only at h
      split at h
      · cases h
      · rename_i hpayload
        cases h
        exact ⟨name, rfl, hv, by simpa using hpayload⟩

/-- A type that is no option encodes by its layout, and an option by its tags and the layout of
its payload. -/
theorem encode_eq (forms : Forms) (v : Value) (id : TypeId) :
    encode forms v id = encodeBy forms id v (encodeAs forms v) := by
  cases v with
  | list items =>
    rw [encode]
    congr 1
    funext layout
    cases layout with
    | tuple members => cases members <;> rfl
    | _ => rfl
  | map entries =>
    rw [encode]
    congr 1
    funext layout
    cases layout with
    | struct fields =>
      simp only [encodeAs]
      congr 2
      funext f
      rw [encodeEntry_eq, encodeField]
      cases entries.lookup f.name <;> rfl
    | enum variants =>
      cases hchoice : Choice.ofEntries variants entries with
      | error e => simp only [encodeAs, hchoice]
      | ok choice =>
        obtain ⟨name, hkey, -, -⟩ := ofEntries_ok hchoice
        obtain ⟨⟨vname, tag, payload⟩, key⟩ := choice
        simp only [encodeAs, hchoice, encodePayload, Choice.payload]
        cases payload with
        | none => rfl
        | some p =>
          cases key with
          | none => simp only [Option.bind_none, Option.getD_none, encode]
          | some key =>
            obtain ⟨w, hw⟩ := lookup_of_nameAndKey hkey
            simp only [encodeEntry_eq, hw, Option.map_some, Option.getD_some, Option.bind_some]
    | _ => rfl
  | _ => rw [encode]; rfl

/-! ## Forms -/

theorem form_plain {t : Table} {id : TypeId} {layout : Layout}
    (h : t.form id = .ok (.plain layout)) :
    ∃ s, t.shape? id = some s ∧ t.layoutOf s = .ok layout := by
  unfold Table.form at h
  split at h
  · rename_i tags _
    cases hl : t.layout tags.payload <;> simp [hl, Except.map] at h
  · cases hl : t.layout id with
    | error e => simp [hl, Except.map] at h
    | ok l =>
      simp only [hl, Except.map, Except.ok.injEq, Form.plain.injEq] at h
      subst h
      unfold Table.layout at hl
      split at hl
      · exact ⟨_, by assumption, hl⟩
      · cases hl

theorem form_option {t : Table} {id : TypeId} {tags : Shape.OptionForm} {layout : Layout}
    (h : t.form id = .ok (.option tags layout)) :
    ∃ vs, t.shape? id = some (.enum vs) ∧ Shape.optionForm? vs = some tags ∧
      t.holdsNull tags.payload = false ∧ t.layout tags.payload = .ok layout := by
  unfold Table.form at h
  split at h
  · rename_i tags' htags
    cases hl : t.layout tags'.payload with
    | error e => simp [hl, Except.map] at h
    | ok l =>
      simp only [hl, Except.map, Except.ok.injEq, Form.option.injEq] at h
      obtain ⟨rfl, rfl⟩ := h
      unfold Table.optionTags? at htags
      split at htags
      · rename_i vs hshape
        obtain ⟨hform, hnull⟩ := Option.filter_eq_some_iff.mp htags
        exact ⟨vs, hshape, hform, by simpa using hnull, hl⟩
      · cases htags
  · cases hl : t.layout id <;> simp [hl, Except.map] at h

/-- A type that cannot hold `null` lies on the wire as its shape says. -/
theorem form_of_not_holdsNull {t : Table} {id : TypeId} (h : t.holdsNull id = false) :
    t.form id = (t.layout id).map .plain := by
  have hnone : t.optionTags? id = none := by
    unfold Table.holdsNull at h
    unfold Table.optionTags?
    split
    · rename_i vs hshape
      simp only [hshape, Option.isSome_eq_false_iff, Option.isNone_iff_eq_none] at h
      rw [h, Option.filter_none]
    · rfl
  rw [Table.form, hnone]

/-- Members, fields and variants lie on the wire as the shape has them. -/
theorem shape_of_layoutOf {t : Table} {s : Shape} {layout : Layout} :
    t.layoutOf s = .ok layout →
      match layout with
      | .tuple members => s = .tuple members
      | .struct fields => s = .struct fields
      | .enum vs => s = .enum vs
      | _ => True := by
  intro h
  cases s with
  | primitive p => cases p <;> cases h <;> trivial
  | compact inner => simp only [Table.layoutOf] at h; split at h <;> cases h; trivial
  | sequence element => simp only [Table.layoutOf] at h; split at h <;> cases h <;> trivial
  | array element n => simp only [Table.layoutOf] at h; split at h <;> cases h <;> trivial
  | tuple members => cases h; rfl
  | enum vs => cases h; rfl
  | struct fields => cases h; rfl

/-- The payload of an option is no option, and it is not the unit type. -/
theorem form_payload {t : Table} {id : TypeId} {tags : Shape.OptionForm} {layout : Layout}
    (h : t.form id = .ok (.option tags layout)) :
    t.form tags.payload = .ok (.plain layout) ∧ layout ≠ .tuple [] := by
  obtain ⟨vs, -, -, hnull, hlayout⟩ := form_option h
  have hplain : t.form tags.payload = .ok (.plain layout) := by
    rw [form_of_not_holdsNull hnull, hlayout]
    rfl
  refine ⟨hplain, ?_⟩
  rintro rfl
  obtain ⟨s, hshape, hl⟩ := form_plain hplain
  cases shape_of_layoutOf hl
  simp only [Table.holdsNull, hshape, List.isEmpty_nil] at hnull
  cases hnull

theorem encode_plain {t : Table} {id : TypeId} {layout : Layout}
    (h : t.form id = .ok (.plain layout)) (v : Value) : encode t v id = encodeAs t v layout := by
  rw [encode_eq, encodeBy, h]

theorem encode_option {t : Table} {id : TypeId} {tags : Shape.OptionForm} {layout : Layout}
    (h : t.form id = .ok (.option tags layout)) (v : Value) :
    encode t v id = if v.isNull then .ofBytes [tags.noneTag]
      else .ofBytes [tags.someTag] ++ encodeAs t v layout := by
  rw [encode_eq, encodeBy, h]

end Typewire.Wire
