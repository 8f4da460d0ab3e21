-- Values are written and read by the forms of their type and of the types inside it. So forms
-- that agree on a closed set of types write and read the values of those types alike.
import Typewire.Proofs.Wire.Forms
import Typewire.Proofs.Wire.Normal
import Typewire.Proofs.Wire.Rows

namespace Typewire.Wire

variable {forms forms' : Forms}

/-! ## Writing -/

theorem encodeRow_congr {ps : List (Value × TypeId)}
    (h : ∀ p ∈ ps, encode forms' p.1 p.2 = encode forms p.1 p.2) :
    encodeRow forms' ps = encodeRow forms ps :=
  congrArg Encoding.concat (List.map_congr_left h)

theorem encodeField_congr {entries : List (String × Value)} {f : Field}
    (hinner : ∀ w, sizeOf w < sizeOf (Value.map entries) →
      encode forms' w f.type = encode forms w f.type)
    (hform : forms' f.type = forms f.type) :
    encodeField forms' entries f = encodeField forms entries f := by
  unfold encodeField
  cases hv : entries.lookup f.name with
  | some v =>
    have hsize := sizeOf_lookup hv
    exact hinner v (by rw [Value.map.sizeOf_spec]; omega)
  | none => simp only [encodeAbsent, hform]

theorem encodePayload_congr {entries : List (String × Value)} {choice : Choice}
    (hinner : ∀ w id, sizeOf w < sizeOf (Value.map entries) → choice.variant.payload = some id →
      encode forms' w id = encode forms w id) :
    encodePayload forms' entries choice = encodePayload forms entries choice := by
  unfold encodePayload
  cases hp : choice.variant.payload with
  | none => rfl
  | some p => exact hinner _ p (sizeOf_payload entries choice.payloadKey) hp

theorem encodeAs_congr {v : Value} {layout : Layout}
    (hinner : ∀ w id, sizeOf w < sizeOf v → id ∈ layout.inner →
      encode forms' w id = encode forms w id)
    (hforms : ∀ id ∈ layout.inner, forms' id = forms id) :
    encodeAs forms' v layout = encodeAs forms v layout := by
  cases v with
  | list items =>
    have hitems (element : TypeId) (helement : element ∈ layout.inner) :
        encodeItems forms' items element = encodeItems forms items element := by
      rw [encodeItems_eq, encodeItems_eq]
      refine encodeRow_congr fun p hp => ?_
      obtain ⟨w, hw, rfl⟩ := List.mem_map.mp hp
      exact hinner w element (sizeOf_item hw) helement
    cases layout with
    | sequence element zeroSized => simp only [encodeAs, hitems element List.mem_cons_self]
    | array element length => simp only [encodeAs, hitems element List.mem_cons_self]
    | tuple members =>
      cases members with
      | nil => rfl
      | cons m ms =>
        have hmembers : encodeMembers forms' items (m :: ms)
            = encodeMembers forms items (m :: ms) := by
          rw [encodeMembers_eq, encodeMembers_eq]
          refine encodeRow_congr fun p hp => ?_
          obtain ⟨hitem, hmember⟩ := List.of_mem_zip hp
          exact hinner p.1 p.2 (sizeOf_item hitem) hmember
        simp only [encodeAs, hmembers]
    | _ => rfl
  | map entries =>
    cases layout with
    | struct fields =>
      have hfields : fields.map (encodeField forms' entries)
          = fields.map (encodeField forms entries) := by
        refine List.map_congr_left fun f hf => ?_
        have hmem : f.type ∈ (Layout.struct fields).inner := List.mem_map.mpr ⟨f, hf, rfl⟩
        exact encodeField_congr (fun w hw => hinner w f.type hw hmem) (hforms f.type hmem)
      simp only [encodeAs, hfields]
    | enum variants =>
      cases hchoice : Choice.ofEntries variants entries with
      | error e => simp only [encodeAs, hchoice]
      | ok choice =>
        obtain ⟨name, -, hfind, -⟩ := ofEntries_ok hchoice
        have hmem := List.mem_of_find?_eq_some hfind
        have hpayload : encodePayload forms' entries choice = encodePayload forms entries choice :=
          encodePayload_congr fun w id hw hid =>
            hinner w id hw (List.mem_filterMap.mpr ⟨_, hmem, hid⟩)
        simp only [encodeAs, hchoice, hpayload]
    | _ => rfl
  | _ => cases layout <;> rfl

/-- Values of types among the first places are written alike by forms that agree on them. -/
theorem encode_congr {size : Nat} (hwithin : forms.Within size)
    (hsame : ∀ id, id < size → forms' id = forms id) (v : Value) {id : TypeId} (hid : id < size) :
    encode forms' v id = encode forms v id := by
  obtain ⟨form, hform, hin⟩ := hwithin id hid
  have hlayout (layout : Layout) (hinner : ∀ i ∈ layout.inner, i < size) :
      encodeAs forms' v layout = encodeAs forms v layout :=
    encodeAs_congr (fun w i _ hi => encode_congr hwithin hsame w (hinner i hi))
      fun i hi => hsame i (hinner i hi)
  rw [encode_eq, encode_eq, encodeBy, encodeBy, hsame id hid, hform]
  cases form with
  | plain layout => exact hlayout layout hin
  | option tags layout => simp only [hlayout layout hin.2]
termination_by sizeOf v

/-! ## Reading -/

theorem takeAll_congr {decode decode' : TypeId → Taking Value} {ids : List TypeId}
    (h : ∀ id ∈ ids, decode' id = decode id) : takeAll decode' ids = takeAll decode ids := by
  induction ids with
  | nil => rfl
  | cons id ids ih =>
    rw [takeAll, takeAll, h id List.mem_cons_self, ih fun i hi => h i (List.mem_cons_of_mem _ hi)]

theorem decodeLayout_congr {decode decode' : TypeId → Taking Value} {layout : Layout}
    (h : ∀ id ∈ layout.inner, decode' id = decode id) :
    decodeLayout decode' layout = decodeLayout decode layout := by
  cases layout with
  | sequence element zeroSized => rw [decodeLayout, decodeLayout, h element List.mem_cons_self]
  | array element length => rw [decodeLayout, decodeLayout, h element List.mem_cons_self]
  | tuple members =>
    cases members with
    | nil => rfl
    | cons m ms =>
      have hall : takeAll decode' (m :: ms) = takeAll decode (m :: ms) := takeAll_congr h
      simp only [decodeLayout, hall]
  | struct fields =>
    have hall : takeAll decode' (fields.map (·.type)) = takeAll decode (fields.map (·.type)) :=
      takeAll_congr h
    simp only [decodeLayout, takeFields_eq, hall]
  | enum variants =>
    simp only [decodeLayout]
    congr 1
    funext tag
    cases hfind : variants.find? (·.tag == tag) with
    | none => rfl
    | some v =>
      obtain ⟨name, vtag, payload⟩ := v
      cases payload with
      | none => rfl
      | some p =>
        have hmem := List.mem_of_find?_eq_some hfind
        simp only [h p (List.mem_filterMap.mpr ⟨_, hmem, rfl⟩)]
  | _ => rfl

/-- Values of types among the first places are read alike by forms that agree on them. -/
theorem decodeWithin_congr {size : Nat} (hwithin : forms.Within size)
    (hsame : ∀ id, id < size → forms' id = forms id) (levels : Nat) {id : TypeId}
    (hid : id < size) : decodeWithin forms' levels id = decodeWithin forms levels id := by
  induction levels generalizing id with
  | zero => rfl
  | succ levels ih =>
    obtain ⟨form, hform, hin⟩ := hwithin id hid
    rw [decodeWithin, decodeWithin, hsame id hid, hform]
    cases form with
    | plain layout => exact decodeLayout_congr fun i hi => ih (hin i hi)
    | option tags layout => simp only [ih hin.1]

end Typewire.Wire
