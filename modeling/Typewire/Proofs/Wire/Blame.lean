-- Why encoding and decoding stop. Where every type has a form they stop for what the value or the
-- bytes are, and never because a type is not known or cannot be a compact integer.
import Typewire.Proofs.Wire.Agree
import Typewire.Proofs.Wire.Laws

namespace Typewire

namespace Wire

/-! ## Outcomes without blame -/

/-- If there is no result, that is not for a type. -/
def Blameless {α : Type} (r : Except CodecError α) : Prop :=
  ∀ x, r = .error x → x.blamesType = false

section

variable {α β : Type}

theorem blameless_ok (a : α) : Blameless (.ok a : Except CodecError α) := by
  rintro x ⟨⟩

theorem blameless_error {x : CodecError} (h : x.blamesType = false) :
    Blameless (.error x : Except CodecError α) := by
  rintro _ ⟨⟩
  exact h

theorem Blameless.bind {r : Except CodecError α} {f : α → Except CodecError β} (h : Blameless r)
    (hf : ∀ a, Blameless (f a)) : Blameless (r >>= f) := by
  cases r with
  | error x => exact blameless_error (h x rfl)
  | ok a => exact hf a

theorem blameless_mapM {f : α → Except CodecError β} (hf : ∀ a, Blameless (f a)) (xs : List α) :
    Blameless (xs.mapM f) := by
  induction xs with
  | nil => exact blameless_ok []
  | cons x xs ih =>
    rw [List.mapM_cons]
    exact (hf x).bind fun b => ih.bind fun bs => blameless_ok (b :: bs)

end

theorem blameless_mismatch {expected : String} {v : Value}
    (h : (expected == "unsigned integer inside compact") = false) :
    (mismatch expected v).blamesType = false := h

theorem blameless_intWithin (v : Value) (k : IntKind) : Blameless (intWithin v k) := by
  have hname : (k.name == "unsigned integer inside compact") = false := by
    obtain ⟨signed, width⟩ := k
    cases signed <;> cases width <;> rfl
  have hint : Blameless (intOf v k) := by
    simp only [intOf]
    split
    · exact blameless_ok _
    · exact blameless_error (blameless_mismatch hname)
  refine hint.bind fun n => ?_
  split
  · exact blameless_ok n
  · exact blameless_error rfl

theorem blameless_bytesOf (v : Value) : Blameless (bytesOf v) := by
  have hbyte (v : Value) : Blameless (byteOf v) := by
    unfold byteOf
    split
    · split
      · exact blameless_ok _
      · exact blameless_error rfl
    · exact blameless_error rfl
  cases v with
  | bytes bytes => exact blameless_ok bytes
  | text s =>
    simp only [bytesOf]
    split
    · rename_i digits _
      cases Text.Hex.decode digits with
      | ok bytes => exact blameless_ok bytes
      | error fault => exact blameless_error rfl
    · exact blameless_ok _
  | list items => exact blameless_mapM hbyte items
  | _ => exact blameless_error rfl

theorem blameless_encodeBytes (length : Option Nat) (v : Value) :
    Blameless (encodeBytes length v) := by
  refine (blameless_bytesOf v).bind fun bytes => ?_
  cases length with
  | none => exact blameless_ok _
  | some n =>
    simp only
    split
    · exact blameless_ok bytes
    · exact blameless_error rfl

theorem blameless_ofEntries (variants : List Variant) (entries : List (String × Value)) :
    Blameless (Choice.ofEntries variants entries) := by
  have hname : Blameless (Choice.nameAndKey variants entries) := by
    simp only [Choice.nameAndKey]
    split
    · split
      · exact blameless_ok _
      · split
        · exact blameless_ok _
        · exact blameless_error rfl
    · split
      · exact blameless_ok _
      · exact blameless_error rfl
  refine hname.bind fun chosen => ?_
  simp only
  split
  · split
    · exact blameless_error rfl
    · exact blameless_ok _
  · exact blameless_error rfl

/-! ## Writing -/

namespace Encoding

/-- If writing stops, that is not for a type. -/
def Blameless (e : Encoding) : Prop := ∀ x, e.fault = some x → x.blamesType = false

theorem blameless_ofBytes (bytes : List UInt8) : (ofBytes bytes).Blameless := by
  rintro x ⟨⟩

theorem blameless_stop {x : CodecError} (h : x.blamesType = false) : (stop x).Blameless := by
  rintro _ ⟨⟩
  exact h

theorem blameless_ofExcept {r : Except CodecError (List UInt8)} (h : Wire.Blameless r) :
    (ofExcept r).Blameless := by
  cases r with
  | ok bytes => exact blameless_ofBytes bytes
  | error x => exact blameless_stop (h x rfl)

theorem Blameless.append {a b : Encoding} (ha : a.Blameless) (hb : b.Blameless) :
    (a ++ b).Blameless := by
  obtain ⟨bytes, _ | x⟩ := a
  · exact hb
  · exact ha

theorem blameless_concat {es : List Encoding} (h : ∀ e ∈ es, e.Blameless) :
    (concat es).Blameless := by
  induction es with
  | nil => exact blameless_ofBytes []
  | cons e es ih =>
    obtain ⟨he, hes⟩ := List.forall_mem_cons.mp h
    exact he.append (ih hes)

theorem Blameless.result {e : Encoding} (h : e.Blameless) : Wire.Blameless e.result := by
  obtain ⟨bytes, _ | x⟩ := e
  · exact blameless_ok bytes
  · exact blameless_error (h x rfl)

end Encoding

open Encoding

variable {forms : Forms} {size : Nat}

theorem blameless_encodeScalar (v : Value) (layout : Layout) :
    (encodeScalar v layout).Blameless := by
  cases layout with
  | bool => cases v <;> first | exact blameless_ofBytes _ | exact blameless_stop rfl
  | str => cases v <;> first | exact blameless_ofBytes _ | exact blameless_stop rfl
  | integer k =>
    refine blameless_ofExcept ?_
    rw [writeInt_eq]
    exact (blameless_intWithin v k).bind fun _ => blameless_ok _
  | compact k =>
    refine blameless_ofExcept ((blameless_intWithin v k).bind fun n => ?_)
    rw [Compact.encode_eq]
    split
    · exact blameless_ok _
    · exact blameless_error rfl
  | bytes length => exact blameless_ofExcept (blameless_encodeBytes length v)
  | tuple members =>
    cases members with
    | nil =>
      simp only [encodeScalar]
      split
      · exact blameless_ofBytes []
      · exact blameless_stop rfl
    | cons m ms => exact blameless_stop rfl
  | _ => exact blameless_stop rfl

theorem blameless_encodeRow {ps : List (Value × TypeId)}
    (h : ∀ p ∈ ps, (encode forms p.1 p.2).Blameless) : (encodeRow forms ps).Blameless := by
  refine blameless_concat fun e he => ?_
  obtain ⟨p, hp, rfl⟩ := List.mem_map.mp he
  exact h p hp

theorem blameless_encodeField (hforms : forms.Within size) {entries : List (String × Value)}
    {f : Field} (hf : f.type < size)
    (hinner : ∀ w, sizeOf w < sizeOf (Value.map entries) → (encode forms w f.type).Blameless) :
    (encodeField forms entries f).Blameless := by
  unfold encodeField
  cases hv : entries.lookup f.name with
  | some v =>
    have hsize := sizeOf_lookup hv
    exact hinner v (by rw [Value.map.sizeOf_spec]; omega)
  | none =>
    obtain ⟨form, hform, -⟩ := hforms f.type hf
    simp only [encodeAbsent, hform]
    cases form with
    | plain layout => exact blameless_stop rfl
    | option tags layout => exact blameless_ofBytes _

theorem blameless_encodeAs (hforms : forms.Within size) {v : Value} {layout : Layout}
    (hlayout : ∀ id ∈ layout.inner, id < size)
    (hinner : ∀ w id, sizeOf w < sizeOf v → id < size → (encode forms w id).Blameless) :
    (encodeAs forms v layout).Blameless := by
  cases v with
  | list items =>
    have hitems (element : TypeId) (helement : element < size) :
        (encodeItems forms items element).Blameless := by
      rw [encodeItems_eq]
      refine blameless_encodeRow fun p hp => ?_
      obtain ⟨w, hw, rfl⟩ := List.mem_map.mp hp
      exact hinner w element (sizeOf_item hw) helement
    cases layout with
    | sequence element zeroSized =>
      exact (blameless_ofBytes _).append (hitems element (hlayout element List.mem_cons_self))
    | array element length =>
      simp only [encodeAs]
      split
      · exact hitems element (hlayout element List.mem_cons_self)
      · exact blameless_stop rfl
    | tuple members =>
      cases members with
      | nil =>
        simp only [encodeAs]
        split
        · exact blameless_ofBytes []
        · exact blameless_stop rfl
      | cons m ms =>
        simp only [encodeAs]
        split
        · rw [encodeMembers_eq]
          refine blameless_encodeRow fun p hp => ?_
          obtain ⟨hitem, hmember⟩ := List.of_mem_zip hp
          exact hinner p.1 p.2 (sizeOf_item hitem) (hlayout p.2 hmember)
        · exact blameless_stop rfl
    | _ => exact blameless_encodeScalar _ _
  | map entries =>
    cases layout with
    | struct fields =>
      refine blameless_concat fun e he => ?_
      obtain ⟨f, hf, rfl⟩ := List.mem_map.mp he
      have hmem : f.type < size := hlayout _ (List.mem_map.mpr ⟨f, hf, rfl⟩)
      exact blameless_encodeField hforms hmem fun w hw => hinner w f.type hw hmem
    | enum variants =>
      simp only [encodeAs]
      cases hchoice : Choice.ofEntries variants entries with
      | error x => exact blameless_stop (blameless_ofEntries variants entries x hchoice)
      | ok choice =>
        obtain ⟨name, -, hfind, -⟩ := ofEntries_ok hchoice
        have hmem := List.mem_of_find?_eq_some hfind
        refine (blameless_ofBytes _).append ?_
        unfold encodePayload
        cases hp : choice.variant.payload with
        | none => exact blameless_ofBytes []
        | some p =>
          exact hinner _ p (sizeOf_payload entries choice.payloadKey)
            (hlayout p (List.mem_filterMap.mpr ⟨_, hmem, hp⟩))
    | _ => exact blameless_encodeScalar _ _
  | _ => cases layout <;> exact blameless_encodeScalar _ _

/-- Where the first types have forms, writing a value of one of them never stops for a type. -/
theorem blameless_encode (hforms : forms.Within size) (v : Value) {id : TypeId} (hid : id < size) :
    (encode forms v id).Blameless := by
  obtain ⟨form, hform, hin⟩ := hforms id hid
  have hlayout (layout : Layout) (hinner : ∀ i ∈ layout.inner, i < size) :
      (encodeAs forms v layout).Blameless :=
    blameless_encodeAs hforms hinner fun w i _ hi => blameless_encode hforms w hi
  rw [encode_eq, encodeBy, hform]
  cases form with
  | plain layout => exact hlayout layout hin
  | option tags layout =>
    simp only
    split
    · exact blameless_ofBytes _
    · exact (blameless_ofBytes _).append (hlayout layout hin.2)
termination_by sizeOf v

/-! ## Reading -/

/-- If reading stops, that is not for a type. -/
def Taking.Blameless {α : Type} (step : Taking α) : Prop := ∀ bytes, Wire.Blameless (step bytes)

theorem blameless_readers : ReaderLaw Taking.Blameless where
  pure a bytes := blameless_ok (a, bytes)
  throw h bytes := blameless_error h
  bind h hf bytes := (h bytes).bind fun (a, rest) => hf a rest
  takeByte bytes := by
    unfold takeByte
    split
    · exact blameless_ok _
    · exact blameless_error rfl
  take count bytes := by
    simp only [take]
    split
    · exact blameless_ok _
    · exact blameless_error rfl

/-- Where the first types have forms, reading a value of one of them never stops for a type. -/
theorem blameless_decodeWithin (hforms : forms.Within size) (levels : Nat) {id : TypeId}
    (hid : id < size) : Taking.Blameless (decodeWithin forms levels id) := by
  refine blameless_readers.decodeWithin (· < size) (fun i hi => ?_) levels hid
  obtain ⟨form, hform, hin⟩ := hforms i hi
  rw [hform]
  cases form with
  | plain layout => exact hin
  | option tags layout => exact hin.1

end Wire

end Typewire
