-- Writing behind bytes that are there already. A writer adds the encoding of its value, whatever
-- it is that stands before: this holds of each part that it adds, and so of any parts in a row, up
-- to the one where it stops.
import Typewire.Proofs.Wire.Encoding
import Typewire.Registry

namespace Typewire

namespace Wire

open Writing

/-! ## Writers that only add -/

/-- How writing ended. -/
def Encoding.ended (e : Encoding) : Except CodecError Unit :=
  match e.fault with
  | none => .ok ()
  | some fault => .error fault

/-- The writer adds the bytes of the encoding to any bytes, and ends as the encoding does. -/
def Writing.Adds (w : Writing Unit) (e : Encoding) : Prop :=
  ∀ out : Array UInt8, (w.run out).run = (e.ended, out ++ e.bytes)

variable {w w' : Writing Unit} {a b : Encoding}

theorem adds_pure : Adds (pure ()) .empty := by
  intro out
  simp [Encoding.empty, Encoding.ended]
  rfl

theorem adds_throw (x : CodecError) : Adds (throw x) (.stop x) := by
  intro out
  simp [Encoding.stop, Encoding.ended]
  rfl

theorem adds_push (byte : UInt8) : Adds (push byte) (.ofBytes [byte]) := by
  intro out
  simp [Encoding.ofBytes, Encoding.ended]
  rfl

theorem adds_extend (bytes : List UInt8) : Adds (extend bytes) (.ofBytes bytes) := fun _ => rfl

/-- Two writers in a row add the one encoding after the other. Where the first stops the second
does not run. -/
theorem Writing.Adds.seq (h : Adds w a) (h' : Adds w' b) : Adds (do w; w') (a ++ b) := by
  intro out
  have hout : w out = (a.ended, out ++ a.bytes) := h out
  change ExceptT.bindCont (fun _ => w') (w out).1 (w out).2 = _
  rw [hout]
  obtain ⟨front, _ | x⟩ := a
  · have hrest : w' (out ++ front) = (b.ended, out ++ front ++ b.bytes) := h' (out ++ front)
    have hbytes : out ++ front ++ b.bytes = out ++ (front ++ b.bytes) := by
      apply Array.ext'
      simp
    exact hrest.trans (congrArg (Prod.mk b.ended) hbytes)
  · rfl

/-- What hangs on a result is added where there is one. -/
theorem adds_ofExcept {α : Type} {f : α → Writing Unit}
    {g : α → Except CodecError (List UInt8)} (h : ∀ x, Adds (f x) (.ofExcept (g x)))
    (r : Except CodecError α) :
    Adds (do f (← MonadExcept.ofExcept r)) (.ofExcept (do g (← r))) := by
  cases r with
  | ok x => exact h x
  | error x => exact adds_throw x

theorem adds_ite {p : Prop} [Decidable p] (h : Adds w a) (h' : Adds w' b) :
    Adds (if p then w else w') (if p then a else b) := by
  split
  · exact h
  · exact h'

theorem adds_forM {α : Type} {f : α → Writing Unit} {g : α → Encoding}
    (h : ∀ x, Adds (f x) (g x)) (xs : List α) : Adds (xs.forM f) (.concat (xs.map g)) := by
  induction xs with
  | nil => exact adds_pure
  | cons x xs ih => exact (h x).seq ih

/-! ## Numbers -/

theorem adds_putCounted (bytes : List UInt8) :
    Adds (Compact.putCounted bytes) (.ofBytes (Compact.counted bytes)) :=
  (adds_push _).seq (adds_extend bytes)

theorem adds_putWord (n : UInt64) :
    Adds (Compact.putWord n) (.ofBytes (Compact.writeWord n)) := by
  unfold Compact.putWord Compact.writeWord
  split
  · exact adds_push _
  split
  · exact adds_extend _
  split
  · exact adds_extend _
  · exact adds_putCounted _

theorem adds_put (n : Nat) : Adds (Compact.put n) (.ofBytes (Compact.write n)) := by
  unfold Compact.put Compact.write
  split
  · exact adds_putWord _
  · exact adds_putCounted _

theorem adds_putShort (n : Nat) : Adds (Compact.putShort n) (.ofExcept (Compact.encode n)) := by
  unfold Compact.putShort Compact.encode
  split
  · exact adds_putWord _
  split
  · exact adds_throw _
  · exact adds_putCounted _

theorem adds_putInt_wide (k : IntKind) (v : Value) :
    Adds (putInt.wide k v) (.ofExcept (writeInt.wide k v)) := by
  refine adds_ofExcept (fun n => ?_) (intWithin v k)
  change Adds _ (.ofBytes (wideBytes k n))
  unfold wideBytes
  cases k.isSigned with
  | true => exact (adds_extend _).seq (adds_extend _)
  | false => exact (adds_extend _).seq (adds_extend _)

theorem adds_putInt (k : IntKind) (v : Value) : Adds (putInt k v) (.ofExcept (writeInt k v)) := by
  cases v with
  | integer n =>
    unfold putInt writeInt
    simp only
    split
    · split
      · exact adds_extend _
      · exact adds_throw _
    · exact adds_putInt_wide k _
  | _ => exact adds_putInt_wide k _

/-! ## Values without values inside -/

theorem adds_putSized (bytes : List UInt8) :
    Adds (putSized bytes) (.ofBytes (Compact.write bytes.length ++ bytes)) :=
  (adds_put _).seq (adds_extend bytes)

theorem adds_putBytes (length : Option Nat) (v : Value) :
    Adds (putBytes length v) (.ofExcept (encodeBytes length v)) := by
  refine adds_ofExcept (fun bytes => ?_) (bytesOf v)
  cases length with
  | none => exact adds_putSized bytes
  | some n =>
    by_cases hlength : bytes.length = n
    · simp only [hlength, if_true]
      exact adds_extend bytes
    · simp only [hlength, if_false]
      exact adds_throw _

theorem adds_putScalar (v : Value) (layout : Layout) :
    Adds (putScalar v layout) (encodeScalar v layout) := by
  unfold putScalar encodeScalar
  cases layout with
  | bool =>
    cases v with
    | bool b => exact adds_push _
    | _ => exact adds_throw _
  | str =>
    cases v with
    | text s => exact adds_putSized _
    | _ => exact adds_throw _
  | integer k => exact adds_putInt k v
  | compact k => exact adds_ofExcept (fun n => adds_putShort n.toNat) (intWithin v k)
  | bytes length => exact adds_putBytes length v
  | tuple members =>
    cases members with
    | nil => exact adds_ite adds_pure (adds_throw _)
    | cons => exact adds_throw _
  | _ => exact adds_throw _

/-! ## Values -/

theorem adds_putBy (forms : Forms) (id : TypeId) (v : Value) {put : Layout → Writing Unit}
    {encode : Layout → Encoding} (h : ∀ layout, Adds (put layout) (encode layout)) :
    Adds (putBy forms id v put) (encodeBy forms id v encode) := by
  unfold putBy encodeBy
  cases forms id with
  | error x => exact adds_throw x
  | ok form =>
    cases form with
    | plain layout => exact h layout
    | option tags payload => exact adds_ite (adds_push _) ((adds_push _).seq (h payload))

theorem adds_putAbsent (forms : Forms) (f : Field) :
    Adds (putAbsent forms f) (encodeAbsent forms f) := by
  unfold putAbsent encodeAbsent
  cases forms f.type with
  | error x => exact adds_throw x
  | ok form =>
    cases form with
    | plain layout => exact adds_throw _
    | option tags payload => exact adds_push _

theorem adds_getD {w? : Option (Writing Unit)} {e? : Option Encoding}
    (h : Option.Rel Adds w? e?) (h' : Adds w b) : Adds (w?.getD w) (e?.getD b) := by
  cases h with
  | some h => exact h
  | none => exact h'

mutual

/-- A value is written as its encoding behind whatever there is. -/
theorem adds_putValue (forms : Forms) (v : Value) (id : TypeId) :
    Adds (putValue forms v id) (encode forms v id) := by
  cases v with
  | list items =>
    rw [putValue, encode]
    refine adds_putBy forms id _ fun layout => ?_
    cases layout with
    | sequence element zeroSized => exact (adds_put _).seq (adds_putItems forms items element)
    | array element length => exact adds_ite (adds_putItems forms items element) (adds_throw _)
    | tuple members =>
      cases members with
      | nil => exact adds_ite adds_pure (adds_throw _)
      | cons m members => exact adds_ite (adds_putMembers forms items _) (adds_throw _)
    | _ => exact adds_putScalar _ _
  | map entries =>
    rw [putValue, encode]
    refine adds_putBy forms id _ fun layout => ?_
    cases layout with
    | struct fields =>
      exact adds_forM (fun f => adds_getD (adds_putEntry forms entries f.name f.type)
        (adds_putAbsent forms f)) fields
    | enum variants =>
      dsimp only
      rcases Choice.ofEntries variants entries with x | ⟨⟨name, tag, payload⟩, key⟩
      · exact adds_throw x
      refine (adds_push tag).seq ?_
      rcases payload with _ | p
      · exact adds_pure
      rcases key with _ | key
      · exact adds_putBy forms p .null (adds_putScalar .null)
      · exact adds_getD (adds_putEntry forms entries key p) adds_pure
    | _ => exact adds_putScalar _ _
  | _ =>
    rw [putValue, encode]
    exact adds_putBy forms id _ (adds_putScalar _)

theorem adds_putItems (forms : Forms) (items : List Value) (id : TypeId) :
    Adds (putItems forms items id) (encodeItems forms items id) := by
  cases items with
  | nil => exact adds_pure
  | cons v vs => exact (adds_putValue forms v id).seq (adds_putItems forms vs id)

theorem adds_putMembers (forms : Forms) (items : List Value) (ids : List TypeId) :
    Adds (putMembers forms items ids) (encodeMembers forms items ids) := by
  cases items with
  | nil => exact adds_pure
  | cons v vs =>
    cases ids with
    | nil => exact adds_pure
    | cons id ids => exact (adds_putValue forms v id).seq (adds_putMembers forms vs ids)

theorem adds_putEntry (forms : Forms) (entries : List (String × Value)) (key : String)
    (id : TypeId) :
    Option.Rel Adds (putEntry forms entries key id) (encodeEntry forms entries key id) := by
  cases entries with
  | nil => exact .none
  | cons e rest =>
    obtain ⟨k, v⟩ := e
    rw [putEntry, encodeEntry]
    split
    · exact .some (adds_putValue forms v id)
    · exact adds_putEntry forms rest key id

end

/-- What there is in the end is what was there before and the encoding. -/
theorem encodeOnto_eq (forms : Forms) (bytes : List UInt8) (id : TypeId) (v : Value) :
    Forms.encodeOnto forms bytes id v = .ofBytes bytes ++ encode forms v id := by
  unfold Forms.encodeOnto Writing.onto
  rw [adds_putValue forms v id bytes.toArray]
  rcases encode forms v id with ⟨written, _ | fault⟩
  · change (⟨(bytes.toArray ++ written).toList, none⟩ : Encoding) = ⟨bytes ++ written, none⟩
    simp
  · change (⟨(bytes.toArray ++ written).toList, some fault⟩ : Encoding)
      = ⟨bytes ++ written, some fault⟩
    simp

end Wire

/-- Writing a value only adds, and does not look at what is there already. There are bytes that
come behind any others, all of them or up to where writing stops, and it always ends in the same
way. They are the bytes that the value has by itself. -/
theorem writing_only_adds (forms : Wire.Forms) (id : TypeId) (v : Value) :
    ∃ written fault,
      (∀ bytes, forms.encodeOnto bytes id v = ⟨bytes ++ written, fault⟩) ∧
      forms.encode id v = match fault with
        | none => .ok written
        | some fault => .error fault := by
  refine ⟨(Wire.encode forms v id).bytes, (Wire.encode forms v id).fault, fun bytes => ?_, rfl⟩
  exact Wire.encodeOnto_eq forms bytes id v

end Typewire
