-- Laws of readers. A reader takes bytes, gives a value or says what is wrong, or it is two readers
-- in a row. So a law that is kept in these few ways is kept by the reader of every type.
import Typewire.Proofs.Wire.Forms
import Typewire.Proofs.Wire.Rows

namespace Typewire

/-- The error says that there is no form for a type, whatever the value or the bytes. -/
def CodecError.blamesType : CodecError → Bool
  | unknownType _ => true
  | typeMismatch expected _ => expected == "unsigned integer inside compact"
  | _ => false

namespace Wire

/-- The law holds of what readers are made of, and of two readers in a row if it holds of both. -/
structure ReaderLaw (law : ∀ {α : Type}, Taking α → Prop) : Prop where
  pure {α : Type} (a : α) : law (pure a : Taking α)
  throw {α : Type} {x : CodecError} : x.blamesType = false → law (throw x : Taking α)
  bind {α β : Type} {m : Taking α} {f : α → Taking β} :
    law m → (∀ a, law (f a)) → law (m >>= f)
  takeByte : law takeByte
  take (count : Nat) : law (take count)

namespace ReaderLaw

variable {law : ∀ {α : Type}, Taking α → Prop} {α β : Type}

theorem map (h : ReaderLaw law) {m : Taking α} (hm : law m) (f : α → β) :
    law (do return f (← m)) :=
  h.bind hm fun a => h.pure (f a)

/-! ## Numbers -/

theorem canonical (h : ReaderLaw law) (bound n : Nat) : law (Compact.canonical bound n) := by
  unfold Compact.canonical
  split
  · exact h.throw rfl
  · exact h.pure n

theorem decodeCounted (h : ReaderLaw law) (count : Nat) : law (Compact.decodeCounted count) := by
  refine h.bind (h.take count) fun bytes => ?_
  split
  · exact h.bind (h.throw rfl) fun _ => h.canonical _ _
  · exact h.canonical _ _

theorem decodeUpTo (h : ReaderLaw law) (longest : Nat) : law (Compact.decodeUpTo longest) := by
  refine h.bind h.takeByte fun first => ?_
  split
  · dsimp only
    split
    · exact h.bind (h.throw rfl) fun _ => h.decodeCounted _
    · exact h.decodeCounted _
  · unfold Compact.decodeFew
    split
    · exact h.pure _
    · exact h.bind (h.take 1) fun _ => h.canonical _ _
    · exact h.bind (h.take 3) fun _ => h.canonical _ _

theorem decode (h : ReaderLaw law) : law Compact.decode := Compact.decode_eq ▸ h.decodeUpTo _

theorem decodeLength (h : ReaderLaw law) : law Compact.decodeLength :=
  Compact.decodeLength_eq ▸ h.decodeUpTo 8

/-! ## Values in a row -/

section

variable {inner : TypeId → Taking Value}

theorem takeAll (h : ReaderLaw law) {ids : List TypeId} (hinner : ∀ id ∈ ids, law (inner id)) :
    law (takeAll inner ids) := by
  induction ids with
  | nil => exact h.pure []
  | cons id ids ih =>
    obtain ⟨hid, hids⟩ := List.forall_mem_cons.mp hinner
    exact h.bind hid fun v => h.map (ih hids) (v :: ·)

theorem takeMany (h : ReaderLaw law) {id : TypeId} (hinner : law (inner id)) (count : Nat) :
    law (takeMany (inner id) count []) := by
  rw [takeMany_eq]
  refine h.map (h.takeAll fun i hi => ?_) _
  rwa [List.eq_of_mem_replicate hi]

theorem takeFields (h : ReaderLaw law) {fields : List Field}
    (hinner : ∀ id ∈ fields.map (·.type), law (inner id)) : law (takeFields inner fields) := by
  rw [takeFields_eq]
  exact h.map (h.takeAll hinner) _

/-! ## Values -/

/-- A layout is read by the law, if the values inside it are. -/
theorem decodeLayout (h : ReaderLaw law) {layout : Layout}
    (hinner : ∀ id ∈ layout.inner, law (inner id)) : law (decodeLayout inner layout) := by
  cases layout with
  | bool =>
    refine h.bind h.takeByte fun b => ?_
    split
    · exact h.pure _
    · exact h.pure _
    · exact h.throw rfl
  | str =>
    refine h.bind h.decodeLength fun count => h.bind (h.take count) fun bytes => ?_
    split
    · exact h.pure _
    · exact h.throw rfl
  | integer k => exact h.bind (h.take _) fun _ => h.pure _
  | compact k =>
    refine h.bind h.decode fun n => ?_
    split
    · exact h.pure _
    · exact h.throw rfl
  | bytes length =>
    cases length with
    | none => exact h.bind h.decodeLength fun count => h.map (h.take count) Value.bytes
    | some n => exact h.map (h.take n) Value.bytes
  | sequence element zeroSized =>
    refine h.bind h.decodeLength fun count => ?_
    have hmany := h.map (h.takeMany (hinner element List.mem_cons_self) count) Value.list
    split
    · exact h.bind (h.throw rfl) fun _ => hmany
    · exact hmany
  | array element length =>
    exact h.map (h.takeMany (hinner element List.mem_cons_self) length) Value.list
  | tuple members =>
    cases members with
    | nil => exact h.pure _
    | cons m ms => exact h.map (h.takeAll hinner) Value.list
  | struct fields => exact h.map (h.takeFields hinner) Value.ofEntries
  | enum variants =>
    refine h.bind h.takeByte fun tag => ?_
    split
    · exact h.throw rfl
    · exact h.pure _
    · rename_i payload hfind
      have hmem := List.mem_of_find?_eq_some hfind
      exact h.map (hinner payload (List.mem_filterMap.mpr ⟨_, hmem, rfl⟩)) _

/-- A type is read by the law, however many levels are left, where the law allows whatever is wrong
with the forms of the types that are reached. -/
theorem decodeWithin (h : ReaderLaw law) {forms : Forms} (reached : TypeId → Prop)
    (hreached : ∀ id, reached id → match forms id with
      | .error x => law (MonadExcept.throw x : Taking Value)
      | .ok (.plain layout) => ∀ i ∈ layout.inner, reached i
      | .ok (.option tags _) => reached tags.payload)
    (levels : Nat) {id : TypeId} (hid : reached id) : law (decodeWithin forms levels id) := by
  induction levels generalizing id with
  | zero => exact h.throw rfl
  | succ levels ih =>
    have hinside := hreached id hid
    rw [Wire.decodeWithin]
    cases hform : forms id with
    | error x =>
      rw [hform] at hinside
      exact hinside
    | ok form =>
      rw [hform] at hinside
      cases form with
      | plain layout => exact h.decodeLayout fun i hi => ih (hinside i hi)
      | option tags layout =>
        refine h.bind h.takeByte fun tag => ?_
        split
        · exact h.pure _
        · split
          · exact ih hinside
          · exact h.throw rfl

end

end ReaderLaw

end Wire

end Typewire
