-- What a value comes to once it is written and read. The values right inside a value are its
-- parts, and each layout builds the value again from what its parts come to. So every form that
-- a value may be given in has one form that it is read in.
import Mathlib.Algebra.Group.Nat.Defs
import Typewire.Proofs.Entries
import Typewire.Proofs.Wire.Encoding
import Typewire.Wire.Decode

namespace Typewire

namespace Value

/-- The texts, the lists and the runs of bytes in a value are shorter than 2^64. -/
inductive Short : Value → Prop
  | null : Short .null
  | bool (b : Bool) : Short (.bool b)
  | integer (n : Int64) : Short (.integer n)
  | bigInteger (n : Int) : Short (.bigInteger n)
  | bytes {bs : List UInt8} (h : bs.length < 2 ^ 64) : Short (.bytes bs)
  | text {s : String} (h : (Text.Utf8.encode s).length < 2 ^ 64) : Short (.text s)
  | list {items : List Value} (h : items.length < 2 ^ 64) (inner : ∀ v ∈ items, Short v) :
      Short (.list items)
  | map {entries : List (String × Value)} (inner : ∀ e ∈ entries, Short e.2) :
      Short (.map entries)

theorem Short.getD_lookup {entries : List (String × Value)} (inner : ∀ e ∈ entries, e.2.Short)
    (key : String) : ((entries.lookup key).getD .null).Short := by
  cases h : entries.lookup key with
  | none => exact .null
  | some v => exact inner (key, v) (mem_of_lookup h)

end Value

namespace Wire

/-! ## Parts -/

/-- The values right inside a value of a layout, each with its type. A field that the value
leaves out stands as `null`. -/
def partsBy : Value → Layout → List (Value × TypeId)
  | .list items, .sequence element _ => items.map (·, element)
  | .list items, .array element _ => items.map (·, element)
  | .list items, .tuple members => items.zip members
  | .map entries, .struct fields =>
    fields.map fun f => ((entries.lookup f.name).getD .null, f.type)
  | .map entries, .enum variants =>
    match Choice.ofEntries variants entries with
    | .ok ⟨⟨_, _, some p⟩, key⟩ => [(Choice.payload entries key, p)]
    | _ => []
  | _, _ => []

@[simp]
theorem partsBy_integer (v : Value) (k : IntKind) : partsBy v (.integer k) = [] := by
  cases v <;> rfl

@[simp]
theorem partsBy_compact (v : Value) (k : IntKind) : partsBy v (.compact k) = [] := by
  cases v <;> rfl

@[simp]
theorem partsBy_bytes (v : Value) (length : Option Nat) : partsBy v (.bytes length) = [] := by
  cases v <;> rfl

/-- The values right inside a value of a type. An option that is not `null` holds its payload. -/
def parts (t : Table) (v : Value) (id : TypeId) : List (Value × TypeId) :=
  match t.form id with
  | .ok (.plain layout) => partsBy v layout
  | .ok (.option tags _) => if v.isNull then [] else [(v, tags.payload)]
  | .error _ => []

/-- The first value at a type holds the second, that many levels further in. -/
inductive Holds (t : Table) : Value × TypeId → Nat → Value × TypeId → Prop
  | self (p : Value × TypeId) : Holds t p 0 p
  | inner {p q r : Value × TypeId} {n : Nat} :
      q ∈ parts t p.1 p.2 → Holds t q n r → Holds t p (n + 1) r

/-- The value is a list that is too long for its elements, which take no bytes. -/
inductive TooLong (t : Table) : Value × TypeId → CodecError → Prop
  | intro {items : List Value} {id element : TypeId} :
      t.form id = .ok (.plain (.sequence element true)) → maxZeroSized < items.length →
      TooLong t (.list items, id) (.sequenceTooLong items.length maxZeroSized)

/-- The reasons for which a value that was written is not read with that many levels left: it
goes deeper, or it holds a list that is too long. -/
inductive Unreadable (t : Table) (levels : Nat) (p : Value × TypeId) : CodecError → Prop
  | deep {q : Value × TypeId} :
      Holds t p levels q → Unreadable t levels p (.nestingTooDeep maxLevels)
  | long {n : Nat} {q : Value × TypeId} {e : CodecError} :
      Holds t p n q → TooLong t q e → Unreadable t levels p e

/-! ## Normal forms -/

/-- A value of a layout, made from what its parts come to. Integers take the kind that their
type asks for and what is given for bytes becomes bytes. A map keeps its fields only, and an
enum value names its variant as its one key. -/
def rebuildBy (v : Value) (inner : List Value) : Layout → Value
  | .bool | .str => v
  | .integer k | .compact k => valueOf k ((intOf v k).toOption.getD 0)
  | .bytes _ => .bytes ((bytesOf v).toOption.getD [])
  | .sequence _ _ | .array _ _ => .list inner
  | .tuple members => if members.isEmpty then .null else .list inner
  | .struct fields => .ofEntries ((fields.map (·.name)).zip inner)
  | .enum variants =>
    match Choice.ofEntries variants (v.map?.getD []) with
    | .ok choice => .variant choice.variant.name (inner.head?.getD .null)
    | .error _ => v

/-- A value of a type, made from what its parts come to. -/
def rebuild (t : Table) (v : Value) (id : TypeId) (inner : List Value) : Value :=
  match t.form id with
  | .ok (.plain layout) => rebuildBy v inner layout
  | .ok (.option _ _) => inner.head?.getD .null
  | .error _ => v

theorem sizeOf_item {items : List Value} {v : Value} (h : v ∈ items) :
    sizeOf v < sizeOf (Value.list items) := by
  have := List.sizeOf_lt_of_mem h
  rw [Value.list.sizeOf_spec]
  omega

theorem sizeOf_lookup {entries : List (String × Value)} {key : String} {v : Value}
    (h : entries.lookup key = some v) : sizeOf v < sizeOf entries := by
  have := List.sizeOf_lt_of_mem (mem_of_lookup h)
  rw [Prod.mk.sizeOf_spec] at this
  omega

theorem sizeOf_getD_lookup (entries : List (String × Value)) (key : String) :
    sizeOf ((entries.lookup key).getD .null) < sizeOf (Value.map entries) := by
  rw [Value.map.sizeOf_spec]
  cases h : entries.lookup key with
  | none =>
    rw [Option.getD_none, Value.null.sizeOf_spec]
    cases entries <;> simp only [List.nil.sizeOf_spec, List.cons.sizeOf_spec] <;> omega
  | some v =>
    have := sizeOf_lookup h
    rw [Option.getD_some]
    omega

theorem sizeOf_payload (entries : List (String × Value)) (key : Option String) :
    sizeOf (Choice.payload entries key) < sizeOf (Value.map entries) := by
  cases key with
  | none =>
    rw [Choice.payload, Option.bind_none, Option.getD_none, Value.null.sizeOf_spec,
      Value.map.sizeOf_spec]
    cases entries <;> simp only [List.nil.sizeOf_spec, List.cons.sizeOf_spec] <;> omega
  | some key => exact sizeOf_getD_lookup entries key

/-- The parts by a layout are smaller than the value. -/
theorem sizeOf_partsBy {v : Value} {layout : Layout} {p : Value × TypeId}
    (h : p ∈ partsBy v layout) : sizeOf p.1 < sizeOf v := by
  unfold partsBy at h
  split at h
  · obtain ⟨item, hitem, rfl⟩ := List.mem_map.mp h
    exact sizeOf_item hitem
  · obtain ⟨item, hitem, rfl⟩ := List.mem_map.mp h
    exact sizeOf_item hitem
  · exact sizeOf_item (List.of_mem_zip (a := p.1) (b := p.2) h).1
  · obtain ⟨f, -, rfl⟩ := List.mem_map.mp h
    exact sizeOf_getD_lookup _ _
  · split at h
    · cases List.mem_singleton.mp h
      exact sizeOf_payload _ _
    · cases h
  · cases h

/-- The type is an option on the wire. -/
def isOption (t : Table) (id : TypeId) : Bool :=
  match t.form id with
  | .ok (.option _ _) => true
  | _ => false

/-- A part is smaller than the value, or it is the value itself as the payload of an option. -/
theorem parts_smaller {t : Table} {v : Value} {id : TypeId} {p : Value × TypeId}
    (h : p ∈ parts t v id) :
    sizeOf p.1 < sizeOf v ∨
      p.1 = v ∧ (isOption t p.2).toNat < (isOption t id).toNat := by
  unfold parts at h
  split at h
  · exact Or.inl (sizeOf_partsBy h)
  · rename_i tags layout hform
    split at h
    · cases h
    · cases List.mem_singleton.mp h
      have hpayload : isOption t tags.payload = false := by
        rw [isOption, (form_payload hform).1]
      have hoption : isOption t id = true := by rw [isOption, hform]
      exact Or.inr ⟨rfl, by rw [hpayload, hoption]; decide⟩
  · cases h

/-- The form in which a value of a type is read once it is written. -/
def normal (t : Table) (v : Value) (id : TypeId) : Value :=
  rebuild t v id ((parts t v id).attach.map fun p => normal t p.1.1 p.1.2)
termination_by (sizeOf v, (isOption t id).toNat)
decreasing_by
  obtain hlt | ⟨heq, hrank⟩ := parts_smaller p.2
  · exact Prod.Lex.left _ _ hlt
  · rw [heq]
    exact Prod.Lex.right _ hrank

theorem normal_eq (t : Table) (v : Value) (id : TypeId) :
    normal t v id = rebuild t v id ((parts t v id).map fun p => normal t p.1 p.2) := by
  rw [normal, List.attach_map_val (f := fun p : Value × TypeId => normal t p.1 p.2)]

/-! ## Reasons -/

theorem holds_zero {t : Table} {p q : Value × TypeId} : Holds t p 0 q ↔ p = q := by
  constructor
  · intro h
    cases h
    rfl
  · rintro rfl
    exact .self p

theorem holds_succ {t : Table} {p r : Value × TypeId} {n : Nat} :
    Holds t p (n + 1) r ↔ ∃ q ∈ parts t p.1 p.2, Holds t q n r := by
  constructor
  · intro h
    cases h with
    | inner hq h => exact ⟨_, hq, h⟩
  · rintro ⟨q, hq, h⟩
    exact .inner hq h

/-- What is wrong with a value is wrong with itself or with one of its parts. -/
theorem unreadable_succ {t : Table} {levels : Nat} {p : Value × TypeId} {e : CodecError} :
    Unreadable t (levels + 1) p e ↔
      TooLong t p e ∨ ∃ q ∈ parts t p.1 p.2, Unreadable t levels q e := by
  constructor
  · intro h
    cases h with
    | deep h =>
      obtain ⟨q, hq, h⟩ := holds_succ.mp h
      exact Or.inr ⟨q, hq, .deep h⟩
    | @long n _ _ h hlong =>
      cases n with
      | zero =>
        cases holds_zero.mp h
        exact Or.inl hlong
      | succ n =>
        obtain ⟨q, hq, h⟩ := holds_succ.mp h
        exact Or.inr ⟨q, hq, .long h hlong⟩
  · rintro (hlong | ⟨q, hq, h⟩)
    · exact .long (.self p) hlong
    · cases h with
      | deep h => exact .deep (.inner hq h)
      | long h hlong => exact .long (.inner hq h) hlong

end Wire

end Typewire
