-- Types whose values take no bytes. The walk over members finds exactly the types that lead to no
-- type with bytes of its own. Each of their values is written as nothing, and each value of any
-- other type as one byte at least, so a list of those is no longer than the bytes that it takes.
import Mathlib.Algebra.Order.BigOperators.Group.List
import Mathlib.Tactic.Choose
import Typewire.Proofs.Shape.Grounded
import Typewire.Proofs.Wire.Canonical
import Typewire.Proofs.Wire.Forms
import Typewire.Proofs.Wire.RoundTrip

namespace Typewire

/-- The values of the shape are rows of other values and write nothing of their own. -/
def Shape.isRow : Shape → Bool
  | .array _ _ | .tuple _ | .struct _ => true
  | .primitive _ | .compact _ | .sequence _ | .enum _ => false

/-- How many elements a list has, or how many bytes. -/
def Value.count? : Value → Option Nat
  | .list items => some items.length
  | .bytes bs => some bs.length
  | _ => none

namespace Table

variable {t : Table} {id : TypeId}

/-! ## The walk over members -/

/-- Values of the type write bytes of their own, or they hold values of a type that takes bytes. -/
inductive TakesBytes (t : Table) : TypeId → Prop where
  | here {id : TypeId} : t.sizedMembers id = none → TakesBytes t id
  | inside {id i : TypeId} {ids : List TypeId} :
      t.sizedMembers id = some ids → i ∈ ids → TakesBytes t i → TakesBytes t id

theorem sizedMembers_of_shape? {s : Shape} (hs : t.shape? id = some s) :
    t.sizedMembers id = if s.isRow then some s.unguarded else none := by
  unfold sizedMembers
  rw [hs]
  cases s with
  | array element length =>
    simp only [Shape.isRow, Shape.unguarded, if_true]
    split <;> rfl
  | _ => rfl

/-- The walk goes on where values are rows, and there to all that such a row holds. -/
theorem sizedMembers_eq_some {ids : List TypeId} :
    t.sizedMembers id = some ids ↔
      ∃ s, t.shape? id = some s ∧ s.isRow = true ∧ s.unguarded = ids := by
  constructor
  · intro h
    obtain ⟨s, hs, -⟩ := inner_of_sizedMembers h
    rw [sizedMembers_of_shape? hs] at h
    split at h
    · rename_i hrow
      exact ⟨s, hs, hrow, Option.some.inj h⟩
    · cases h
  · rintro ⟨s, hs, hrow, rfl⟩
    rw [sizedMembers_of_shape? hs, if_pos hrow]

theorem lt_size_of_sizedMembers {ids : List TypeId} (h : t.sizedMembers id = some ids) :
    id < t.size := by
  obtain ⟨s, hs, -⟩ := inner_of_sizedMembers h
  exact lt_size_of_shape? hs

section

variable {room : Nat} {pending seen out : List TypeId}

/-- A walk that breaks off has come to a type with bytes of its own. -/
theorem takesBytes_of_reach (h : reach t.sizedMembers room pending seen = none) :
    ∃ id ∈ pending, t.TakesBytes id := by
  fun_induction reach t.sizedMembers room pending seen with
  | case1 => cases h
  | case2 room id pending seen hknown ih =>
    obtain ⟨i, hi, htakes⟩ := ih h
    exact ⟨i, List.mem_cons_of_mem _ hi, htakes⟩
  | case3 => cases h
  | case4 id pending seen hnew room hnone => exact ⟨id, List.mem_cons_self, .here hnone⟩
  | case5 id pending seen hnew room ids hids ih =>
    obtain ⟨i, hi, htakes⟩ := ih h
    rcases List.mem_append.mp hi with hi | hi
    · exact ⟨id, List.mem_cons_self, .inside hids hi htakes⟩
    · exact ⟨i, List.mem_cons_of_mem _ hi, htakes⟩

/-- Each of the places is a row, and what it holds stands among the others. -/
def Covers (t : Table) (ids others : List TypeId) : Prop :=
  ∀ id ∈ ids, ∃ members, t.sizedMembers id = some members ∧ ∀ i ∈ members, i ∈ others

/-- A walk that comes to its end, with room for every place, has been to all that its places
hold. What was seen is covered by what was seen and what is pending. -/
theorem covers_of_reach (h : reach t.sizedMembers room pending seen = some out)
    (hnodup : seen.Nodup) (hroom : t.size < room + seen.length)
    (hseen : t.Covers seen (seen ++ pending)) :
    (∀ id ∈ seen ++ pending, id ∈ out) ∧ t.Covers out out := by
  fun_induction reach t.sizedMembers room pending seen with
  | case1 room seen =>
    cases h
    rw [List.append_nil] at hseen ⊢
    exact ⟨fun _ hid => hid, hseen⟩
  | case2 room id pending seen hknown ih =>
    have hsub : ∀ i ∈ seen ++ id :: pending, i ∈ seen ++ pending := by
      intro i hi
      rcases List.mem_append.mp hi with hi | hi
      · exact List.mem_append_left _ hi
      rcases List.mem_cons.mp hi with rfl | hi
      · exact List.mem_append_left _ (by simpa using hknown)
      · exact List.mem_append_right _ hi
    obtain ⟨hin, hout⟩ := ih h hnodup hroom fun i hi => by
      obtain ⟨members, hmembers, hmem⟩ := hseen i hi
      exact ⟨members, hmembers, fun j hj => hsub j (hmem j hj)⟩
    exact ⟨fun i hi => hin i (hsub i hi), hout⟩
  | case3 id pending seen hnew =>
    have hlt : ∀ i ∈ seen, i < t.size := fun i hi => by
      obtain ⟨members, hmembers, -⟩ := hseen i hi
      exact lt_size_of_sizedMembers hmembers
    have := length_le_of_nodup hnodup hlt
    omega
  | case4 => cases h
  | case5 id pending seen hnew room ids hids ih =>
    have hsub : ∀ i ∈ seen ++ id :: pending, i ∈ (id :: seen) ++ (ids ++ pending) := by
      intro i hi
      simp only [List.mem_append, List.mem_cons] at hi ⊢
      tauto
    obtain ⟨hin, hout⟩ := ih h (List.nodup_cons.mpr ⟨by simpa using hnew, hnodup⟩)
      (by rw [List.length_cons]; omega) fun i hi => by
        rcases List.mem_cons.mp hi with rfl | hi
        · exact ⟨ids, hids, fun j hj =>
            List.mem_append_right _ (List.mem_append_left _ hj)⟩
        · obtain ⟨members, hmembers, hmem⟩ := hseen i hi
          exact ⟨members, hmembers, fun j hj => hsub j (hmem j hj)⟩
    exact ⟨fun i hi => hin i (hsub i hi), hout⟩

end

theorem Covers.not_takesBytes {ids : List TypeId} (h : t.Covers ids ids) (htakes : t.TakesBytes id) :
    id ∉ ids := by
  induction htakes with
  | here hnone =>
    intro hid
    obtain ⟨members, hmembers, -⟩ := h _ hid
    cases hnone.symm.trans hmembers
  | inside hids hi _ ih =>
    intro hid
    obtain ⟨members, hmembers, hmem⟩ := h _ hid
    cases hids.symm.trans hmembers
    exact ih (hmem _ hi)

/-- The walk over members finds exactly the types that lead to no bytes. -/
theorem isZeroSized_iff : t.isZeroSized id = true ↔ ¬ t.TakesBytes id := by
  unfold isZeroSized
  cases hreach : reach t.sizedMembers (t.size + 1) [id] [] with
  | none =>
    obtain ⟨i, hi, htakes⟩ := takesBytes_of_reach hreach
    cases List.mem_singleton.mp hi
    exact ⟨fun h => (by cases h), fun h => absurd htakes h⟩
  | some out =>
    obtain ⟨hin, hout⟩ := covers_of_reach hreach List.nodup_nil (Nat.lt_succ_self _)
      fun i hi => by cases hi
    have hid : id ∈ out := hin id (List.mem_singleton_self id)
    exact ⟨fun _ htakes => hout.not_takesBytes htakes hid, fun _ => rfl⟩

theorem takesBytes_iff : t.TakesBytes id ↔ t.isZeroSized id = false := by
  rw [← Bool.not_eq_true, isZeroSized_iff, not_not]

end Table

namespace Wire

variable {t : Table} {id : TypeId} {v : Value} {bytes : List UInt8}

/-! ## Bytes of a row -/

/-- The bytes of encodings in a row are those of each, one after the other. -/
theorem parts_of_concat {es : List Encoding} (h : Encoding.concat es = .ofBytes bytes) :
    ∃ parts : List (List UInt8), es = parts.map .ofBytes ∧ bytes = parts.flatten := by
  induction es generalizing bytes with
  | nil =>
    cases h
    exact ⟨[], rfl, rfl⟩
  | cons e es ih =>
    obtain ⟨front, back, rfl, hes, rfl⟩ := Encoding.append_eq_ofBytes h
    obtain ⟨parts, rfl, rfl⟩ := ih hes
    exact ⟨front :: parts, rfl, rfl⟩

theorem mem_parts {ps : List (Value × TypeId)} {parts : List (List UInt8)}
    (h : (ps.map fun p => encode t p.1 p.2) = parts.map .ofBytes) {part : List UInt8}
    (hpart : part ∈ parts) : ∃ p ∈ ps, encode t p.1 p.2 = .ofBytes part := by
  have hmem : Encoding.ofBytes part ∈ ps.map fun p => encode t p.1 p.2 := by
    rw [h]
    exact List.mem_map_of_mem hpart
  exact List.mem_map.mp hmem

/-- A row of values that are written as nothing is written as nothing. -/
theorem encodeRow_eq_nil {ps : List (Value × TypeId)}
    (hnil : ∀ p ∈ ps, ∀ part, encode t p.1 p.2 = .ofBytes part → part = [])
    (h : encodeRow t ps = .ofBytes bytes) : bytes = [] := by
  obtain ⟨parts, hparts, rfl⟩ := parts_of_concat h
  refine List.flatten_eq_nil_iff.mpr fun part hpart => ?_
  obtain ⟨p, hp, hencode⟩ := mem_parts hparts hpart
  exact hnil p hp part hencode

theorem encodeRow_nil {ps : List (Value × TypeId)}
    (h : ∀ p ∈ ps, encode t p.1 p.2 = .ofBytes []) : encodeRow t ps = .ofBytes [] := by
  induction ps with
  | nil => rfl
  | cons p ps ih =>
    change encode t p.1 p.2 ++ encodeRow t ps = _
    rw [h p List.mem_cons_self, ih fun q hq => h q (List.mem_cons_of_mem _ hq)]
    rfl

/-- A row is not written as nothing where one of its values is not. -/
theorem encodeRow_ne_nil {ps : List (Value × TypeId)} {p : Value × TypeId} (hp : p ∈ ps)
    (hne : ∀ part, encode t p.1 p.2 = .ofBytes part → part ≠ [])
    (h : encodeRow t ps = .ofBytes bytes) : bytes ≠ [] := by
  obtain ⟨parts, hparts, rfl⟩ := parts_of_concat h
  have hmem : encode t p.1 p.2 ∈ parts.map .ofBytes := by
    rw [← hparts]
    exact List.mem_map_of_mem hp
  obtain ⟨part, hpart, hencode⟩ := List.mem_map.mp hmem
  exact fun hnil => hne part hencode.symm (List.flatten_eq_nil_iff.mp hnil part hpart)

/-- Values that each take a byte are no more than the bytes of their row. -/
theorem length_le_of_encodeRow {ps : List (Value × TypeId)}
    (hne : ∀ p ∈ ps, ∀ part, encode t p.1 p.2 = .ofBytes part → part ≠ [])
    (h : encodeRow t ps = .ofBytes bytes) : ps.length ≤ bytes.length := by
  obtain ⟨parts, hparts, rfl⟩ := parts_of_concat h
  have hlength : ps.length = (parts.map List.length).length := by
    simpa using congrArg List.length hparts
  rw [List.length_flatten, hlength]
  refine List.length_le_sum_of_one_le _ fun n hn => ?_
  obtain ⟨part, hpart, rfl⟩ := List.mem_map.mp hn
  obtain ⟨p, hp, hencode⟩ := mem_parts hparts hpart
  exact List.length_pos_iff.mpr (hne p hp part hencode)

/-! ## Layouts with bytes of their own -/

/-- The layout starts with a byte of its own. -/
def Layout.isHeaded : Layout → Bool
  | .bytes (some _) | .array _ _ | .tuple _ | .struct _ => false
  | .bool | .str | .integer _ | .compact _ | .bytes none | .sequence _ _ | .enum _ => true

theorem isHeaded_of_layoutOf {s : Shape} {layout : Layout} (hs : s.isRow = false)
    (h : t.layoutOf s = .ok layout) : layout.isHeaded = true := by
  cases s with
  | primitive p => cases p <;> cases h <;> rfl
  | compact inner =>
    simp only [Table.layoutOf] at h
    split at h <;> cases h
    rfl
  | sequence element =>
    simp only [Table.layoutOf] at h
    split at h <;> cases h <;> rfl
  | enum vs => cases h; rfl
  | array | tuple | struct => cases hs

theorem Compact.write_ne_nil (n : Nat) : Compact.write n ≠ [] := by
  rw [Compact.write_eq]
  repeat' split
  all_goals exact List.cons_ne_nil _ _

theorem writeInt_ne_nil {k : IntKind} (h : writeInt k v = .ok bytes) : bytes ≠ [] := by
  rw [writeInt_eq] at h
  obtain ⟨n, -, h⟩ := except_bind_ok h
  cases h
  rw [intBytes_eq]
  obtain ⟨signed, width⟩ := k
  cases width <;> exact List.cons_ne_nil _ _

/-- A layout that starts with a byte of its own is not written as nothing. -/
theorem encodeAs_ne_nil {layout : Layout} (hlayout : layout.isHeaded = true)
    (h : encodeAs t v layout = .ofBytes bytes) : bytes ≠ [] := by
  cases layout with
  | bool =>
    cases v <;> first
      | exact absurd h (Encoding.stop_ne_ofBytes _ _)
      | exact Encoding.ofBytes_inj h ▸ List.cons_ne_nil _ _
  | str =>
    cases v <;> first
      | exact absurd h (Encoding.stop_ne_ofBytes _ _)
      | exact Encoding.ofBytes_inj h ▸ List.append_ne_nil_of_left_ne_nil (Compact.write_ne_nil _) _
  | integer k =>
    rw [encodeAs_integer] at h
    exact writeInt_ne_nil (Encoding.ofExcept_eq_ofBytes h)
  | compact k =>
    rw [encodeAs_compact] at h
    obtain ⟨n, -, h⟩ := except_bind_ok (Encoding.ofExcept_eq_ofBytes h)
    rw [Compact.encode_eq] at h
    split at h <;> cases h
    exact Compact.write_ne_nil _
  | bytes length =>
    cases length with
    | none =>
      rw [encodeAs_bytes] at h
      obtain ⟨bs, -, h⟩ := except_bind_ok (Encoding.ofExcept_eq_ofBytes h)
      cases h
      exact List.append_ne_nil_of_left_ne_nil (Compact.write_ne_nil _) _
    | some n => cases hlayout
  | sequence element zeroSized =>
    cases v with
    | list items =>
      obtain ⟨head, body, hhead, -, rfl⟩ := Encoding.append_eq_ofBytes h
      cases Encoding.ofBytes_inj hhead
      exact List.append_ne_nil_of_left_ne_nil (Compact.write_ne_nil _) _
    | _ => exact absurd h (Encoding.stop_ne_ofBytes _ _)
  | enum vs =>
    cases v with
    | map entries =>
      simp only [encodeAs] at h
      split at h
      · exact absurd h (Encoding.stop_ne_ofBytes _ _)
      · obtain ⟨head, body, hhead, -, rfl⟩ := Encoding.append_eq_ofBytes h
        cases Encoding.ofBytes_inj hhead
        exact List.cons_ne_nil _ _
    | _ => exact absurd h (Encoding.stop_ne_ofBytes _ _)
  | array | tuple | struct => cases hlayout

/-- A type with bytes of its own is not written as nothing. -/
theorem encode_ne_nil_of_here (hid : t.sizedMembers id = none)
    (h : encode t v id = .ofBytes bytes) : bytes ≠ [] := by
  cases hform : t.form id with
  | error e =>
    rw [encode_eq, encodeBy, hform] at h
    exact absurd h (Encoding.stop_ne_ofBytes _ _)
  | ok form =>
    cases form with
    | plain layout =>
      rw [encode_plain hform] at h
      obtain ⟨s, hs, hlayout⟩ := form_plain hform
      refine encodeAs_ne_nil (isHeaded_of_layoutOf ?_ hlayout) h
      rw [Table.sizedMembers_of_shape? hs] at hid
      split at hid
      · cases hid
      · rename_i hrow
        exact Bool.not_eq_true _ ▸ hrow
    | option tags layout =>
      rw [encode_option hform] at h
      split at h
      · exact Encoding.ofBytes_inj h ▸ List.cons_ne_nil _ _
      · obtain ⟨head, body, hhead, -, rfl⟩ := Encoding.append_eq_ofBytes h
        cases Encoding.ofBytes_inj hhead
        exact List.cons_ne_nil _ _

/-! ## Types that are rows -/

/-- The bytes are those of a row of smaller values, whose types are the members. -/
structure RowOf (t : Table) (v : Value) (members : List TypeId) (bytes : List UInt8)
    (ps : List (Value × TypeId)) : Prop where
  written : encodeRow t ps = .ofBytes bytes
  smaller : ∀ p ∈ ps, sizeOf p.1 < sizeOf v
  types : ∀ i, i ∈ ps.map (·.2) ↔ i ∈ members

theorem form_of_shape? {s : Shape} (hs : t.shape? id = some s) (henum : s.variants? = none) :
    t.form id = (t.layoutOf s).map .plain := by
  have hnone : t.optionTags? id = none := by
    unfold Table.optionTags?
    split
    · rename_i vs hs'
      cases hs.symm.trans hs'
      cases henum
    · rfl
  rw [Table.form, hnone]
  simp only [Table.layout, hs]

theorem variants?_of_isRow {s : Shape} (h : s.isRow = true) : s.variants? = none := by
  cases s with
  | enum => cases h
  | _ => rfl

theorem rowOf_tuple {members : List TypeId} (h : encodeAs t v (.tuple members) = .ofBytes bytes) :
    ∃ ps, RowOf t v members bytes ps := by
  cases members with
  | nil =>
    have hbytes : bytes = [] := by
      cases v with
      | null =>
        cases h
        rfl
      | list items =>
        simp only [encodeAs] at h
        split at h
        · cases h
          rfl
        · exact absurd h (Encoding.stop_ne_ofBytes _ _)
      | _ => exact absurd h (Encoding.stop_ne_ofBytes _ _)
    rw [hbytes]
    exact ⟨[], rfl, fun p hp => (by cases hp), fun i => Iff.rfl⟩
  | cons m ms =>
    cases v with
    | list items =>
      simp only [encodeAs] at h
      split at h
      · rename_i hlength
        rw [encodeMembers_eq] at h
        refine ⟨items.zip (m :: ms), h, fun p hp => ?_, fun i => ?_⟩
        · exact sizeOf_item (List.of_mem_zip (a := p.1) (b := p.2) hp).1
        · rw [List.map_snd_zip (Nat.le_of_eq hlength.symm)]
      · exact absurd h (Encoding.stop_ne_ofBytes _ _)
    | _ => exact absurd h (Encoding.stop_ne_ofBytes _ _)

theorem rowOf_struct {fields : List Field} (h : encodeAs t v (.struct fields) = .ofBytes bytes) :
    ∃ ps, RowOf t v (fields.map (·.type)) bytes ps := by
  cases v with
  | map entries =>
    refine ⟨_, encodeRow_of_fields h, fun p hp => sizeOf_partsBy hp, fun i => ?_⟩
    rw [partsBy, List.map_map]
    exact Iff.rfl
  | _ => exact absurd h (Encoding.stop_ne_ofBytes _ _)

theorem rowOf_array {element : TypeId} {length : Nat}
    (h : encodeAs t v (.array element length) = .ofBytes bytes) :
    ∃ ps, RowOf t v (Shape.array element length).unguarded bytes ps := by
  cases v with
  | list items =>
    simp only [encodeAs] at h
    split at h
    · rename_i hlength
      rw [encodeItems_eq] at h
      refine ⟨items.map (·, element), h, fun p hp => ?_, fun i => ?_⟩
      · obtain ⟨item, hitem, rfl⟩ := List.mem_map.mp hp
        exact sizeOf_item hitem
      · rw [List.map_map, show (fun p : Value × TypeId => p.2) ∘ (·, element) = fun _ => element
          from rfl, List.map_const', List.mem_replicate, hlength, Shape.unguarded]
        split <;> simp [*]
    · exact absurd h (Encoding.stop_ne_ofBytes _ _)
  | _ => exact absurd h (Encoding.stop_ne_ofBytes _ _)

theorem length_of_encodeAs_bytes {n : Nat} (h : encodeAs t v (.bytes (some n)) = .ofBytes bytes) :
    bytes.length = n := by
  rw [encodeAs_bytes] at h
  obtain ⟨bs, -, h⟩ := except_bind_ok (Encoding.ofExcept_eq_ofBytes h)
  simp only at h
  split at h
  · cases h
    assumption
  · cases h

theorem sizedMembers_of_isByte (h : t.isByte id = true) : t.sizedMembers id = none := by
  have hs : t.shape? id = some (.primitive (.integer ⟨false, .w8⟩)) := by
    simpa [Table.isByte] using h
  rw [Table.sizedMembers_of_shape? hs]
  rfl

/-- A value of a row type is written as a row of smaller values, one at least of each type that
the row holds; or it is bytes, and then the row holds the type of bytes. -/
theorem rowOf_encode {s : Shape} (hs : t.shape? id = some s) (hrow : s.isRow = true)
    (h : encode t v id = .ofBytes bytes) :
    (∃ ps, RowOf t v s.unguarded bytes ps) ∨
      bytes ≠ [] ∧ ∃ i ∈ s.unguarded, t.sizedMembers i = none := by
  have hform := form_of_shape? hs (variants?_of_isRow hrow)
  cases s with
  | tuple members =>
    rw [encode_plain hform] at h
    exact Or.inl (rowOf_tuple h)
  | struct fields =>
    rw [encode_plain hform] at h
    exact Or.inl (rowOf_struct h)
  | array element length =>
    simp only [Table.layoutOf] at hform
    split at hform
    · rename_i hbyte
      rw [encode_plain hform] at h
      have hlength := length_of_encodeAs_bytes h
      rw [Shape.unguarded]
      by_cases hzero : length = 0
      · rw [hzero] at hlength
        rw [List.length_eq_zero_iff.mp hlength, if_pos hzero]
        exact Or.inl ⟨[], rfl, fun p hp => (by cases hp), fun i => Iff.rfl⟩
      · rw [if_neg hzero]
        refine Or.inr ⟨fun hnil => hzero ?_, element, List.mem_singleton_self _,
          sizedMembers_of_isByte hbyte⟩
        rw [← hlength, hnil]
        rfl
    · rw [encode_plain hform] at h
      exact Or.inl (rowOf_array h)
  | primitive | compact | sequence | enum => cases hrow

/-! ## Types without bytes, and types with some -/

/-- Each value of a type that leads to no bytes is written as nothing, since smaller values are. -/
theorem encode_eq_nil {v : Value} {id : TypeId} {bytes : List UInt8} (hid : ¬ t.TakesBytes id)
    (h : encode t v id = .ofBytes bytes) : bytes = [] := by
  cases hmembers : t.sizedMembers id with
  | none => exact absurd (.here hmembers) hid
  | some members =>
    have hnot : ∀ i ∈ members, ¬ t.TakesBytes i := fun i hi htakes =>
      hid (.inside hmembers hi htakes)
    obtain ⟨s, hs, hrow, rfl⟩ := Table.sizedMembers_eq_some.mp hmembers
    rcases rowOf_encode hs hrow h with ⟨ps, hps⟩ | ⟨-, i, hi, hnone⟩
    · refine encodeRow_eq_nil (fun p hp part hpart => ?_) hps.written
      have := hps.smaller p hp
      exact encode_eq_nil (hnot p.2 ((hps.types p.2).mp (List.mem_map_of_mem hp))) hpart
    · exact absurd (.here hnone) (hnot i hi)
termination_by sizeOf v

/-- Each value of a type that leads to bytes is written as some. -/
theorem encode_ne_nil (hid : t.TakesBytes id) {v : Value} {bytes : List UInt8}
    (h : encode t v id = .ofBytes bytes) : bytes ≠ [] := by
  induction hid generalizing v bytes with
  | here hnone => exact encode_ne_nil_of_here hnone h
  | @inside id i members hmembers hi _ ih =>
    obtain ⟨s, hs, hrow, rfl⟩ := Table.sizedMembers_eq_some.mp hmembers
    rcases rowOf_encode hs hrow h with ⟨ps, hps⟩ | ⟨hne, -⟩
    · obtain ⟨p, hp, rfl⟩ := List.mem_map.mp ((hps.types i).mpr hi)
      exact encodeRow_ne_nil hp (fun part hpart => ih hpart) hps.written
    · exact hne

/-- A row type has a value that is written as nothing, where the types that the row holds do. -/
theorem exists_encode_nil_of_members (ht : t.Sound) {s : Shape} (hs : t.shape? id = some s)
    (hrow : s.isRow = true) {value : TypeId → Value}
    (hvalue : ∀ i ∈ s.unguarded, encode t (value i) i = .ofBytes []) :
    ∃ v, encode t v id = .ofBytes [] := by
  have hform := form_of_shape? hs (variants?_of_isRow hrow)
  cases s with
  | tuple members =>
    cases members with
    | nil => exact ⟨.null, by rw [encode_plain hform]; rfl⟩
    | cons m ms =>
      refine ⟨.list ((m :: ms).map value), ?_⟩
      rw [encode_plain hform]
      simp only [encodeAs, List.length_map, if_true, encodeMembers_eq]
      have hpairs := List.zip_map' (f := value) (g := fun i => i) (l := m :: ms)
      rw [List.map_id'] at hpairs
      rw [hpairs]
      refine encodeRow_nil fun p hp => ?_
      obtain ⟨i, hi, rfl⟩ := List.mem_map.mp hp
      exact hvalue i hi
  | struct fields =>
    have hcheck := ht id _ hs
    refine ⟨.ofEntries ((fields.map (·.name)).zip (fields.map (value ·.type))), ?_⟩
    rw [encode_plain hform, encodeAs_ofEntries hcheck (by simp), List.zip_map']
    refine encodeRow_nil fun p hp => ?_
    obtain ⟨f, hf, rfl⟩ := List.mem_map.mp hp
    exact hvalue f.type (List.mem_map_of_mem hf)
  | array element length =>
    have hmem (hne : length ≠ 0) : element ∈ (Shape.array element length).unguarded := by
      rw [Shape.unguarded, if_neg hne]
      exact List.mem_singleton_self element
    simp only [Table.layoutOf] at hform
    split at hform
    · rename_i hbyte
      by_cases hzero : length = 0
      · refine ⟨.list [], ?_⟩
        rw [encode_plain hform, encodeAs_bytes, hzero]
        rfl
      · have hnone := sizedMembers_of_isByte hbyte
        exact absurd rfl (encode_ne_nil_of_here hnone (hvalue element (hmem hzero)))
    · refine ⟨.list (List.replicate length (value element)), ?_⟩
      rw [encode_plain hform]
      simp only [encodeAs, List.length_replicate, if_true, encodeItems_eq, List.map_replicate]
      refine encodeRow_nil fun p hp => ?_
      obtain ⟨hne, rfl⟩ := List.mem_replicate.mp hp
      exact hvalue element (hmem hne)
  | primitive | compact | sequence | enum => cases hrow

/-- A type that leads to no bytes has a value, as what its values hold comes to an end. -/
theorem exists_encode_nil (ht : t.Sound) (hacc : Acc (t.Holds 0) id) (hid : ¬ t.TakesBytes id) :
    ∃ v, encode t v id = .ofBytes [] := by
  induction hacc with
  | intro id _ ih =>
    cases hmembers : t.sizedMembers id with
    | none => exact absurd (.here hmembers) hid
    | some members =>
      obtain ⟨s, hs, hrow, rfl⟩ := Table.sizedMembers_eq_some.mp hmembers
      have hvalues : ∀ i ∈ s.unguarded, ∃ v, encode t v i = .ofBytes [] := by
        intro i hi
        have hinside : i ∈ t.unguarded id := by
          rw [Table.unguarded, hs]
          exact hi
        exact ih i ⟨hinside, Nat.zero_le i⟩ fun htakes => hid (.inside hmembers hi htakes)
      choose! value hvalue using hvalues
      exact exists_encode_nil_of_members ht hs hrow hvalue

/-! ## Lists that are read -/

/-- What is read as a list has no more elements than its bytes are, where each takes a byte, and
else no more than are read of those that take none. -/
theorem count_of_decodeWithin (ht : t.Sound) {element : TypeId}
    (hs : t.shape? id = some (.sequence element)) {levels : Nat} {rest : List UInt8}
    (h : decodeWithin t levels id bytes = .ok (v, rest)) :
    ∃ front count, bytes = front ++ rest ∧ v.count? = some count ∧
      (t.TakesBytes element → count ≤ front.length) ∧
      (¬ t.TakesBytes element → count ≤ maxZeroSized) := by
  have hform := form_of_shape? hs rfl
  cases levels with
  | zero => cases h
  | succ levels =>
    simp only [Table.layoutOf] at hform
    split at hform
    · rename_i hbyte
      have htakes : t.TakesBytes element := .here (sizedMembers_of_isByte hbyte)
      cases readBy_of_decodeWithin hform h with
      | counted body =>
        refine ⟨Compact.write body.length ++ body, body.length, (List.append_assoc _ _ _).symm,
          rfl, fun _ => ?_, fun hnot => absurd htakes hnot⟩
        rw [List.length_append]
        exact Nat.le_add_left _ _
    · cases readBy_of_decodeWithin hform h with
      | @sequence _ _ mid items hshort hall =>
        obtain ⟨body, rfl, hitems⟩ := canonical_items (canonical_decodeWithin ht levels) hall
        refine ⟨Compact.write items.length ++ body, items.length, (List.append_assoc _ _ _).symm,
          rfl, fun htakes => ?_, fun hnot => hshort (Table.isZeroSized_iff.mpr hnot)⟩
        rw [encodeItems_eq] at hitems
        have hle := length_le_of_encodeRow (fun p hp part hpart => ?_) hitems
        · rw [List.length_map] at hle
          rw [List.length_append]
          exact Nat.le_trans hle (Nat.le_add_left _ _)
        · obtain ⟨item, -, rfl⟩ := List.mem_map.mp hp
          exact encode_ne_nil htakes hpart

end Wire

end Typewire
