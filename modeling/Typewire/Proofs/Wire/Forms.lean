-- The forms of a closed world. Every type has one, and it speaks of types of the same table. A
-- table that grows keeps the forms that it has, as they hang on nothing that comes later.
import Mathlib.Data.List.Perm.Subperm
import Typewire.Proofs.Shape.World
import Typewire.Proofs.Wire.Encoding

namespace Typewire

namespace Table

/-! ## Walks -/

section

variable {next : TypeId → Option (List TypeId)} {room : Nat} {pending seen : List TypeId}
  {id : TypeId}

theorem reach_nil : reach next room [] seen = some seen := by
  rw [reach.eq_def]

theorem reach_seen (h : seen.contains id = true) :
    reach next room (id :: pending) seen = reach next room pending seen := by
  rw [reach.eq_def]
  simp only [h, if_true]

theorem reach_new (h : ¬ seen.contains id = true) :
    reach next (room + 1) (id :: pending) seen
      = match next id with
        | none => none
        | some ids => reach next room (ids ++ pending) (id :: seen) := by
  rw [reach.eq_def]
  exact if_neg h

end

/-- A walk reaches only places that have what its steps keep. -/
theorem forall_mem_reach {next : TypeId → Option (List TypeId)} {P : TypeId → Prop}
    (hnext : ∀ id ids, P id → next id = some ids → ∀ i ∈ ids, P i) {room : Nat}
    {pending seen out : List TypeId} (hpending : ∀ id ∈ pending, P id) (hseen : ∀ id ∈ seen, P id)
    (h : reach next room pending seen = some out) : ∀ id ∈ out, P id := by
  fun_induction reach next room pending seen with
  | case1 => cases h; exact hseen
  | case2 room id pending seen hknown ih =>
    exact ih (fun i hi => hpending i (List.mem_cons_of_mem _ hi)) hseen h
  | case3 => cases h; exact hseen
  | case4 => cases h
  | case5 id pending seen hnew room ids hids ih =>
    have hid := hpending id List.mem_cons_self
    refine ih (fun i hi => ?_) (List.forall_mem_cons.mpr ⟨hid, hseen⟩) h
    rcases List.mem_append.mp hi with hi | hi
    · exact hnext id ids hid hids i hi
    · exact hpending i (List.mem_cons_of_mem _ hi)

/-- Different numbers below a bound are no more than that. -/
theorem length_le_of_nodup {size : Nat} {xs : List Nat} (h : xs.Nodup) (hlt : ∀ x ∈ xs, x < size) :
    xs.length ≤ size := by
  have hsub : xs.Subperm (List.range size) := h.subperm fun x hx => List.mem_range.mpr (hlt x hx)
  simpa using hsub.length_le

/-- A walk among the first places does not hang on its room, if that is enough for all of them,
nor on where other places lead. -/
theorem reach_congr {next next' : TypeId → Option (List TypeId)} {size : Nat}
    (hsame : ∀ id, id < size → next' id = next id)
    (hin : ∀ id ids, id < size → next id = some ids → ∀ i ∈ ids, i < size) {room room' : Nat}
    {pending seen : List TypeId} (hpending : ∀ id ∈ pending, id < size)
    (hseen : ∀ id ∈ seen, id < size) (hnodup : seen.Nodup) (hroom : size < room + seen.length)
    (hroom' : size < room' + seen.length) :
    reach next' room' pending seen = reach next room pending seen := by
  fun_induction reach next room pending seen generalizing room' with
  | case1 => rw [reach_nil]
  | case2 room id pending seen hknown ih =>
    rw [reach_seen hknown]
    exact ih (fun i hi => hpending i (List.mem_cons_of_mem _ hi)) hseen hnodup hroom hroom'
  | case3 id pending seen hnew =>
    have := length_le_of_nodup hnodup hseen
    omega
  | case4 id pending seen hnew room hnone =>
    have hlength := length_le_of_nodup hnodup hseen
    obtain ⟨room', rfl⟩ : ∃ k, room' = k + 1 := ⟨room' - 1, by omega⟩
    rw [reach_new hnew, hsame id (hpending id List.mem_cons_self), hnone]
  | case5 id pending seen hnew room ids hids ih =>
    have hid := hpending id List.mem_cons_self
    have hlength := length_le_of_nodup hnodup hseen
    obtain ⟨room', rfl⟩ : ∃ k, room' = k + 1 := ⟨room' - 1, by omega⟩
    rw [reach_new hnew, hsame id hid, hids]
    refine ih (fun i hi => ?_) (List.forall_mem_cons.mpr ⟨hid, hseen⟩)
      (List.nodup_cons.mpr ⟨by simpa using hnew, hnodup⟩) ?_ ?_
    · rcases List.mem_append.mp hi with hi | hi
      · exact hin id ids hid hids i hi
      · exact hpending i (List.mem_cons_of_mem _ hi)
    · rw [List.length_cons]
      omega
    · rw [List.length_cons]
      omega

end Table

namespace Wire

/-! ## Forms and the types they speak of -/

/-- The form speaks of the first places only. -/
def Form.Within (size : Nat) : Form → Prop
  | .plain layout => ∀ id ∈ layout.inner, id < size
  | .option tags layout => tags.payload < size ∧ ∀ id ∈ layout.inner, id < size

/-- The first places have forms, which speak of those places only. -/
def Forms.Within (forms : Forms) (size : Nat) : Prop :=
  ∀ id, id < size → ∃ form, forms id = .ok form ∧ form.Within size

theorem Form.Within.inner {form : Form} {size : Nat} (h : form.Within size) :
    ∀ id ∈ form.inner, id < size := by
  cases form with
  | plain layout => exact h
  | option tags layout =>
    intro id hid
    rw [List.mem_singleton.mp hid]
    exact h.1

end Wire

namespace Table

open Wire

variable {t t' : Table}

/-! ## The forms of a closed world -/

theorem payload_of_optionForm? {vs : List Variant} {tags : Shape.OptionForm}
    (h : Shape.optionForm? vs = some tags) : tags.payload ∈ (Shape.enum vs).references := by
  rw [Shape.eq_of_optionForm? h]
  simp [Shape.references]

theorem inner_of_layoutOf {s : Shape} {layout : Layout} (h : t.layoutOf s = .ok layout) :
    ∀ id ∈ layout.inner, id ∈ s.references := by
  cases s with
  | primitive p => cases p <;> cases h <;> exact fun id hid => by cases hid
  | compact inner =>
    simp only [layoutOf] at h
    split at h <;> cases h
    exact fun id hid => by cases hid
  | sequence element =>
    simp only [layoutOf] at h
    split at h <;> cases h
    · exact fun id hid => by cases hid
    · exact fun id hid => hid
  | array element n =>
    simp only [layoutOf] at h
    split at h <;> cases h
    · exact fun id hid => by cases hid
    · exact fun id hid => hid
  | tuple members => cases h; exact fun id hid => hid
  | enum vs => cases h; exact fun id hid => hid
  | struct fields => cases h; exact fun id hid => hid

/-- Every type of a closed world has a layout, over types of the same world. -/
theorem ClosedWorld.layout (h : t.ClosedWorld) {id : TypeId} (hid : id < t.size) :
    ∃ layout, t.layout id = .ok layout ∧ ∀ inner ∈ layout.inner, inner < t.size := by
  obtain ⟨s, hs⟩ := h.filled hid
  obtain ⟨layout, hlayout⟩ : ∃ layout, t.layoutOf s = .ok layout := by
    cases s with
    | primitive p => cases p <;> exact ⟨_, rfl⟩
    | compact inner =>
      obtain ⟨width, hwidth⟩ := shape?_of_isUnsigned (h.unsigned hs)
      simp only [layoutOf, hwidth]
      exact ⟨_, rfl⟩
    | sequence element =>
      simp only [layoutOf]
      split <;> exact ⟨_, rfl⟩
    | array element n =>
      simp only [layoutOf]
      split <;> exact ⟨_, rfl⟩
    | tuple members => exact ⟨_, rfl⟩
    | enum vs => exact ⟨_, rfl⟩
    | struct fields => exact ⟨_, rfl⟩
  refine ⟨layout, ?_, fun inner hinner => ?_⟩
  · rw [Table.layout, hs]
    exact hlayout
  · exact h.references hs inner (inner_of_layoutOf hlayout inner hinner)

theorem optionTags?_payload (h : t.ClosedWorld) {id : TypeId} {tags : Shape.OptionForm}
    (htags : t.optionTags? id = some tags) : tags.payload < t.size := by
  unfold optionTags? at htags
  split at htags
  · rename_i vs hs
    obtain ⟨hform, -⟩ := Option.filter_eq_some_iff.mp htags
    exact h.references hs _ (payload_of_optionForm? hform)
  · cases htags

/-- Every type of a closed world has a form, which speaks of types of the same world. -/
theorem ClosedWorld.within_form (h : t.ClosedWorld) : Forms.Within t.form t.size := by
  intro id hid
  unfold form
  cases htags : t.optionTags? id with
  | none =>
    obtain ⟨layout, hlayout, hinner⟩ := h.layout hid
    exact ⟨.plain layout, by simp only [hlayout]; rfl, hinner⟩
  | some tags =>
    have hpayload := optionTags?_payload h htags
    obtain ⟨layout, hlayout, hinner⟩ := h.layout hpayload
    exact ⟨.option tags layout, by simp only [hlayout]; rfl, hpayload, hinner⟩

/-! ## Growing -/

theorem inner_of_sizedMembers {id : TypeId} {ids : List TypeId} (h : t.sizedMembers id = some ids) :
    ∃ s, t.shape? id = some s ∧ ∀ i ∈ ids, i ∈ s.references := by
  unfold sizedMembers at h
  split at h
  · rename_i members hs
    cases h
    exact ⟨_, hs, fun i hi => hi⟩
  · rename_i fields hs
    cases h
    exact ⟨_, hs, fun i hi => hi⟩
  · rename_i element length hs
    refine ⟨_, hs, fun i hi => ?_⟩
    split at h
    · cases h
      cases hi
    · cases h
      exact hi
  · cases h

/-- Whether values of a type take bytes is settled by the places that it can lead to. -/
theorem isZeroSized_extends (h : t.ClosedWorld) (hext : t.Extends t') {id : TypeId}
    (hid : id < t.size) : t'.isZeroSized id = t.isZeroSized id := by
  have hsame (other : TypeId) (hother : other < t.size) :
      t'.sizedMembers other = t.sizedMembers other := by
    rw [sizedMembers, hext.shape? other hother, sizedMembers]
  have hin (other : TypeId) (ids : List TypeId) (_ : other < t.size)
      (hids : t.sizedMembers other = some ids) : ∀ i ∈ ids, i < t.size := by
    obtain ⟨s, hs, hmem⟩ := inner_of_sizedMembers hids
    exact fun i hi => h.references hs i (hmem i hi)
  have hpending : ∀ other ∈ [id], other < t.size := List.forall_mem_singleton.mpr hid
  have hseen : ∀ other ∈ ([] : List TypeId), other < t.size := fun other hother => by cases hother
  have hreach := reach_congr hsame hin hpending hseen List.nodup_nil (Nat.lt_succ_self _)
    (Nat.lt_succ_of_le hext.size)
  exact congrArg Option.isSome hreach

theorem layout_extends (h : t.ClosedWorld) (hext : t.Extends t') {id : TypeId}
    (hid : id < t.size) : t'.layout id = t.layout id := by
  obtain ⟨s, hs⟩ := h.filled hid
  have hrefs := h.references hs
  have hbyte {element : TypeId} (helement : element < t.size) :
      t'.isByte element = t.isByte element := by
    rw [isByte, hext.shape? element helement, isByte]
  rw [Table.layout, hext.shape? id hid, Table.layout, hs]
  cases s with
  | primitive p => cases p <;> rfl
  | compact inner =>
    obtain ⟨width, hwidth⟩ := shape?_of_isUnsigned (h.unsigned hs)
    have hinner := hext.shape? inner (hrefs inner List.mem_cons_self)
    simp only [layoutOf, hinner, hwidth]
  | sequence element =>
    have helement := hrefs element List.mem_cons_self
    simp only [layoutOf, hbyte helement, isZeroSized_extends h hext helement]
  | array element n => simp only [layoutOf, hbyte (hrefs element List.mem_cons_self)]
  | tuple members => rfl
  | enum vs => rfl
  | struct fields => rfl

theorem optionTags?_extends (h : t.ClosedWorld) (hext : t.Extends t') {id : TypeId}
    (hid : id < t.size) : t'.optionTags? id = t.optionTags? id := by
  unfold optionTags?
  rw [hext.shape? id hid]
  split
  · rename_i vs hs
    cases hform : Shape.optionForm? vs with
    | none => rfl
    | some tags =>
      have hpayload := h.references hs _ (payload_of_optionForm? hform)
      have hnull : t'.holdsNull tags.payload = t.holdsNull tags.payload := by
        rw [holdsNull, hext.shape? _ hpayload, holdsNull]
      simp only [Option.filter, hnull]
  · rfl

/-- A table that grows keeps the forms of the types that it has. -/
theorem ClosedWorld.form_extends (h : t.ClosedWorld) (hext : t.Extends t') {id : TypeId}
    (hid : id < t.size) : t'.form id = t.form id := by
  unfold form
  rw [optionTags?_extends h hext hid]
  cases htags : t.optionTags? id with
  | none => simp only [layout_extends h hext hid]
  | some tags => simp only [layout_extends h hext (optionTags?_payload h htags)]

end Table

end Typewire
