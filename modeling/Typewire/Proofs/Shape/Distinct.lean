-- What the rules for one shape promise. The variants of an enum differ in name and in tag, and
-- the fields of a struct in name, so a name or a tag finds at most one of them.
import Typewire.Proofs.Shape.Places
import Typewire.Shape.Check

namespace Typewire

namespace Shape

/-! ## Names and tags -/

theorem pairwise_of_checkVariants {earlier vs : List Variant}
    (h : checkVariants earlier vs = .ok ()) :
    vs.Pairwise (fun a b => a.name ≠ b.name ∧ a.tag ≠ b.tag) ∧
      ∀ a ∈ earlier, ∀ b ∈ vs, a.name ≠ b.name ∧ a.tag ≠ b.tag := by
  induction vs generalizing earlier with
  | nil => simp
  | cons v vs ih =>
    unfold checkVariants at h
    split at h
    · cases h
    split at h
    · cases h
    rename_i hname htag
    simp only [List.any_eq_true, beq_iff_eq, not_exists, not_and] at hname htag
    obtain ⟨hpairs, hearlier⟩ := ih h
    refine ⟨List.pairwise_cons.mpr ⟨hearlier v List.mem_cons_self, hpairs⟩, ?_⟩
    intro a ha b hb
    rcases List.mem_cons.mp hb with rfl | hb
    · exact ⟨hname a ha, htag a ha⟩
    · exact hearlier a (List.mem_cons_of_mem _ ha) b hb

theorem pairwise_of_checkFields {earlier fs : List Field}
    (h : checkFields earlier fs = .ok ()) :
    fs.Pairwise (fun a b => a.name ≠ b.name) ∧
      ∀ a ∈ earlier, ∀ b ∈ fs, a.name ≠ b.name := by
  induction fs generalizing earlier with
  | nil => simp
  | cons f fs ih =>
    unfold checkFields at h
    split at h
    · cases h
    rename_i hname
    simp only [List.any_eq_true, beq_iff_eq, not_exists, not_and] at hname
    obtain ⟨hpairs, hearlier⟩ := ih h
    refine ⟨List.pairwise_cons.mpr ⟨hearlier f List.mem_cons_self, hpairs⟩, ?_⟩
    intro a ha b hb
    rcases List.mem_cons.mp hb with rfl | hb
    · exact hname a ha
    · exact hearlier a (List.mem_cons_of_mem _ ha) b hb

theorem checkVariants_of_pairwise {earlier vs : List Variant}
    (hpairs : vs.Pairwise (fun a b => a.name ≠ b.name ∧ a.tag ≠ b.tag))
    (hearlier : ∀ a ∈ earlier, ∀ b ∈ vs, a.name ≠ b.name ∧ a.tag ≠ b.tag) :
    checkVariants earlier vs = .ok () := by
  induction vs generalizing earlier with
  | nil => rfl
  | cons v vs ih =>
    obtain ⟨hhead, htail⟩ := List.pairwise_cons.mp hpairs
    have hname : ¬ earlier.any (·.name == v.name) := by
      simpa using fun a ha => (hearlier a ha v List.mem_cons_self).1
    have htag : ¬ earlier.any (·.tag == v.tag) := by
      simpa using fun a ha => (hearlier a ha v List.mem_cons_self).2
    unfold checkVariants
    rw [if_neg hname, if_neg htag]
    refine ih htail (List.forall_mem_cons.mpr ⟨hhead, fun a ha b hb => ?_⟩)
    exact hearlier a ha b (List.mem_cons_of_mem _ hb)

theorem checkFields_of_pairwise {earlier fs : List Field}
    (hpairs : fs.Pairwise (fun a b => a.name ≠ b.name))
    (hearlier : ∀ a ∈ earlier, ∀ b ∈ fs, a.name ≠ b.name) : checkFields earlier fs = .ok () := by
  induction fs generalizing earlier with
  | nil => rfl
  | cons f fs ih =>
    obtain ⟨hhead, htail⟩ := List.pairwise_cons.mp hpairs
    have hname : ¬ earlier.any (·.name == f.name) := by
      simpa using fun a ha => hearlier a ha f List.mem_cons_self
    unfold checkFields
    rw [if_neg hname]
    refine ih htail (List.forall_mem_cons.mpr ⟨hhead, fun a ha b hb => ?_⟩)
    exact hearlier a ha b (List.mem_cons_of_mem _ hb)

theorem pairwise_variants {vs : List Variant} (h : (Shape.enum vs).check = .ok ()) :
    vs.Pairwise (fun a b => a.name ≠ b.name ∧ a.tag ≠ b.tag) := by
  simp only [check] at h
  split at h
  · cases h
  · exact (pairwise_of_checkVariants h).1

theorem pairwise_fields {fs : List Field} (h : (Shape.struct fs).check = .ok ()) :
    fs.Pairwise (fun a b => a.name ≠ b.name) :=
  (pairwise_of_checkFields h).1

/-! ## Finding variants -/

/-- Of elements that differ in a key, the one with a key is found by it. -/
theorem find?_of_pairwise {α κ : Type} [BEq κ] [LawfulBEq κ] (key : α → κ) {xs : List α}
    {x : α} (h : xs.Pairwise fun a b => key a ≠ key b) (hx : x ∈ xs) :
    xs.find? (key · == key x) = some x := by
  induction xs with
  | nil => cases hx
  | cons y ys ih =>
    obtain ⟨hhead, htail⟩ := List.pairwise_cons.mp h
    rcases List.mem_cons.mp hx with rfl | hx
    · exact List.find?_cons_of_pos (by simp)
    · rw [List.find?_cons_of_neg (by simpa using hhead x hx)]
      exact ih htail hx

theorem find?_name {vs : List Variant} {v : Variant} (h : (Shape.enum vs).check = .ok ())
    (hv : v ∈ vs) : vs.find? (·.name == v.name) = some v :=
  find?_of_pairwise Variant.name ((pairwise_variants h).imp And.left) hv

theorem find?_tag {vs : List Variant} {v : Variant} (h : (Shape.enum vs).check = .ok ())
    (hv : v ∈ vs) : vs.find? (·.tag == v.tag) = some v :=
  find?_of_pairwise Variant.tag ((pairwise_variants h).imp And.right) hv

/-! ## Options -/

theorem eq_of_optionForm? {vs : List Variant} {form : OptionForm}
    (h : optionForm? vs = some form) :
    vs = [⟨"_None", form.noneTag, none⟩, ⟨"_Some", form.someTag, some form.payload⟩] := by
  unfold optionForm? at h
  split at h
  · cases h
    rfl
  · cases h

theorem noneTag_ne_someTag {vs : List Variant} {form : OptionForm}
    (hcheck : (Shape.enum vs).check = .ok ()) (h : optionForm? vs = some form) :
    form.noneTag ≠ form.someTag := by
  have hpairs := pairwise_variants hcheck
  rw [eq_of_optionForm? h] at hpairs
  exact ((List.pairwise_cons.mp hpairs).1 _ List.mem_cons_self).2

end Shape

/-! ## Checked tables -/

/-- What two checks in a row accept is accepted by the first and then by the second. -/
theorem except_bind_ok {ε α β : Type} {x : Except ε α} {f : α → Except ε β} {b : β}
    (h : (x >>= f) = .ok b) : ∃ a, x = .ok a ∧ f a = .ok b := by
  cases x with
  | error e => cases h
  | ok a => exact ⟨a, rfl, h⟩

theorem forM_ok {ε α : Type} {f : α → Except ε Unit} {xs : List α} (h : xs.forM f = .ok ()) :
    ∀ x ∈ xs, f x = .ok () := by
  induction xs with
  | nil => exact fun x hx => by cases hx
  | cons x xs ih =>
    obtain ⟨u, hx, hxs⟩ := except_bind_ok (show (f x >>= fun _ => xs.forM f) = .ok () from h)
    exact List.forall_mem_cons.mpr ⟨hx, ih hxs⟩

theorem forM_of {ε α : Type} {f : α → Except ε Unit} {xs : List α} (h : ∀ x ∈ xs, f x = .ok ()) :
    xs.forM f = .ok () := by
  induction xs with
  | nil => rfl
  | cons x xs ih =>
    obtain ⟨hx, hxs⟩ := List.forall_mem_cons.mp h
    change (f x >>= fun _ => xs.forM f) = .ok ()
    rw [hx]
    exact ih hxs

namespace Table

/-- Every shape of the table keeps the rules for one shape. -/
def Sound (t : Table) : Prop := ∀ id s, t.shape? id = some s → s.check = .ok ()

variable {t : Table}

theorem Sound.intern (h : t.Sound) {s : Shape} (hs : s.check = .ok ()) :
    (t.intern s).2.Sound := by
  rcases intern_cases t s with ⟨id, -, hi⟩ | ⟨-, hi⟩
  · rw [hi]
    exact h
  · rw [hi]
    intro id s' hshape
    rw [shape?_push rfl] at hshape
    split at hshape
    · cases hshape
      exact hs
    · exact h id s' hshape

/-- The places from `mark` on. -/
theorem mem_places {mark : Nat} {id : TypeId} :
    id ∈ (List.range t.size).drop mark ↔ mark ≤ id ∧ id < t.size := by
  constructor
  · intro h
    obtain ⟨k, hk, rfl⟩ := List.getElem_of_mem h
    have hlt : k < t.size - mark := by simpa using hk
    rw [List.getElem_drop, List.getElem_range]
    exact ⟨Nat.le_add_right mark k, Nat.add_lt_of_lt_sub' hlt⟩
  · rintro ⟨hmark, hid⟩
    have hget : ((List.range t.size).drop mark)[id - mark]? = some id := by
      rw [List.getElem?_drop, Nat.add_sub_cancel' hmark, List.getElem?_range hid]
    exact List.mem_of_getElem? hget

theorem check_of_checkPlace {id : TypeId} {s : Shape} (h : t.checkPlace id = .ok ())
    (hs : t.shape? id = some s) : s.check = .ok () := by
  unfold checkPlace at h
  rw [hs] at h
  obtain ⟨u, hcheck, -⟩ := except_bind_ok h
  exact hcheck

/-- Places that were checked, and places below that are sound, make a sound table. -/
theorem sound_of_check {mark : Nat} (h : t.check mark = .ok ())
    (hbelow : ∀ id s, id < mark → t.shape? id = some s → s.check = .ok ()) : t.Sound := by
  intro id s hs
  rcases Nat.lt_or_ge id mark with hlt | hge
  · exact hbelow id s hlt hs
  · obtain ⟨u, hplaces, -⟩ := except_bind_ok h
    exact check_of_checkPlace
      (forM_ok hplaces id (mem_places.mpr ⟨hge, lt_size_of_shape? hs⟩)) hs

end Table

end Typewire
