-- The laws of filling reserved places late. Only the reserved places are filled, so whatever
-- filling one of them keeps is kept by filling all.
import Typewire.Proofs.Shape.Closed

namespace Typewire

theorem subset_fillAliases (t : Table) (aliases : List (TypeId × TypeId)) :
    ∀ a ∈ (fillAliases t aliases).2, a ∈ aliases := by
  induction aliases generalizing t with
  | nil => exact fun a ha => ha
  | cons a rest ih =>
    obtain ⟨slot, target⟩ := a
    intro b hb
    unfold fillAliases at hb
    split at hb
    · exact List.mem_cons_of_mem _ (ih _ b hb)
    · rcases List.mem_cons.mp hb with rfl | hb
      · exact List.mem_cons_self
      · exact List.mem_cons_of_mem _ (ih _ b hb)

/-- What is kept by filling each of the places is kept by one pass over them. -/
theorem fillAliases_keeps {P : Table → Prop} {aliases : List (TypeId × TypeId)}
    (hfill : ∀ a ∈ aliases, ∀ t s, P t → P (t.fill a.1 s)) {t : Table} (ht : P t) :
    P (fillAliases t aliases).1 := by
  induction aliases generalizing t with
  | nil => exact ht
  | cons a rest ih =>
    obtain ⟨slot, target⟩ := a
    have hrest := fun b hb => hfill b (List.mem_cons_of_mem _ hb)
    unfold fillAliases
    split
    · exact ih hrest (hfill _ List.mem_cons_self _ _ ht)
    · exact ih hrest ht

/-- What is kept by filling each of the places is kept by filling all of them. -/
theorem fillAll_keeps {P : Table → Prop} {aliases : List (TypeId × TypeId)} {t t' : Table}
    (hfill : ∀ a ∈ aliases, ∀ t s, P t → P (t.fill a.1 s)) (ht : P t)
    (h : fillAll t aliases = .ok t') : P t' := by
  fun_induction fillAll t aliases with
  | case1 t =>
    cases h
    exact ht
  | case2 => cases h
  | case3 t a rest pass hne ih =>
    exact ih (fun b hb => hfill b (subset_fillAliases t _ b hb)) (fillAliases_keeps hfill ht) h

theorem size_fillAll {t t' : Table} {aliases : List (TypeId × TypeId)}
    (h : fillAll t aliases = .ok t') : t'.size = t.size :=
  fillAll_keeps (P := fun u => u.size = t.size)
    (fun a _ _ s hu => (Table.size_fill a.1 s).trans hu) rfl h

/-- Reserved places that have no shape yet, each once. -/
structure Pending (t : Table) (aliases : List (TypeId × TypeId)) : Prop where
  nodup : (aliases.map Prod.fst).Nodup
  unfilled : ∀ a ∈ aliases, a.1 < t.size ∧ t.shape? a.1 = none

theorem Pending.tail {t : Table} {a : TypeId × TypeId} {rest : List (TypeId × TypeId)}
    (h : Pending t (a :: rest)) : Pending t rest :=
  ⟨(List.nodup_cons.mp h.nodup).2, fun b hb => h.unfilled b (List.mem_cons_of_mem _ hb)⟩

/-- When the first of the places is filled the others have no shape yet. -/
theorem Pending.fill {t : Table} {a : TypeId × TypeId} {rest : List (TypeId × TypeId)}
    (h : Pending t (a :: rest)) (s : Shape) : Pending (t.fill a.1 s) rest := by
  obtain ⟨hnot, hnodup⟩ := List.nodup_cons.mp h.nodup
  refine ⟨hnodup, fun b hb => ?_⟩
  rw [Table.size_fill, Table.shape?_fill_ne s]
  · exact h.unfilled b (List.mem_cons_of_mem _ hb)
  · intro hslot
    exact hnot (List.mem_map.mpr ⟨b, hb, hslot⟩)

theorem shape?_fillAliases (t : Table) {aliases : List (TypeId × TypeId)} {id : TypeId}
    (hid : id ∉ aliases.map Prod.fst) : (fillAliases t aliases).1.shape? id = t.shape? id := by
  refine fillAliases_keeps (P := fun u => u.shape? id = t.shape? id) ?_ rfl
  intro a ha u s hu
  rw [Table.shape?_fill_ne s, hu]
  rintro rfl
  exact hid (List.mem_map_of_mem ha)

theorem size_fillAliases (t : Table) (aliases : List (TypeId × TypeId)) :
    (fillAliases t aliases).1.size = t.size :=
  fillAliases_keeps (P := fun u => u.size = t.size)
    (fun a _ _ s hu => (Table.size_fill a.1 s).trans hu) rfl

/-- One pass keeps every shape, and gives an alias the shape of its target or keeps it. -/
theorem Pending.fillAliases {t : Table} {aliases : List (TypeId × TypeId)}
    (h : Pending t aliases) :
    (∀ id s, t.shape? id = some s → (fillAliases t aliases).1.shape? id = some s) ∧
      Pending (fillAliases t aliases).1 (fillAliases t aliases).2 ∧
      ∀ a ∈ aliases, a ∈ (fillAliases t aliases).2 ∨
        ∃ s, (fillAliases t aliases).1.shape? a.1 = some s ∧
          (fillAliases t aliases).1.shape? a.2 = some s := by
  induction aliases generalizing t with
  | nil => exact ⟨fun _ _ hs => hs, h, fun a ha => by cases ha⟩
  | cons a rest ih =>
    obtain ⟨slot, target⟩ := a
    obtain ⟨hnot, hnodup⟩ := List.nodup_cons.mp h.nodup
    obtain ⟨hlt, hnone⟩ := h.unfilled _ List.mem_cons_self
    unfold Typewire.fillAliases
    split
    · rename_i s hs
      have hne {id : TypeId} {s' : Shape} (hid : t.shape? id = some s') :
          (t.fill slot s).shape? id = some s' := by
        rw [Table.shape?_fill_ne s, hid]
        rintro rfl
        cases hnone.symm.trans hid
      obtain ⟨hshapes, hpending, hdone⟩ := ih (h.fill s)
      refine ⟨fun id s' hid => hshapes id s' (hne hid), hpending, fun b hb => ?_⟩
      rcases List.mem_cons.mp hb with rfl | hb
      · exact Or.inr ⟨s, hshapes _ s (Table.shape?_fill_self s hlt), hshapes _ s (hne hs)⟩
      · exact hdone b hb
    · obtain ⟨hshapes, hpending, hdone⟩ := ih h.tail
      refine ⟨hshapes, ⟨?_, ?_⟩, fun b hb => ?_⟩
      · refine List.nodup_cons.mpr ⟨fun hslot => ?_, hpending.nodup⟩
        obtain ⟨b, hb, hb'⟩ := List.mem_map.mp hslot
        exact hnot (List.mem_map.mpr ⟨b, subset_fillAliases t rest b hb, hb'⟩)
      · intro b hb
        rcases List.mem_cons.mp hb with rfl | hb
        · exact ⟨by rw [size_fillAliases]; exact hlt, (shape?_fillAliases t hnot).trans hnone⟩
        · exact hpending.unfilled b hb
      · rcases List.mem_cons.mp hb with rfl | hb
        · exact Or.inl List.mem_cons_self
        · exact (hdone b hb).imp_left (List.mem_cons_of_mem _)

/-- When all are filled every shape is kept, and each alias has the shape of its target. -/
theorem Pending.fillAll {t t' : Table} {aliases : List (TypeId × TypeId)}
    (hpending : Pending t aliases) (h : fillAll t aliases = .ok t') :
    (∀ id s, t.shape? id = some s → t'.shape? id = some s) ∧
      ∀ a ∈ aliases, t'.shape? a.1 = t'.shape? a.2 := by
  fun_induction Typewire.fillAll t aliases with
  | case1 t =>
    cases h
    exact ⟨fun _ _ hs => hs, fun a ha => by cases ha⟩
  | case2 => cases h
  | case3 t a rest pass hne ih =>
    obtain ⟨hshapes, hleft, hdone⟩ := hpending.fillAliases
    obtain ⟨hshapes', hdone'⟩ := ih hleft h
    refine ⟨fun id s hs => hshapes' id s (hshapes id s hs), fun b hb => ?_⟩
    rcases hdone b hb with hb | ⟨s, hslot, htarget⟩
    · exact hdone' b hb
    · rw [hshapes' _ s hslot, hshapes' _ s htarget]

/-! ## Aliases that lead to a shape -/

/-- From the place one comes along the aliases to a place that has a shape. -/
inductive Leads (t : Table) (aliases : List (TypeId × TypeId)) : TypeId → Prop where
  | filled {id s} : t.shape? id = some s → Leads t aliases id
  | next {id target} : (id, target) ∈ aliases → Leads t aliases target → Leads t aliases id

/-- A pass that fills no place found no target with a shape. -/
theorem unfilled_of_length {t : Table} {aliases : List (TypeId × TypeId)}
    (h : (fillAliases t aliases).2.length = aliases.length) :
    ∀ a ∈ aliases, t.shape? a.2 = none := by
  induction aliases with
  | nil => exact fun a ha => by cases ha
  | cons a rest ih =>
    obtain ⟨slot, target⟩ := a
    unfold fillAliases at h
    split at h
    · have hle := length_fillAliases_le (t.fill slot ‹Shape›) rest
      rw [h, List.length_cons] at hle
      exact absurd hle (Nat.not_succ_le_self _)
    · rename_i hnone
      exact List.forall_mem_cons.mpr ⟨hnone, ih (Nat.succ.inj h)⟩

theorem Leads.fillAliases {t : Table} {aliases : List (TypeId × TypeId)} {id : TypeId}
    (h : Leads t aliases id) (hpending : Pending t aliases) :
    Leads (fillAliases t aliases).1 (fillAliases t aliases).2 id := by
  obtain ⟨hshapes, -, hdone⟩ := hpending.fillAliases
  induction h with
  | filled hs => exact .filled (hshapes _ _ hs)
  | next hlink _ ih =>
    rcases hdone _ hlink with hlink | ⟨s, hs, -⟩
    · exact .next hlink ih
    · exact .filled hs

/-- Aliases that lead to shapes can be filled. -/
theorem Pending.fillAll_ok {t : Table} {aliases : List (TypeId × TypeId)}
    (hpending : Pending t aliases) (hleads : ∀ a ∈ aliases, Leads t aliases a.2) :
    ∃ t', Typewire.fillAll t aliases = .ok t' := by
  fun_induction Typewire.fillAll t aliases with
  | case1 t => exact ⟨t, rfl⟩
  | case2 t a rest pass hlength =>
    have hunfilled := unfilled_of_length hlength
    have hnone {id : TypeId} (hid : Leads t (a :: rest) id) : ∀ b ∈ a :: rest, b.2 ≠ id := by
      induction hid with
      | filled hs =>
        rintro b hb rfl
        cases (hunfilled b hb).symm.trans hs
      | next hlink _ ih => exact absurd rfl (ih _ hlink)
    exact absurd rfl (hnone (hleads a List.mem_cons_self) a List.mem_cons_self)
  | case3 t a rest pass hne ih =>
    refine ih hpending.fillAliases.2.1 fun b hb => ?_
    exact (hleads b (subset_fillAliases t _ b hb)).fillAliases hpending

/-- Where the aliases are filled every place that leads to a shape has one. -/
theorem Leads.filled_of_fillAll {t t' : Table} {aliases : List (TypeId × TypeId)} {id : TypeId}
    (hid : Leads t aliases id) (hpending : Pending t aliases) (h : fillAll t aliases = .ok t') :
    ∃ s, t'.shape? id = some s := by
  induction hid with
  | filled hs => exact ⟨_, (hpending.fillAll h).1 _ _ hs⟩
  | next hlink _ ih =>
    obtain ⟨s, hs⟩ := ih
    exact ⟨s, ((hpending.fillAll h).2 _ hlink).trans hs⟩

theorem closed_fillAll {t t' : Table} {aliases : List (TypeId × TypeId)}
    (h : fillAll t aliases = .ok t') (ht : t.Closed) (hslots : ∀ a ∈ aliases, a.1 < t.size) :
    t'.Closed := by
  refine (fillAll_keeps (P := fun u => u.Closed ∧ u.size = t.size) ?_ ⟨ht, rfl⟩ h).1
  rintro a ha u s ⟨hu, hsize⟩
  exact ⟨hu.fill s (Nat.lt_of_lt_of_eq (hslots a ha) hsize.symm),
    (Table.size_fill a.1 s).trans hsize⟩

end Typewire
