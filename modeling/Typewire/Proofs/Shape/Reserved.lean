-- Reserved places. Each is held by what it was reserved for, a definition or a generic instance
-- underway or an alias, and by nothing else, and it has no shape until it is filled.
import Typewire.Proofs.Shape.Places
import Typewire.Proofs.Shape.Resolution

namespace Typewire

open Typewire.Language Resolving

/-- What a place can be reserved for. -/
inductive Holder where
  | definition (i : Nat)
  | generic (key : InstanceKey)
  | linked (k : Nat)
  deriving DecidableEq

/-- The place that is reserved for a definition that has come that far. -/
def Progress.reserved : Progress → Option TypeId
  | underway u => u.reserved
  | _ => none

/-- The place that is reserved for a holder. -/
def Workspace.reservedBy (w : Workspace) : Holder → Option TypeId
  | .definition i => (w.progressAt i).reserved
  | .generic key => (w.instances.lookup key).bind (·.reserved)
  | .linked k => (w.aliases[k]?).map (·.1)

namespace Table

/-- A shape that is looked up stands where it is found, and every shape is found. -/
structure Indexed (t : Table) : Prop where
  interned : ∀ s id, t.interned.lookup s = some id → t.shape? id = some s
  stored : ∀ id s, t.shape? id = some s → ∃ found, t.interned.lookup s = some found

namespace Indexed

variable {t t' : Table}

theorem of_slots (h : t.Indexed) (hslots : t'.slots = t.slots)
    (hinterned : t'.interned = t.interned) : t'.Indexed where
  interned s id hs := (shape?_congr hslots id).trans (h.interned s id (hinterned ▸ hs))
  stored id s hs := hinterned ▸ h.stored id s ((shape?_congr hslots id).symm.trans hs)

theorem shape?_intern (h : t.Indexed) (s : Shape) :
    (t.intern s).2.shape? (t.intern s).1 = some s := by
  rcases intern_cases t s with ⟨id, hid, ht⟩ | ⟨-, ht⟩
  · rw [ht]
    exact h.interned s id hid
  · rw [ht, shape?_push rfl, if_pos rfl]

theorem intern (h : t.Indexed) (s : Shape) : (t.intern s).2.Indexed := by
  have hfound := h.shape?_intern s
  have hself := lookup_intern_self t s
  rcases intern_cases t s with ⟨_, -, ht⟩ | ⟨-, ht⟩
  · rw [ht]
    exact h
  rw [ht] at hfound hself ⊢
  constructor
  · intro s' id hs
    by_cases hsame : s' = s
    · subst hsame
      cases hself.symm.trans hs
      exact hfound
    · simp only [List.lookup_cons, beq_false_of_ne hsame] at hs
      have hid := h.interned s' id hs
      rw [shape?_push rfl, if_neg (Nat.ne_of_lt (lt_size_of_shape? hid)), hid]
  · intro id s' hs
    by_cases hsame : s' = s
    · exact ⟨t.size, by rw [hsame, hself]⟩
    · rw [shape?_push rfl] at hs
      split at hs
      · cases hs
        exact absurd rfl hsame
      · obtain ⟨found, hfound⟩ := h.stored id s' hs
        exact ⟨found, by simpa only [List.lookup_cons, beq_false_of_ne hsame] using hfound⟩

theorem reserve (h : t.Indexed) : t.reserve.2.Indexed where
  interned s id hs := (shape?_reserve t id).trans (h.interned s id hs)
  stored id s hs := h.stored id s ((shape?_reserve t id).symm.trans hs)

/-- A place without a shape can take any. -/
theorem fill (h : t.Indexed) {slot : TypeId} (s : Shape) (hlt : slot < t.size)
    (hnone : t.shape? slot = none) : (t.fill slot s).Indexed := by
  constructor
  · intro s' id hs
    have hold (hid : t.interned.lookup s' = some id) : (t.fill slot s).shape? id = some s' := by
      have hshape := h.interned s' id hid
      rw [shape?_fill_ne s, hshape]
      rintro rfl
      cases hnone.symm.trans hshape
    simp only [Table.fill] at hs
    split at hs
    · exact hold hs
    · by_cases hsame : s' = s
      · subst hsame
        simp only [List.lookup_cons, beq_self_eq_true, Option.some.injEq] at hs
        subst hs
        exact shape?_fill_self s' hlt
      · simp only [List.lookup_cons, beq_false_of_ne hsame] at hs
        exact hold hs
  · intro id s' hs
    by_cases hid : id = slot
    · subst hid
      cases (shape?_fill_self s hlt).symm.trans hs
      exact lookup_interned_fill t id s
    · rw [shape?_fill_ne s hid] at hs
      obtain ⟨found, hfound⟩ := h.stored id s' hs
      exact ⟨found, lookup_fill slot s hfound⟩

end Indexed

/-- Reserved places have one holder each, and they are the places without a shape. -/
structure Reserved (t : Table) (place : Holder → Option TypeId) : Prop where
  indexed : t.Indexed
  unfilled : ∀ h id, place h = some id → id < t.size ∧ t.shape? id = none
  held : ∀ id, id < t.size → t.shape? id = none → ∃ h, place h = some id
  unique : ∀ h h' id, place h = some id → place h' = some id → h = h'

namespace Reserved

variable {t t' : Table} {place place' : Holder → Option TypeId}

/-- Labels, names and instances are free to change. -/
theorem of_slots (h : t.Reserved place) (hslots : t'.slots = t.slots)
    (hinterned : t'.interned = t.interned) : t'.Reserved place where
  indexed := h.indexed.of_slots hslots hinterned
  unfilled holder id hid := by
    rw [size, hslots, shape?_congr hslots]
    exact h.unfilled holder id hid
  held id hid hnone := by
    rw [size, hslots] at hid
    exact h.held id hid ((shape?_congr hslots id).symm.trans hnone)
  unique := h.unique

/-- Where there is no place, none is reserved. -/
theorem empty (hslots : t.slots = #[]) (hinterned : t.interned = []) :
    t.Reserved fun _ => none := by
  have hshape (id : TypeId) : t.shape? id = none := by
    simp [shape?, hslots]
  constructor
  case indexed =>
    refine ⟨fun s id hs => ?_, fun id s hs => ?_⟩
    · rw [hinterned] at hs
      cases hs
    · cases (hshape id).symm.trans hs
  case unfilled => exact fun _ _ hid => by cases hid
  case held =>
    intro id hid
    rw [size, hslots] at hid
    exact absurd hid (Nat.not_lt_zero id)
  case unique => exact fun _ _ _ hid => by cases hid

theorem of_place (h : t.Reserved place) (hplace : place' = place) : t.Reserved place' :=
  hplace ▸ h

theorem intern (h : t.Reserved place) (s : Shape) : (t.intern s).2.Reserved place := by
  have hindexed := h.indexed.intern s
  rcases intern_cases t s with ⟨_, -, ht⟩ | ⟨-, ht⟩
  · rw [ht]
    exact h
  rw [ht] at hindexed ⊢
  constructor
  case indexed => exact hindexed
  case unfilled =>
    intro holder id hid
    obtain ⟨hlt, hnone⟩ := h.unfilled holder id hid
    refine ⟨Nat.lt_of_lt_of_le hlt (by simp [size]), ?_⟩
    rw [shape?_push rfl, if_neg (Nat.ne_of_lt hlt), hnone]
  case held =>
    intro id hid hnone
    rw [shape?_push rfl] at hnone
    split at hnone
    · cases hnone
    · rename_i hne
      have hlt : id < t.size + 1 := by simpa [size] using hid
      exact h.held id (Nat.lt_of_le_of_ne (Nat.le_of_lt_succ hlt) hne) hnone
  case unique => exact h.unique

/-- A new place is reserved for one holder, which held no place before. -/
theorem reserve (h : t.Reserved place) {holder : Holder} (hnone : place holder = none)
    (hself : place' holder = some t.size)
    (hothers : ∀ other, other ≠ holder → place' other = place other) :
    t.reserve.2.Reserved place' where
  indexed := h.indexed.reserve
  unfilled other id hid := by
    rw [size_reserve, shape?_reserve]
    by_cases hother : other = holder
    · subst hother
      cases hself.symm.trans hid
      exact ⟨Nat.lt_succ_self _, shape?_eq_none_of_size_le (Nat.le_refl _)⟩
    · obtain ⟨hlt, hunfilled⟩ := h.unfilled other id ((hothers other hother).symm.trans hid)
      exact ⟨Nat.lt_succ_of_lt hlt, hunfilled⟩
  held id hid hunfilled := by
    rw [size_reserve] at hid
    rw [shape?_reserve] at hunfilled
    rcases Nat.lt_succ_iff_lt_or_eq.mp hid with hlt | rfl
    · obtain ⟨other, hother⟩ := h.held id hlt hunfilled
      refine ⟨other, (hothers other ?_).trans hother⟩
      rintro rfl
      cases hnone.symm.trans hother
    · exact ⟨holder, hself⟩
  unique a b id ha hb := by
    have hold {c : Holder} (hc : c ≠ holder) (hid : place' c = some t.size) : False :=
      Nat.lt_irrefl _ (h.unfilled c t.size ((hothers c hc).symm.trans hid)).1
    by_cases hah : a = holder
    · by_cases hbh : b = holder
      · rw [hah, hbh]
      · subst hah
        cases hself.symm.trans ha
        exact (hold hbh hb).elim
    · by_cases hbh : b = holder
      · subst hbh
        cases hself.symm.trans hb
        exact (hold hah ha).elim
      · exact h.unique a b id ((hothers a hah).symm.trans ha) ((hothers b hbh).symm.trans hb)

/-- A reserved place that is filled has no holder any more. -/
theorem fill (h : t.Reserved place) {holder : Holder} {slot : TypeId} (s : Shape)
    (hslot : place holder = some slot) (hself : place' holder = none)
    (hothers : ∀ other, other ≠ holder → place' other = place other) :
    (t.fill slot s).Reserved place' := by
  obtain ⟨hlt, hnone⟩ := h.unfilled holder slot hslot
  have hplace {other : Holder} {id : TypeId} (hid : place' other = some id) :
      other ≠ holder ∧ place other = some id := by
    have hne : other ≠ holder := by
      rintro rfl
      cases hself.symm.trans hid
    exact ⟨hne, (hothers other hne).symm.trans hid⟩
  constructor
  case indexed => exact h.indexed.fill s hlt hnone
  case unfilled =>
    intro other id hid
    obtain ⟨hne, hid⟩ := hplace hid
    obtain ⟨hlt, hnone⟩ := h.unfilled other id hid
    rw [size_fill, shape?_fill_ne s]
    · exact ⟨hlt, hnone⟩
    · rintro rfl
      exact hne (h.unique other holder id hid hslot)
  case held =>
    intro id hid hunfilled
    rw [size_fill] at hid
    have hne : id ≠ slot := by
      rintro rfl
      cases (shape?_fill_self s hlt).symm.trans hunfilled
    rw [shape?_fill_ne s hne] at hunfilled
    obtain ⟨other, hother⟩ := h.held id hid hunfilled
    refine ⟨other, (hothers other ?_).trans hother⟩
    rintro rfl
    exact hne (Option.some.inj (hother.symm.trans hslot))
  case unique =>
    intro a b id ha hb
    exact h.unique a b id (hplace ha).2 (hplace hb).2

/-- A reserved place may pass from one holder to another that held none. -/
theorem pass (h : t.Reserved place) {holder heir : Holder} {slot : TypeId}
    (hslot : place holder = some slot) (hself : place' holder = none)
    (hnone : place heir = none) (hheir : place' heir = some slot)
    (hothers : ∀ other, other ≠ holder → other ≠ heir → place' other = place other) :
    t.Reserved place' := by
  have hplace {other : Holder} {id : TypeId} (hid : place' other = some id) :
      (other = heir ∧ id = slot) ∨ (other ≠ holder ∧ place other = some id) := by
    by_cases hother : other = heir
    · subst hother
      cases hheir.symm.trans hid
      exact Or.inl ⟨rfl, rfl⟩
    · have hne : other ≠ holder := by
        rintro rfl
        cases hself.symm.trans hid
      exact Or.inr ⟨hne, (hothers other hne hother).symm.trans hid⟩
  constructor
  case indexed => exact h.indexed
  case unfilled =>
    intro other id hid
    rcases hplace hid with ⟨-, rfl⟩ | ⟨-, hid⟩
    · exact h.unfilled holder id hslot
    · exact h.unfilled other id hid
  case held =>
    intro id hid hunfilled
    obtain ⟨other, hother⟩ := h.held id hid hunfilled
    by_cases hholder : other = holder
    · subst hholder
      cases hslot.symm.trans hother
      exact ⟨heir, hheir⟩
    · refine ⟨other, (hothers other hholder ?_).trans hother⟩
      rintro rfl
      cases hnone.symm.trans hother
  case unique =>
    intro a b id ha hb
    have hold {c : Holder} (hne : c ≠ holder) (hc : place c = some slot) : False :=
      hne (h.unique c holder slot hc hslot)
    rcases hplace ha with ⟨rfl, rfl⟩ | ⟨hne, ha⟩
    · rcases hplace hb with ⟨rfl, -⟩ | ⟨hne', hb⟩
      · rfl
      · exact (hold hne' hb).elim
    · rcases hplace hb with ⟨rfl, rfl⟩ | ⟨-, hb⟩
      · exact (hold hne ha).elim
      · exact h.unique a b id ha hb

theorem of_meetAgain {u u' : Underway} {n : Nat} {label : String} {reservedLabel : Option String}
    {w w' : Workspace} {slot : TypeId} (h : w.table.Reserved place)
    (hmeet : outcome (meetAgain u n label reservedLabel) w = (.ok (slot, u'), w'))
    {holder : Holder} (hself : place holder = u.reserved) (hself' : place' holder = u'.reserved)
    (hothers : ∀ other, other ≠ holder → place' other = place other) :
    w'.table.Reserved place' := by
  rcases meetAgain_cases u n label reservedLabel w with ⟨-, ho⟩ | ⟨-, _, -, ho⟩ | ⟨-, hnone, ho⟩
  · cases ho.symm.trans hmeet
  · cases ho.symm.trans hmeet
    refine h.of_place (funext fun other => ?_)
    by_cases hother : other = holder
    · rw [hother, hself', hself]
    · exact hothers other hother
  · cases ho.symm.trans hmeet
    refine of_slots (h.reserve (hself.trans hnone) hself' hothers) ?_ ?_
    · cases reservedLabel with
      | none => rfl
      | some text => exact slots_setLabel _ _
    · cases reservedLabel with
      | none => rfl
      | some text => exact interned_setLabel _ _

end Reserved

end Table

/-! ## Settling -/

/-- A body settles where it is, unless a place was reserved for it. That place takes the shape of
the body, or it becomes an alias. -/
theorem settle_ok {u : Underway} {id id' : TypeId} {label : String} {w w' : Workspace}
    (h : outcome (settle u id label) w = (.ok id', w')) :
    (u.reserved = none ∧ id' = id ∧ w' = w) ∨
      (u.reserved = some id' ∧ id ≠ id' ∧ ∃ s, w.table.shape? id = some s ∧
        w' = { w with table := w.table.fill id' s }) ∨
      (u.reserved = some id' ∧ w' = { w with aliases := w.aliases ++ [(id', id)] }) := by
  rcases settle_cases u id label w with
    ⟨hnone, ho⟩ | ⟨slot, hslot, ⟨-, ho⟩ | ⟨s, hs, hne, ho⟩ | ⟨-, -, ho⟩⟩
  · cases ho.symm.trans h
    exact Or.inl ⟨hnone, rfl, rfl⟩
  · cases ho.symm.trans h
  · cases ho.symm.trans h
    exact Or.inr (Or.inl ⟨hslot, hne, s, hs, rfl⟩)
  · cases ho.symm.trans h
    exact Or.inr (Or.inr ⟨hslot, rfl⟩)

section Settling

variable {u : Underway} {id id' : TypeId} {label : String} {w w' : Workspace}
  {place place' : Holder → Option TypeId} {holder : Holder}

/-- What settled holds its reserved place no more; where it became an alias, that holds it. -/
theorem Table.Reserved.of_settle (h : w.table.Reserved place)
    (hsettle : outcome (settle u id label) w = (.ok id', w')) (hself : place holder = u.reserved)
    (hself' : place' holder = none)
    (hlinked : ∀ k, place (.linked k) = (w.aliases[k]?).map (·.1))
    (hlinked' : ∀ k, place' (.linked k) = (w'.aliases[k]?).map (·.1))
    (hothers : ∀ other, other ≠ holder → (∀ k, other ≠ .linked k) → place' other = place other) :
    w'.table.Reserved place' := by
  have hsame (haliases : w'.aliases = w.aliases) (other : Holder) (hother : other ≠ holder) :
      place' other = place other := by
    cases other with
    | linked k => rw [hlinked', haliases, hlinked]
    | _ => exact hothers _ hother (by rintro k ⟨⟩)
  rcases settle_ok hsettle with ⟨hnone, rfl, rfl⟩ | ⟨hslot, -, s, -, rfl⟩ | ⟨hslot, rfl⟩
  · refine h.of_place (funext fun other => ?_)
    by_cases hother : other = holder
    · rw [hother, hself', hself, hnone]
    · exact hsame rfl other hother
  · exact h.fill s (hself.trans hslot) hself' (hsame rfl)
  · have hfree : place (.linked w.aliases.length) = none := by
      rw [hlinked, List.getElem?_eq_none (Nat.le_refl _)]
      rfl
    refine h.pass (hself.trans hslot) hself' hfree ?_ ?_
    · rw [hlinked', List.getElem?_concat_length]
      rfl
    · intro other hother hheir
      cases other with
      | linked k =>
        have hk : k ≠ w.aliases.length := fun hk => hheir (by rw [hk])
        rw [hlinked', hlinked]
        rcases Nat.lt_or_ge k w.aliases.length with hlt | hge
        · rw [List.getElem?_append_left hlt]
        · rw [List.getElem?_eq_none hge, List.getElem?_eq_none]
          rw [List.length_append, List.length_singleton]
          omega
      | _ => exact hothers _ hother (by rintro k ⟨⟩)

theorem shape?_settle (h : w.table.Reserved place)
    (hsettle : outcome (settle u id label) w = (.ok id', w')) (hself : place holder = u.reserved)
    {other : TypeId} {s : Shape} (hs : w.table.shape? other = some s) :
    w'.table.shape? other = some s := by
  rcases settle_ok hsettle with ⟨-, rfl, rfl⟩ | ⟨hslot, -, s', -, rfl⟩ | ⟨-, rfl⟩
  · exact hs
  · rw [Table.shape?_fill_ne s', hs]
    rintro rfl
    cases (h.unfilled holder other (hself.trans hslot)).2.symm.trans hs
  · exact hs

/-- The place where a body settles has the shape of the body, now or in the end. -/
theorem shape?_settled {t : Table} (h : w.table.Reserved place)
    (hsettle : outcome (settle u id label) w = (.ok id', w')) (hself : place holder = u.reserved)
    (hshapes : ∀ id s, w'.table.shape? id = some s → t.shape? id = some s)
    (haliases : ∀ a ∈ w'.aliases, t.shape? a.1 = t.shape? a.2) : t.shape? id' = t.shape? id := by
  rcases settle_ok hsettle with ⟨-, rfl, -⟩ | ⟨hslot, hne, s, hs, rfl⟩ | ⟨-, rfl⟩
  · rfl
  · have hlt := (h.unfilled holder id' (hself.trans hslot)).1
    rw [hshapes id' s (Table.shape?_fill_self s hlt),
      hshapes id s ((Table.shape?_fill_ne s hne).trans hs)]
  · exact haliases (id', id) (List.mem_append_right _ List.mem_cons_self)

end Settling

end Typewire
