-- When reserved places are filled late. Each takes over the shape of the place that its alias leads
-- to. All are filled if every way along the aliases ends at a place that had a shape before, and
-- then each has the shape from the end of its way. Else the place that is named as the fault has a
-- way that never comes to a shape.
import Typewire.Proofs.Shape.Headless
import Typewire.Proofs.Shape.Lawful

namespace Typewire

open Relation

/-! ## Following aliases -/

/-- The first place takes over the shape of the second. -/
def Awaits (aliases : List (TypeId × TypeId)) (slot target : TypeId) : Prop :=
  (slot, target) ∈ aliases

/-- Following the aliases from the one place ends at the other, from where no alias leads on. -/
structure EndsAt (aliases : List (TypeId × TypeId)) (id last : TypeId) : Prop where
  way : ReflTransGen (Awaits aliases) id last
  last : last ∉ aliases.map Prod.fst

/-- Following the aliases from the place leads to a cycle of them, or to a place without a shape
that no alias fills. -/
def Strays (t : Table) (aliases : List (TypeId × TypeId)) (id : TypeId) : Prop :=
  ∃ stray, ReflTransGen (Awaits aliases) id stray ∧
    (TransGen (Awaits aliases) stray stray ∨
      stray ∉ aliases.map Prod.fst ∧ t.shape? stray = none)

variable {t t' : Table} {aliases : List (TypeId × TypeId)} {id : TypeId}

/-- A place leads to a shape when the way from it ends at one. -/
theorem Pending.leads_iff (h : Pending t aliases) :
    Leads t aliases id ↔ ∃ last s, EndsAt aliases id last ∧ t.shape? last = some s := by
  constructor
  · intro hleads
    induction hleads with
    | @filled id s hs =>
      refine ⟨id, s, ⟨.refl, fun hid => ?_⟩, hs⟩
      obtain ⟨a, ha, rfl⟩ := List.mem_map.mp hid
      rw [(h.unfilled a ha).2] at hs
      cases hs
    | next hlink _ ih =>
      obtain ⟨last, s, hend, hs⟩ := ih
      exact ⟨last, s, ⟨.head hlink hend.way, hend.last⟩, hs⟩
  · rintro ⟨last, s, ⟨hway, -⟩, hs⟩
    induction hway using ReflTransGen.head_induction_on with
    | refl => exact .filled hs
    | head hlink _ ih => exact .next hlink ih

/-- A place from where one comes to no shape strays. Else the places on its way have an end, as
there are finitely many of them and no cycle, and that end has a shape. -/
theorem Pending.strays (h : Pending t aliases) (hid : ¬ Leads t aliases id) :
    Strays t aliases id := by
  by_contra hstrays
  let below (target slot : TypeId) : Prop :=
    Awaits aliases slot target ∧ ReflTransGen (Awaits aliases) id slot ∧ target < t.size
  have hacyclic : ∀ x, ¬ TransGen below x x := by
    intro x hcycle
    obtain ⟨y, -, -, hx, -⟩ := TransGen.tail'_iff.mp hcycle
    have hle : below ≤ Function.swap (Awaits aliases) := fun _ _ hbelow => hbelow.1
    exact hstrays ⟨x, hx, Or.inl (transGen_swap.mp (TransGen.mono hle _ _ hcycle))⟩
  have hacc : Acc below id := acc_of_acyclic (fun _ _ hbelow => hbelow.2.2) hacyclic id
  have hleads : ReflTransGen (Awaits aliases) id id → Leads t aliases id := by
    generalize hx : id = x at hacc
    nth_rewrite 1 [← hx]
    clear hx
    induction hacc with
    | intro x _ ih =>
      intro hway
      by_cases hslot : x ∈ aliases.map Prod.fst
      · obtain ⟨⟨_, target⟩, ha, rfl⟩ := List.mem_map.mp hslot
        have hnext := hway.tail ha
        by_cases htarget : target < t.size
        · exact .next ha (ih target ⟨ha, hway, htarget⟩ hnext)
        · refine absurd ⟨target, hnext, Or.inr ⟨fun hmem => ?_, ?_⟩⟩ hstrays
          · obtain ⟨b, hb, rfl⟩ := List.mem_map.mp hmem
            exact htarget (h.unfilled b hb).1
          · exact Option.eq_none_iff_forall_ne_some.mpr
              fun s hs => htarget (Table.lt_size_of_shape? hs)
      · cases hs : t.shape? x with
        | some s => exact .filled hs
        | none => exact absurd ⟨x, hway, Or.inr ⟨hslot, hs⟩⟩ hstrays
  exact hid (hleads .refl)

/-! ## What filling comes to -/

/-- Where no target has a shape nothing leads to one but what has one itself. -/
theorem Leads.filled_of_unfilled (h : Leads t aliases id)
    (hnone : ∀ a ∈ aliases, t.shape? a.2 = none) : ∃ s, t.shape? id = some s := by
  induction h with
  | filled hs => exact ⟨_, hs⟩
  | next hlink _ ih =>
    obtain ⟨s, hs⟩ := ih
    cases (hnone _ hlink).symm.trans hs

/-- The fault is a reserved place from where one comes to no shape. -/
theorem Pending.fillAll_error {x : ResolveError} (h : Pending t aliases)
    (hx : Typewire.fillAll t aliases = .error x) :
    ∃ slot ∈ aliases.map Prod.fst, x = .undefinedPlace slot ∧ ¬ Leads t aliases slot := by
  fun_induction Typewire.fillAll t aliases with
  | case1 => cases hx
  | case2 t a rest pass hlength =>
    cases hx
    refine ⟨a.1, List.mem_map_of_mem List.mem_cons_self, rfl, fun hleads => ?_⟩
    obtain ⟨s, hs⟩ := hleads.filled_of_unfilled (unfilled_of_length hlength)
    cases (h.unfilled a List.mem_cons_self).2.symm.trans hs
  | case3 t a rest pass _ ih =>
    obtain ⟨slot, hslot, hplace, hleads⟩ := ih h.fillAliases.2.1 hx
    refine ⟨slot, ?_, hplace, fun hslot' => hleads (hslot'.fillAliases h)⟩
    obtain ⟨b, hb, rfl⟩ := List.mem_map.mp hslot
    exact List.mem_map_of_mem (subset_fillAliases t _ b hb)

/-- When all are filled each has a shape. -/
theorem Pending.filled (h : Pending t aliases) (hfill : Typewire.fillAll t aliases = .ok t') :
    ∀ a ∈ aliases, ∃ s, t'.shape? a.1 = some s := by
  fun_induction Typewire.fillAll t aliases with
  | case1 => exact fun a ha => by cases ha
  | case2 => cases hfill
  | case3 t a rest pass _ ih =>
    intro b hb
    obtain ⟨-, hleft, hdone⟩ := h.fillAliases
    rcases hdone b hb with hb | ⟨s, hs, -⟩
    · exact ih hleft hfill b hb
    · exact ⟨s, (hleft.fillAll hfill).1 _ s hs⟩

/-- Where all are filled each leads to a shape: the places that lead to none are left without. -/
theorem Pending.leads (h : Pending t aliases) (hfill : Typewire.fillAll t aliases = .ok t') :
    ∀ a ∈ aliases, Leads t aliases a.1 := by
  intro a ha
  by_contra hleads
  have hnone : ∀ id, ¬ Leads t aliases id → t.shape? id = none := by
    intro id hid
    exact Option.eq_none_iff_forall_ne_some.mpr fun s hs => hid (.filled hs)
  have hlinks : ∀ b ∈ aliases, ¬ Leads t aliases b.1 → ¬ Leads t aliases b.2 :=
    fun b hb hslot htarget => hslot (.next hb htarget)
  obtain ⟨s, hs⟩ := h.filled hfill a ha
  cases (unfilled_fillAll hnone hlinks hfill a.1 hleads).symm.trans hs

theorem shape?_fillAll (hfill : fillAll t aliases = .ok t') (hid : id ∉ aliases.map Prod.fst) :
    t'.shape? id = t.shape? id := by
  refine fillAll_keeps (P := fun u => u.shape? id = t.shape? id) ?_ rfl hfill
  intro a ha u s hu
  rw [Table.shape?_fill_ne s, hu]
  rintro rfl
  exact hid (List.mem_map_of_mem ha)

/-- A place that is filled has the shape from the end of its way. -/
theorem Pending.shape?_end (h : Pending t aliases) (hfill : Typewire.fillAll t aliases = .ok t')
    {last : TypeId} (hend : EndsAt aliases id last) : t'.shape? id = t.shape? last := by
  obtain ⟨hway, hlast⟩ := hend
  have hsame : t'.shape? id = t'.shape? last := by
    induction hway using ReflTransGen.head_induction_on with
    | refl => rfl
    | head hlink _ ih => exact ((h.fillAll hfill).2 _ hlink).trans ih
  exact hsame.trans (shape?_fillAll hfill hlast)

/-! ## Tables with the same lower places -/

section

variable {v : Table} {bound : Nat}

theorem Leads.congr (h : Leads t aliases id) (hid : id < bound)
    (htargets : ∀ a ∈ aliases, a.2 < bound) (hshapes : ∀ id < bound, t'.shape? id = t.shape? id) :
    Leads t' aliases id := by
  induction h with
  | filled hs => exact .filled ((hshapes _ hid).trans hs)
  | next hlink _ ih => exact .next hlink (ih (htargets _ hlink))

theorem EndsAt.lt {last : TypeId} (h : EndsAt aliases id last) (hid : id < bound)
    (htargets : ∀ a ∈ aliases, a.2 < bound) : last < bound := by
  induction h.way with
  | refl => exact hid
  | tail _ hlink _ => exact htargets _ hlink

/-- Where the tables have the same lower places these are filled alike, as what fills them lies
below the bound too. -/
theorem Pending.fillAll_congr (h : Pending t aliases) (hsize : bound ≤ t'.size)
    (hwithin : ∀ a ∈ aliases, a.1 < bound ∧ a.2 < bound)
    (hshapes : ∀ id < bound, t'.shape? id = t.shape? id)
    (hfill : Typewire.fillAll t aliases = .ok v) :
    ∃ v', Typewire.fillAll t' aliases = .ok v' ∧ ∀ id < bound, v'.shape? id = v.shape? id := by
  have htargets := fun a ha => (hwithin a ha).2
  have hpending : Pending t' aliases := ⟨h.nodup, fun a ha =>
    ⟨Nat.lt_of_lt_of_le (hwithin a ha).1 hsize,
      (hshapes _ (hwithin a ha).1).trans (h.unfilled a ha).2⟩⟩
  obtain ⟨v', hfill'⟩ : ∃ v', Typewire.fillAll t' aliases = .ok v' := by
    cases hfill' : Typewire.fillAll t' aliases with
    | ok v' => exact ⟨v', rfl⟩
    | error x =>
      obtain ⟨slot, hslot, -, hleads⟩ := hpending.fillAll_error hfill'
      obtain ⟨a, ha, rfl⟩ := List.mem_map.mp hslot
      exact absurd ((h.leads hfill a ha).congr (hwithin a ha).1 htargets hshapes) hleads
  refine ⟨v', hfill', fun id hid => ?_⟩
  by_cases hslot : id ∈ aliases.map Prod.fst
  · obtain ⟨a, ha, rfl⟩ := List.mem_map.mp hslot
    obtain ⟨last, s, hend, -⟩ := h.leads_iff.mp (h.leads hfill a ha)
    rw [hpending.shape?_end hfill' hend, h.shape?_end hfill hend,
      hshapes last (hend.lt hid htargets)]
  · rw [shape?_fillAll hfill' hslot, shape?_fillAll hfill hslot, hshapes id hid]

end

/-! ## How many passes there are -/

/-- What one pass leaves: the table and the aliases that still wait. -/
def fillPass (left : Table × List (TypeId × TypeId)) : Table × List (TypeId × TypeId) :=
  fillAliases left.1 left.2

/-- Filling is over: nothing waits any more, or another pass would fill nothing. -/
def FillingOver (left : Table × List (TypeId × TypeId)) : Except ResolveError Table → Prop
  | .ok t => left = (t, [])
  | .error x => ∃ a rest, left.2 = a :: rest ∧ x = .undefinedPlace a.1 ∧
      (fillPass left).2.length = left.2.length

/-- There are at most as many passes as places to fill, as each but the last fills one. -/
theorem over_after_passes (t : Table) (aliases : List (TypeId × TypeId)) :
    ∃ n ≤ aliases.length, FillingOver (fillPass^[n] (t, aliases)) (fillAll t aliases) := by
  fun_induction fillAll t aliases with
  | case1 t => exact ⟨0, Nat.le_refl _, rfl⟩
  | case2 t a rest _ hlength => exact ⟨0, Nat.zero_le _, a, rest, rfl, rfl, hlength⟩
  | case3 t a rest left hne ih =>
    obtain ⟨n, hn, hover⟩ := ih
    refine ⟨n + 1, ?_, hover⟩
    have hlt : left.2.length < (a :: rest).length :=
      Nat.lt_of_le_of_ne (length_fillAliases_le t (a :: rest)) hne
    exact Nat.lt_of_le_of_lt hn hlt

/-! ## When reserved places are filled -/

/-- Every reserved place has the shape from the end of its way, and no other place has changed. -/
structure SettledAs (t : Table) (aliases : List (TypeId × TypeId)) (t' : Table) : Prop where
  filled : ∀ slot ∈ aliases.map Prod.fst,
    ∃ last s, EndsAt aliases slot last ∧ t.shape? last = some s ∧ t'.shape? slot = some s
  others : ∀ id, id ∉ aliases.map Prod.fst → t'.shape? id = t.shape? id
  size : t'.size = t.size

/-- Reserved places that have no shape yet, each once, are filled by at most as many passes as there
are of them. This comes to a table if and only if the way along the aliases from each ends at a
place that had a shape before; each then has the shape from the end of its way, and no other place
has changed. Else the fault is a reserved place whose way leads to a cycle or to a place that is
never filled. -/
theorem aliases_are_settled_exactly_when_they_can_be (h : Pending t aliases) :
    (∃ n ≤ aliases.length, FillingOver (fillPass^[n] (t, aliases)) (fillAll t aliases)) ∧
    ((∃ t', fillAll t aliases = .ok t') ↔ ∀ slot ∈ aliases.map Prod.fst,
      ∃ last s, EndsAt aliases slot last ∧ t.shape? last = some s) ∧
    (∀ t', fillAll t aliases = .ok t' → SettledAs t aliases t') ∧
    ∀ x, fillAll t aliases = .error x →
      ∃ slot ∈ aliases.map Prod.fst, x = .undefinedPlace slot ∧ Strays t aliases slot := by
  refine ⟨over_after_passes t aliases, ⟨?_, ?_⟩, ?_, ?_⟩
  · rintro ⟨t', hfill⟩ slot hslot
    obtain ⟨a, ha, rfl⟩ := List.mem_map.mp hslot
    exact h.leads_iff.mp (h.leads hfill a ha)
  · intro hends
    cases hfill : fillAll t aliases with
    | ok t' => exact ⟨t', rfl⟩
    | error x =>
      obtain ⟨slot, hslot, -, hleads⟩ := h.fillAll_error hfill
      exact absurd (h.leads_iff.mpr (hends slot hslot)) hleads
  · intro t' hfill
    refine ⟨fun slot hslot => ?_, fun id => shape?_fillAll hfill, size_fillAll hfill⟩
    obtain ⟨a, ha, rfl⟩ := List.mem_map.mp hslot
    obtain ⟨last, s, hend, hs⟩ := h.leads_iff.mp (h.leads hfill a ha)
    exact ⟨last, s, hend, hs, (h.shape?_end hfill hend).trans hs⟩
  · intro x hx
    obtain ⟨slot, hslot, hplace, hleads⟩ := h.fillAll_error hx
    exact ⟨slot, hslot, hplace, h.strays hleads⟩

/-- The empty tuple, and three places that are reserved. -/
def reservedThree : Table where
  slots := #[some (.tuple []), none, none, none]

/-- Of three places the first waits for the second, this for the third, and this for the tuple: all
become the tuple. -/
theorem three_places_in_a_row_are_settled :
    Pending reservedThree [(1, 2), (2, 3), (3, 0)] ∧
      ∃ t', fillAll reservedThree [(1, 2), (2, 3), (3, 0)] = .ok t' ∧
        SettledAs reservedThree [(1, 2), (2, 3), (3, 0)] t' := by
  have hpending : Pending reservedThree [(1, 2), (2, 3), (3, 0)] := ⟨by decide, by decide⟩
  obtain ⟨-, hends, hsettled, -⟩ := aliases_are_settled_exactly_when_they_can_be hpending
  have hlast : EndsAt [(1, 2), (2, 3), (3, 0)] 3 0 := ⟨.single (by simp [Awaits]), by decide⟩
  have hnext : EndsAt [(1, 2), (2, 3), (3, 0)] 2 0 :=
    ⟨.head (by simp [Awaits]) hlast.way, hlast.last⟩
  have hfirst : EndsAt [(1, 2), (2, 3), (3, 0)] 1 0 :=
    ⟨.head (by simp [Awaits]) hnext.way, hnext.last⟩
  obtain ⟨t', hfill⟩ := hends.mpr fun slot hslot => by
    rcases List.mem_cons.mp hslot with rfl | hslot
    · exact ⟨0, .tuple [], hfirst, rfl⟩
    rcases List.mem_cons.mp hslot with rfl | hslot
    · exact ⟨0, .tuple [], hnext, rfl⟩
    cases List.mem_singleton.mp hslot
    exact ⟨0, .tuple [], hlast, rfl⟩
  exact ⟨hpending, t', hfill, hsettled t' hfill⟩

end Typewire
