-- The search for cycles. It follows the places that every value holds, and it finds a cycle
-- exactly where there is one: what it closes leads to no cycle, what it comes to again while it
-- is underway does, and it has room for as many turns as it takes.
import Mathlib.Algebra.Order.BigOperators.Group.List
import Mathlib.Algebra.Order.Group.Nat
import Typewire.Proofs.Shape.Distinct

namespace Typewire

/-- What is reached along no endless way down is not reached from itself. -/
theorem not_transGen_of_acc {α : Type} {r : α → α → Prop} {x : α} (h : Acc r x) :
    ¬ Relation.TransGen r x x := by
  have hacc := acc_transGen_iff.mpr h
  clear h
  induction hacc with
  | intro x _ ih => exact fun hx => ih x hx hx

namespace Table

/-- Every value at the second place holds one at the first, which is a place from `mark` on. -/
def Holds (t : Table) (mark : Nat) (child id : TypeId) : Prop :=
  child ∈ t.unguarded id ∧ mark ≤ child

variable {t : Table} {mark : Nat} {id : TypeId}

/-- What is past the end of the table leads nowhere. -/
theorem acc_of_size_le (h : t.size ≤ id) : Acc (t.Holds mark) id := by
  refine Acc.intro id fun child hchild => ?_
  have hnone := hchild.1
  rw [unguarded, shape?_eq_none_of_size_le h] at hnone
  cases hnone

namespace Search

variable {s s' : Search} {above : Option TypeId} {way : List (TypeId × List TypeId)}

/-! ## Stages -/

@[simp]
theorem size_setStage (s : Search) (mark : Nat) (id : TypeId) (stage : Stage) :
    (s.setStage mark id stage).stages.size = s.stages.size := by
  simp [setStage]

theorem stage?_setStage_self {stage : Stage} (hid : id - mark < s.stages.size) :
    (s.setStage mark id stage).stage? mark id = some stage := by
  simp [stage?, setStage, hid]

theorem stage?_setStage_ne {stage : Stage} {other : TypeId} (hid : mark ≤ id)
    (hother : mark ≤ other) (hne : other ≠ id) :
    (s.setStage mark id stage).stage? mark other = s.stage? mark other := by
  have hindex : id - mark ≠ other - mark := by
    intro h
    refine hne ?_
    rw [← Nat.sub_add_cancel hother, ← h, Nat.sub_add_cancel hid]
  simp [stage?, setStage, Array.getElem?_setIfInBounds_ne hindex]

theorem stage?_enter_self (hid : id - mark < s.stages.size) :
    (s.enter t mark id).stage? mark id = some .underway := stage?_setStage_self hid

theorem stage?_enter_ne {other : TypeId} (hid : mark ≤ id) (hother : mark ≤ other)
    (hne : other ≠ id) : (s.enter t mark id).stage? mark other = s.stage? mark other :=
  stage?_setStage_ne hid hother hne

theorem lt_size_of_stage? {stage : Stage} (h : s.stage? mark id = some stage) :
    id - mark < s.stages.size := by
  rw [stage?] at h
  exact (Array.getElem?_eq_some_iff.mp h).1

/-! ## Turns -/

/-- A turn goes back from a place where nothing is left to follow, or it takes the next place:
past one that is closed or is no place of the search, or on to one that was not visited. -/
theorem step_cases (hs : s.way ≠ []) (h : s.step t mark = .ok s') :
    (∃ id way, s.way = (id, []) :: way ∧ s' = { s with way }.setStage mark id .closed) ∨
    ∃ id child pending way, s.way = (id, child :: pending) :: way ∧
      ((child < mark ∨ s.stage? mark child = some .closed ∨ s.stage? mark child = none) ∧
          s' = { s with way := (id, pending) :: way } ∨
        mark ≤ child ∧ s.stage? mark child = some .unvisited ∧
          s' = { s with way := (id, pending) :: way }.enter t mark child) := by
  obtain ⟨way, stages⟩ := s
  cases way with
  | nil => exact absurd rfl hs
  | cons frame way =>
    obtain ⟨id, pending⟩ := frame
    cases pending with
    | nil =>
      cases h
      exact Or.inl ⟨id, way, rfl, rfl⟩
    | cons child pending =>
      refine Or.inr ⟨id, child, pending, way, rfl, ?_⟩
      simp only [step] at h
      split at h
      · rename_i hlt
        cases h
        exact Or.inl ⟨Or.inl hlt, rfl⟩
      · rename_i hge
        split at h
        · cases h
        · rename_i hstage
          cases h
          exact Or.inr ⟨Nat.le_of_not_lt hge, hstage, rfl⟩
        · rename_i hstage
          cases h
          exact Or.inl ⟨Or.inr (Or.inl hstage), rfl⟩
        · rename_i hstage
          cases h
          exact Or.inl ⟨Or.inr (Or.inr hstage), rfl⟩

/-- A turn fails where the next place is underway. -/
theorem step_error {child : TypeId} (h : s.step t mark = .error child) :
    ∃ id pending way, s.way = (id, child :: pending) :: way ∧ mark ≤ child ∧
      s.stage? mark child = some .underway := by
  obtain ⟨way, stages⟩ := s
  cases way with
  | nil => cases h
  | cons frame way =>
    obtain ⟨id, pending⟩ := frame
    cases pending with
    | nil => cases h
    | cons other pending =>
      simp only [step] at h
      split at h
      · cases h
      · rename_i hge
        split at h
        · rename_i hstage
          cases h
          exact ⟨id, pending, way, rfl, Nat.le_of_not_lt hge, hstage⟩
        · cases h
        · cases h
        · cases h

/-! ## What is on the way -/

/-- Each place on the way is held by the one before it. What a place leads to is followed yet, or
it is the next place on the way, or it leads to no cycle. -/
inductive Leads (t : Table) (mark : Nat) : Option TypeId → List (TypeId × List TypeId) → Prop where
  | nil {above : Option TypeId} : Leads t mark above []
  | cons {above : Option TypeId} {id : TypeId} {pending : List TypeId}
      {way : List (TypeId × List TypeId)} :
      mark ≤ id → (∀ child ∈ pending, child ∈ t.unguarded id) →
      (∀ child, above = some child → t.Holds mark child id) →
      (∀ child, t.Holds mark child id →
        child ∈ pending ∨ above = some child ∨ Acc (t.Holds mark) child) →
      Leads t mark (some id) way → Leads t mark above ((id, pending) :: way)

/-- The way goes on from a place that leads to no cycle. -/
theorem Leads.closed (h : Leads t mark (some id) way) (hacc : Acc (t.Holds mark) id) :
    Leads t mark none way := by
  cases h with
  | nil => exact .nil
  | cons hmark hsub _ hrest hway =>
    refine .cons hmark hsub (fun _ hnone => by cases hnone) (fun child hchild => ?_) hway
    rcases hrest child hchild with hpending | hnext | hdone
    · exact Or.inl hpending
    · cases hnext
      exact Or.inr (Or.inr hacc)
    · exact Or.inr (Or.inr hdone)

/-- What is held by the last place on the way leads to it from every place on the way. -/
theorem Leads.transGen (h : Leads t mark (some id) way) :
    ∀ x ∈ way.map (·.1), Relation.TransGen (t.Holds mark) id x := by
  generalize hnext : some id = next at h
  induction h generalizing id with
  | nil => exact fun x hx => by cases hx
  | @cons _ last pending way _ _ hheld _ _ ih =>
    cases hnext
    have hstep := hheld id rfl
    intro x hx
    rcases List.mem_cons.mp hx with rfl | hx
    · exact .single hstep
    · exact .head hstep (ih rfl x hx)

/-- The latest place goes on with what is left to follow. -/
theorem Leads.next {child : TypeId} {pending : List TypeId}
    (h : Leads t mark none ((id, child :: pending) :: way)) :
    (child < mark ∨ Acc (t.Holds mark) child → Leads t mark none ((id, pending) :: way)) ∧
      (mark ≤ child → Leads t mark (some child) ((id, pending) :: way)) := by
  cases h with
  | cons hmark hsub _ hrest hway =>
    have hsub' : ∀ other ∈ pending, other ∈ t.unguarded id := fun other hother =>
      hsub other (List.mem_cons_of_mem _ hother)
    constructor
    · intro hchild
      refine .cons hmark hsub' (fun _ hnone => by cases hnone) (fun other hother => ?_) hway
      rcases hrest other hother with hpending | hnext | hdone
      · rcases List.mem_cons.mp hpending with rfl | hpending
        · exact Or.inr (Or.inr (hchild.resolve_left (Nat.not_lt_of_le hother.2)))
        · exact Or.inl hpending
      · cases hnext
      · exact Or.inr (Or.inr hdone)
    · intro hchild
      refine .cons hmark hsub' ?_ (fun other hother => ?_) hway
      · rintro _ ⟨⟩
        exact ⟨hsub child List.mem_cons_self, hchild⟩
      · rcases hrest other hother with hpending | hnext | hdone
        · rcases List.mem_cons.mp hpending with rfl | hpending
          · exact Or.inr (Or.inl rfl)
          · exact Or.inl hpending
        · cases hnext
        · exact Or.inr (Or.inr hdone)

/-! ## What the search knows -/

/-- The search knows of each place whether it is on the way, and what is closed leads to no cycle.
The place above the way, if there is one, is the one that the search comes to. -/
structure Knows (t : Table) (mark : Nat) (above : Option TypeId) (s : Search) : Prop where
  size : s.stages.size = t.size - mark
  leads : Leads t mark above s.way
  underway : ∀ id, mark ≤ id → s.stage? mark id = some .underway → id ∈ s.way.map (·.1)
  closed : ∀ id, mark ≤ id → s.stage? mark id = some .closed → Acc (t.Holds mark) id

theorem knows_start (t : Table) (mark : Nat) : (start t mark).Knows t mark none where
  size := by simp [start]
  leads := .nil
  underway id _ h := by simp [start, stage?, Array.getElem?_replicate] at h
  closed id _ h := by simp [start, stage?, Array.getElem?_replicate] at h

namespace Knows

theorem acc_of_none (h : s.Knows t mark above) (hmark : mark ≤ id)
    (hid : s.stage? mark id = none) : Acc (t.Holds mark) id := by
  rw [stage?, Array.getElem?_eq_none_iff, h.size] at hid
  refine acc_of_size_le ?_
  omega

/-- The search comes to a place that was not visited. -/
theorem enter (h : s.Knows t mark (some id)) (hmark : mark ≤ id)
    (hid : s.stage? mark id = some .unvisited) : (s.enter t mark id).Knows t mark none where
  size := (size_setStage _ mark id .underway).trans h.size
  leads := .cons hmark (fun _ hchild => List.mem_reverse.mp hchild) (fun _ hnone => by cases hnone)
    (fun _ hchild => Or.inl (List.mem_reverse.mpr hchild.1)) h.leads
  underway other hother hstage := by
    by_cases hne : other = id
    · exact hne ▸ List.mem_cons_self
    · rw [stage?_enter_ne hmark hother hne] at hstage
      exact List.mem_cons_of_mem _ (h.underway other hother hstage)
  closed other hother hstage := by
    by_cases hne : other = id
    · rw [hne, stage?_enter_self (lt_size_of_stage? hid)] at hstage
      cases hstage
    · rw [stage?_enter_ne hmark hother hne] at hstage
      exact h.closed other hother hstage

/-- The search goes back from a place where nothing is left to follow. -/
theorem leave {way : List (TypeId × List TypeId)} (h : s.Knows t mark none)
    (hway : s.way = (id, []) :: way) :
    Knows t mark none ({ s with way }.setStage mark id .closed) := by
  have hleads := h.leads
  rw [hway] at hleads
  cases hleads with
  | cons hmark _ _ hrest hleads =>
    have hacc : Acc (t.Holds mark) id := by
      refine Acc.intro id fun child hchild => ?_
      rcases hrest child hchild with hpending | hnext | hdone
      · cases hpending
      · cases hnext
      · exact hdone
    refine ⟨(size_setStage _ mark id .closed).trans h.size, hleads.closed hacc,
      fun other hother hstage => ?_, fun other hother hstage => ?_⟩
    · by_cases hne : other = id
      · rw [hne, stage?_setStage_self] at hstage
        · cases hstage
        · have hlt := lt_size_of_stage? hstage
          rwa [size_setStage] at hlt
      · rw [stage?_setStage_ne hmark hother hne] at hstage
        have hmem := h.underway other hother hstage
        rw [hway] at hmem
        exact (List.mem_cons.mp hmem).resolve_left hne
    · by_cases hne : other = id
      · exact hne ▸ hacc
      · rw [stage?_setStage_ne hmark hother hne] at hstage
        exact h.closed other hother hstage

/-- What the search knows it knows after each turn. -/
theorem step (h : s.Knows t mark none) (hs : s.way ≠ []) (hstep : s.step t mark = .ok s') :
    s'.Knows t mark none := by
  rcases step_cases hs hstep with ⟨id, way, hway, rfl⟩ | ⟨id, child, pending, way, hway, hcase⟩
  · exact h.leave hway
  · have hleads := h.leads
    rw [hway] at hleads
    obtain ⟨hpast, honward⟩ := hleads.next
    have hunderway : ∀ other, mark ≤ other → s.stage? mark other = some .underway →
        other ∈ ((id, pending) :: way).map (·.1) := fun other hother hstage => by
      have hmem := h.underway other hother hstage
      rwa [hway] at hmem
    rcases hcase with ⟨hskip, rfl⟩ | ⟨hmark, hstage, rfl⟩
    · refine ⟨h.size, hpast ?_, hunderway, h.closed⟩
      rcases Nat.lt_or_ge child mark with hlt | hge
      · exact Or.inl hlt
      · rcases hskip with hlt | hclosed | hnone
        · exact Or.inl hlt
        · exact Or.inr (h.closed child hge hclosed)
        · exact Or.inr (h.acc_of_none hge hnone)
    · exact enter ⟨h.size, honward hmark, hunderway, h.closed⟩ hmark hstage

/-- No turn fails where no place leads back to itself. -/
theorem step_ok (h : s.Knows t mark none) (hacc : ∀ id, mark ≤ id → Acc (t.Holds mark) id) :
    ∃ s', s.step t mark = .ok s' := by
  cases hstep : s.step t mark with
  | ok s' => exact ⟨s', rfl⟩
  | error child =>
    obtain ⟨id, pending, way, hway, hmark, hstage⟩ := step_error hstep
    have hmem := h.underway child hmark hstage
    have hleads := h.leads
    rw [hway] at hmem hleads
    have hback := (hleads.next.2 hmark).transGen child hmem
    exact absurd hback (not_transGen_of_acc (hacc child hmark))

end Knows

/-! ## Room enough -/

/-- The turns of the places that were not visited yet. -/
def ahead (s : Search) (t : Table) (mark : Nat) : Nat :=
  (((List.range t.size).drop mark).flatMap fun id =>
    if s.stage? mark id = some .unvisited then id :: t.unguarded id else []).length

/-- The turns that are left: at each place on the way one back, and one for each place that is to
be followed yet. -/
def left (s : Search) (t : Table) (mark : Nat) : Nat :=
  s.ahead t mark + (s.way.flatMap fun frame => frame.1 :: frame.2).length

/-- What was visited stays so. -/
def Keeps (mark : Nat) (s s' : Search) : Prop :=
  ∀ id, mark ≤ id → s'.stage? mark id = some .unvisited → s.stage? mark id = some .unvisited

theorem Keeps.refl (mark : Nat) (s : Search) : Keeps mark s s := fun _ _ hid => hid

theorem Keeps.trans {mid : Search} (h : Keeps mark s mid) (h' : Keeps mark mid s') :
    Keeps mark s s' := fun id hmark hid => h id hmark (h' id hmark hid)

theorem ne_of_unvisited {stage : Stage} {other : TypeId} (hstage : stage ≠ .unvisited)
    (h : (s.setStage mark id stage).stage? mark other = some .unvisited) : other ≠ id := by
  rintro rfl
  have hlt := lt_size_of_stage? h
  rw [size_setStage] at hlt
  rw [stage?_setStage_self hlt] at h
  exact hstage (Option.some.inj h)

theorem keeps_setStage {stage : Stage} (hstage : stage ≠ .unvisited) (hid : mark ≤ id) :
    Keeps mark s (s.setStage mark id stage) := by
  intro other hother h
  rwa [stage?_setStage_ne hid hother (ne_of_unvisited hstage h)] at h

/-- No place is ahead again once it was visited. -/
theorem ahead_setStage {stage : Stage} (hstage : stage ≠ .unvisited) (hid : mark ≤ id) :
    (s.setStage mark id stage).ahead t mark ≤ s.ahead t mark := by
  rw [ahead, ahead, List.length_flatMap, List.length_flatMap]
  refine List.sum_le_sum fun other hother => ?_
  split
  · rename_i h
    rw [if_pos (keeps_setStage hstage hid other (mem_places.mp hother).1 h)]
  · exact Nat.zero_le _

/-- The turns of a place are ahead until the search comes to it. -/
theorem ahead_enter (hsize : s.stages.size = t.size - mark) (hmark : mark ≤ id)
    (hid : s.stage? mark id = some .unvisited) :
    (s.enter t mark id).ahead t mark + ((t.unguarded id).length + 1) = s.ahead t mark := by
  have hlt := lt_size_of_stage? hid
  rw [hsize] at hlt
  have hmem : id ∈ (List.range t.size).drop mark :=
    mem_places.mpr ⟨hmark, (Nat.sub_lt_sub_iff_right hmark).mp hlt⟩
  have hnodup : ((List.range t.size).drop mark).Nodup :=
    List.nodup_range.sublist (List.drop_sublist mark _)
  rw [ahead, ahead, List.length_flatMap, List.length_flatMap, ← List.sum_map_erase _ hmem,
    ← List.sum_map_erase _ hmem]
  have hothers : ∀ other ∈ ((List.range t.size).drop mark).erase id,
      (s.enter t mark id).stage? mark other = s.stage? mark other := fun other hother => by
    obtain ⟨hne, hother⟩ := hnodup.mem_erase_iff.mp hother
    exact stage?_enter_ne hmark (mem_places.mp hother).1 hne
  rw [List.map_congr_left fun other hother => by rw [hothers other hother],
    stage?_enter_self (lt_size_of_stage? hid), hid]
  simp only [reduceCtorEq, if_true, if_false, Option.some.injEq, List.length_nil, List.length_cons]
  omega

theorem left_enter (hsize : s.stages.size = t.size - mark) (hmark : mark ≤ id)
    (hid : s.stage? mark id = some .unvisited) :
    (s.enter t mark id).left t mark = s.left t mark := by
  have hahead := ahead_enter (t := t) hsize hmark hid
  have hway : (s.enter t mark id).way = (id, (t.unguarded id).reverse) :: s.way := rfl
  rw [left, left, hway, List.flatMap_cons, List.length_append, List.length_cons,
    List.length_reverse]
  omega

/-- A turn leaves fewer turns, and what was visited stays so. -/
theorem Knows.turn (h : s.Knows t mark none) (hs : s.way ≠ []) (hstep : s.step t mark = .ok s') :
    s'.left t mark < s.left t mark ∧ Keeps mark s s' := by
  rcases step_cases hs hstep with ⟨id, way, hway, rfl⟩ | ⟨id, child, pending, way, hway, hcase⟩
  · have hmark : mark ≤ id := by
      have hleads := h.leads
      rw [hway] at hleads
      cases hleads
      assumption
    have hahead : ({ s with way }.setStage mark id .closed).ahead t mark ≤ s.ahead t mark :=
      ahead_setStage (s := { s with way }) (by decide) hmark
    refine ⟨?_, keeps_setStage (s := { s with way }) (by decide) hmark⟩
    rw [left, left, hway, List.flatMap_cons, List.length_append, List.length_cons]
    change _ + (way.flatMap fun frame => frame.1 :: frame.2).length < _
    omega
  · have hnext : ({ s with way := (id, pending) :: way } : Search).left t mark < s.left t mark := by
      rw [left, left, hway]
      change s.ahead t mark + _ < _
      simp only [List.flatMap_cons, List.length_append, List.length_cons]
      omega
    rcases hcase with ⟨-, rfl⟩ | ⟨hmark, hstage, rfl⟩
    · exact ⟨hnext, .refl mark s⟩
    · have hleft := left_enter (s := { s with way := (id, pending) :: way }) h.size hmark hstage
      exact ⟨hleft ▸ hnext, keeps_setStage (s := { s with way := _ }) (by decide) hmark⟩

/-! ## Runs -/

/-- With room for the turns that are left a run comes to the end of the way. -/
theorem Knows.run {room : Nat} (h : s.Knows t mark none) (hroom : s.left t mark ≤ room)
    (hrun : s.run t mark room = .ok s') :
    s'.Knows t mark none ∧ s'.way = [] ∧ s'.left t mark ≤ s.left t mark ∧ Keeps mark s s' := by
  induction room generalizing s with
  | zero =>
    cases hrun
    refine ⟨h, ?_, Nat.le_refl _, .refl mark _⟩
    cases hway : s'.way with
    | nil => rfl
    | cons frame way =>
      rw [left, hway, List.flatMap_cons, List.length_append, List.length_cons] at hroom
      omega
  | succ room ih =>
    rw [Search.run] at hrun
    split at hrun
    · rename_i hend
      cases hrun
      exact ⟨h, List.isEmpty_iff.mp hend, Nat.le_refl _, .refl mark _⟩
    · rename_i hgoes
      obtain ⟨mid, hstep, hrun⟩ := except_bind_ok hrun
      have hs : s.way ≠ [] := fun hnil => hgoes (List.isEmpty_iff.mpr hnil)
      obtain ⟨hless, hkeeps⟩ := h.turn hs hstep
      obtain ⟨hknows, hway, hleft, hkeeps'⟩ := ih (h.step hs hstep) (by omega) hrun
      exact ⟨hknows, hway, by omega, hkeeps.trans hkeeps'⟩

/-- A run does not fail where no place leads back to itself. -/
theorem Knows.run_ok (hacc : ∀ id, mark ≤ id → Acc (t.Holds mark) id) (room : Nat)
    (h : s.Knows t mark none) : ∃ s', s.run t mark room = .ok s' := by
  induction room generalizing s with
  | zero => exact ⟨s, rfl⟩
  | succ room ih =>
    rw [Search.run]
    split
    · exact ⟨s, rfl⟩
    · rename_i hgoes
      obtain ⟨mid, hstep⟩ := h.step_ok hacc
      rw [hstep]
      exact ih (h.step (fun hnil => hgoes (List.isEmpty_iff.mpr hnil)) hstep)

/-- Nothing is on the way, and there is room for all turns that are left. -/
structure Rests (t : Table) (mark : Nat) (s : Search) : Prop where
  knows : s.Knows t mark none
  way : s.way = []
  left : s.left t mark ≤ t.turns mark

theorem rests_start (t : Table) (mark : Nat) : (start t mark).Rests t mark where
  knows := knows_start t mark
  way := rfl
  left := by
    change (start t mark).ahead t mark ≤ t.turns mark
    rw [ahead, turns, List.length_flatMap, List.length_flatMap]
    refine List.sum_le_sum fun id _ => ?_
    split
    · exact Nat.le_refl _
    · exact Nat.zero_le _

theorem Rests.enter (h : s.Rests t mark) (hmark : mark ≤ id)
    (hid : s.stage? mark id = some .unvisited) :
    (s.enter t mark id).Knows t mark none ∧ (s.enter t mark id).left t mark ≤ t.turns mark := by
  have hleads : Leads t mark (some id) s.way := h.way ▸ .nil
  refine ⟨Knows.enter ⟨h.knows.size, hleads, h.knows.underway, h.knows.closed⟩ hmark hid, ?_⟩
  rw [left_enter h.knows.size hmark hid]
  exact h.left

/-- A visit of a place leaves the search at rest, and the place is visited. -/
theorem Rests.visit (h : s.Rests t mark) (hmark : mark ≤ id) (hvisit : t.visit mark s id = .ok s') :
    s'.Rests t mark ∧ s'.stage? mark id ≠ some .unvisited ∧ Keeps mark s s' := by
  unfold Table.visit at hvisit
  split at hvisit
  · rename_i hid
    obtain ⟨hknows, hroom⟩ := h.enter hmark hid
    obtain ⟨hknows', hway, hleft, hkeeps⟩ := hknows.run hroom hvisit
    refine ⟨⟨hknows', hway, Nat.le_trans hleft hroom⟩, fun hstage => ?_,
      (keeps_setStage (s := { s with way := _ }) (by decide) hmark).trans hkeeps⟩
    exact ne_of_unvisited (by decide) (hkeeps id hmark hstage) rfl
  · rename_i hid
    cases hvisit
    exact ⟨h, hid, .refl mark _⟩

theorem Rests.visit_ok (hacc : ∀ id, mark ≤ id → Acc (t.Holds mark) id) (h : s.Rests t mark)
    (hmark : mark ≤ id) : ∃ s', t.visit mark s id = .ok s' := by
  unfold Table.visit
  split
  · rename_i hid
    exact (h.enter hmark hid).1.run_ok hacc _
  · exact ⟨s, rfl⟩

/-- Visits in a row leave the search at rest, and all of their places are visited. -/
theorem Rests.visits {ids : List TypeId} (h : s.Rests t mark) (hids : ∀ id ∈ ids, mark ≤ id)
    (hvisits : ids.foldlM (t.visit mark) s = .ok s') :
    s'.Rests t mark ∧ (∀ id ∈ ids, s'.stage? mark id ≠ some .unvisited) ∧ Keeps mark s s' := by
  induction ids generalizing s with
  | nil =>
    cases hvisits
    exact ⟨h, fun _ hid => (by cases hid), .refl mark _⟩
  | cons id ids ih =>
    obtain ⟨hmark, hids⟩ := List.forall_mem_cons.mp hids
    rw [List.foldlM_cons] at hvisits
    obtain ⟨mid, hvisit, hvisits⟩ := except_bind_ok hvisits
    obtain ⟨hmid, hid, hkeeps⟩ := h.visit hmark hvisit
    obtain ⟨hrests, hothers, hkeeps'⟩ := ih hmid hids hvisits
    have hfirst : s'.stage? mark id ≠ some .unvisited := fun hstage => hid (hkeeps' id hmark hstage)
    exact ⟨hrests, List.forall_mem_cons.mpr ⟨hfirst, hothers⟩, hkeeps.trans hkeeps'⟩

theorem Rests.visits_ok (hacc : ∀ id, mark ≤ id → Acc (t.Holds mark) id) {ids : List TypeId}
    (h : s.Rests t mark) (hids : ∀ id ∈ ids, mark ≤ id) :
    ∃ s', ids.foldlM (t.visit mark) s = .ok s' := by
  induction ids generalizing s with
  | nil => exact ⟨s, rfl⟩
  | cons id ids ih =>
    obtain ⟨hmark, hids⟩ := List.forall_mem_cons.mp hids
    obtain ⟨mid, hvisit⟩ := h.visit_ok hacc hmark
    rw [List.foldlM_cons, hvisit]
    exact ih (h.visit hmark hvisit).1 hids

end Search

/-! ## The search over all places -/

theorem checkGuarded_ok : t.checkGuarded mark = .ok () ↔
    ∃ s, ((List.range t.size).drop mark).foldlM (t.visit mark) (.start t mark) = .ok s := by
  unfold checkGuarded
  cases ((List.range t.size).drop mark).foldlM (t.visit mark) (.start t mark) with
  | error id => simp
  | ok s => simp

/-- Where the search comes to its end no place leads to a cycle. -/
theorem acc_of_checkGuarded (h : t.checkGuarded mark = .ok ()) (hmark : mark ≤ id) :
    Acc (t.Holds mark) id := by
  obtain ⟨s, hvisits⟩ := checkGuarded_ok.mp h
  obtain ⟨hrests, hvisited, -⟩ := (Search.rests_start t mark).visits
    (fun other hother => (mem_places.mp hother).1) hvisits
  cases hstage : s.stage? mark id with
  | none => exact hrests.knows.acc_of_none hmark hstage
  | some stage =>
    have hlt := Search.lt_size_of_stage? hstage
    rw [hrests.knows.size] at hlt
    cases stage with
    | unvisited =>
      have hplace := mem_places.mpr ⟨hmark, (Nat.sub_lt_sub_iff_right hmark).mp hlt⟩
      exact absurd hstage (hvisited id hplace)
    | underway =>
      have hmem := hrests.knows.underway id hmark hstage
      rw [hrests.way] at hmem
      cases hmem
    | closed => exact hrests.knows.closed id hmark hstage

/-- The search accepts exactly the tables in which no place leads to a cycle. -/
theorem checkGuarded_iff : t.checkGuarded mark = .ok () ↔ ∀ id, mark ≤ id → Acc (t.Holds mark) id := by
  refine ⟨fun h id hmark => acc_of_checkGuarded h hmark, fun hacc => checkGuarded_ok.mpr ?_⟩
  exact (Search.rests_start t mark).visits_ok hacc fun id hid => (mem_places.mp hid).1

end Table

end Typewire
