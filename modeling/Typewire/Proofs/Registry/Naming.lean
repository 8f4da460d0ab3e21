-- The ways to name a type of a registry. A tuple of definitions is asked for by their positions or
-- as a written type, and a definition by its position or as a written type; every way to ask gives
-- the same answer and leaves the same registry.
import Typewire.Proofs.Registry.Sizes

namespace Typewire

open Typewire.Language Resolving

/-! ## Positions as types -/

/-- Every type is resolved in one way; what differs is what its definitions and generic instances
are resolved by. -/
theorem Program.resolve_eq (p : Program) :
    ∃ enter instance?, p.resolve = resolveWith p enter instance? := by
  unfold Program.resolve
  cases p.definitions.size with
  | zero => exact ⟨_, _, rfl⟩
  | succ entries => exact ⟨_, _, rfl⟩

theorem outcome_resolveAll_index (enter : Resolver) (instance? : Option Resolver)
    (positions : List Nat) (s : Bindings) (n : Nat) (w : Workspace) :
    outcome (resolveAll {} enter instance? (positions.map .index) s n) w
      = (positions.mapM w.table.typeAt, w) := by
  induction positions with
  | nil => rfl
  | cons i positions ih =>
    have hfirst : outcome (resolveWith {} enter instance? (.index i) s n) w
        = (w.table.typeAt i, w) := by
      rw [resolveWith]
      exact outcome_resolveIndex_of_le (Nat.zero_le i) w
    rw [List.map_cons, resolveAll, List.mapM_cons]
    cases hplace : w.table.typeAt i with
    | error x =>
      rw [hplace] at hfirst
      exact outcome_bind_error hfirst _
    | ok id =>
      rw [hplace] at hfirst
      rw [outcome_bind_ok hfirst]
      cases hrest : positions.mapM w.table.typeAt with
      | error x =>
        rw [hrest] at ih
        exact outcome_bind_error ih _
      | ok ids =>
        rw [hrest] at ih
        exact outcome_bind_ok ih _

namespace Table

variable {t : Table}

theorem resolving_index (t : Table) (i : Nat) :
    t.resolving (.index i) = (t.typeAt i, { table := t }) := by
  obtain ⟨enter, instance?, hresolve⟩ := Program.resolve_eq {}
  unfold resolving
  rw [hresolve, resolveWith]
  exact outcome_resolveIndex_of_le (Nat.zero_le i) { table := t }

theorem resolving_tuple (t : Table) (positions : List Nat) :
    t.resolving (.tuple (positions.map .index))
      = match positions.mapM t.typeAt with
        | .error x => (.error x, { table := t })
        | .ok members =>
          (.ok (t.intern (.tuple members)).1, { table := (t.intern (.tuple members)).2 }) := by
  obtain ⟨enter, instance?, hresolve⟩ := Program.resolve_eq {}
  have hall := outcome_resolveAll_index enter instance? positions [] 1 { table := t }
  unfold resolving
  rw [hresolve, resolveWith]
  cases hmembers : positions.mapM t.typeAt with
  | error x =>
    rw [hmembers] at hall
    exact outcome_bind_error hall _
  | ok members =>
    rw [hmembers] at hall
    exact outcome_bind_ok hall _

/-- A position is taken up as the type of the definition there, and nothing changes. -/
theorem extend_index (ht : t.ClosedWorld) (hg : t.Grounded) (i : Nat) :
    t.extend (.index i) = (t.typeAt i, t) := by
  have hresolving := t.resolving_index i
  cases hplace : t.typeAt i with
  | error x =>
    rw [hplace] at hresolving
    rw [extend_of_error (congrArg Prod.fst hresolving), hresolving, rollback_size ht.closed]
  | ok id =>
    rw [hplace] at hresolving
    apply extend_of_ok (congrArg Prod.fst hresolving)
    · rw [hresolving, fillAll]
    · exact hg.check ht.checked ht.sound _

/-- A tuple of positions is taken up as the tuple of the definitions there. -/
theorem extend_tuple (ht : t.ClosedWorld) (hg : t.Grounded) (positions : List Nat) :
    t.extend (.tuple (positions.map .index))
      = match positions.mapM t.typeAt with
        | .error x => (.error x, t)
        | .ok members => (.ok (t.intern (.tuple members)).1, (t.intern (.tuple members)).2) := by
  have hresolving := t.resolving_tuple positions
  cases hmembers : positions.mapM t.typeAt with
  | error x =>
    rw [hmembers] at hresolving
    rw [extend_of_error (congrArg Prod.fst hresolving), hresolving, rollback_size ht.closed]
  | ok members =>
    rw [hmembers] at hresolving
    have hknown : ∀ id ∈ members, id < t.size := lt_of_mapM_typeAt ht.closed hmembers
    have hworld := ht.tuple hknown
    apply extend_of_ok (congrArg Prod.fst hresolving)
    · rw [hresolving, fillAll]
    · -- The members are known, so no way among what is held leads back to the new place.
      exact (hg.tuple ht hknown).check hworld.checked hworld.sound _

end Table

namespace Registry

/-- All ways to name a type agree. The tuple of the definitions at some positions has one answer,
whether it is asked for by its positions, by a reference or as a written type: the same type and the
same registry after it, or the same error and the registry as it was. So has the definition at a
position. -/
theorem all_ways_to_name_a_type_agree {r : Registry} (hr : r.Reachable) (positions : List Nat)
    (position : Nat) :
    (outcome (typeId (.tuple positions)) r = outcome (resolveTuple positions) r ∧
      outcome (resolveExpr (.tuple (positions.map .index))) r = outcome (resolveTuple positions) r ∧
      ∀ x r', outcome (resolveTuple positions) r = (.error x, r') → r' = r) ∧
    (outcome (typeId (.position position)) r = outcome (typeAt position) r ∧
      outcome (resolveExpr (.index position)) r = outcome (typeAt position) r ∧
      (outcome (typeAt position) r).2 = r) := by
  have ht := hr.world.table
  have hg := hr.grounded
  have htypeAt : outcome (typeAt position) r = ((r.table.typeAt position).mapError .resolve, r) :=
    outcome_position position r
  refine ⟨⟨rfl, ?_, ?_⟩, rfl, ?_, ?_⟩
  · rw [outcome_resolveExpr, outcome_resolveTuple, Table.extend_tuple ht hg]
    cases positions.mapM r.table.typeAt <;> rfl
  · intro x r' h
    rw [outcome_resolveTuple] at h
    cases hmembers : positions.mapM r.table.typeAt with
    | error y =>
      rw [hmembers] at h
      cases h
      rfl
    | ok members =>
      rw [hmembers] at h
      cases h
  · rw [outcome_resolveExpr, Table.extend_index ht hg, htypeAt]
  · rw [htypeAt]

/-- A registry of a text: a generic definition stands between two that have types. -/
def genericPairs : Registry := (parse "u8\nPair<T> = (T,T)\nPair<0>").toOption.getD empty

theorem reachable_genericPairs : genericPairs.Reachable := by
  unfold genericPairs
  cases h : parse "u8\nPair<T> = (T,T)\nPair<0>" with
  | error x => exact .made .empty
  | ok r => exact .made (.parsed h)

/-- The pair of the last type and the first is one type, however it is asked for, and the position
of the generic definition is refused in every way, also among others. -/
theorem a_pair_of_positions_is_the_written_pair :
    genericPairs.Reachable ∧
      (outcome (resolveTuple [2, 0]) genericPairs).1.toOption = some 2 ∧
      outcome (resolveExpr (.tuple [.index 2, .index 0])) genericPairs
        = outcome (typeId (.tuple [2, 0])) genericPairs ∧
      (∃ x, outcome (typeId (.tuple [0, 1])) genericPairs = (.error x, genericPairs) ∧
        outcome (resolveExpr (.tuple [.index 0, .index 1])) genericPairs
          = (.error x, genericPairs)) ∧
      outcome (resolveExpr (.index 1)) genericPairs = outcome (typeAt 1) genericPairs := by
  have hr := reachable_genericPairs
  obtain ⟨⟨hpair, hwritten, -⟩, -⟩ := all_ways_to_name_a_type_agree hr [2, 0] 0
  obtain ⟨⟨href, hexpr, hsame⟩, -, hindex, -⟩ := all_ways_to_name_a_type_agree hr [0, 1] 1
  refine ⟨hr, by decide +kernel, hwritten.trans hpair.symm, ?_, hindex⟩
  have hfails : (outcome (resolveTuple [0, 1]) genericPairs).1.toOption = none := by
    decide +kernel
  rcases h : outcome (resolveTuple [0, 1]) genericPairs with ⟨x | id, r'⟩
  · cases hsame x r' h
    exact ⟨x, href.trans h, hexpr.trans h⟩
  · rw [h] at hfails
    cases hfails

end Registry

end Typewire
