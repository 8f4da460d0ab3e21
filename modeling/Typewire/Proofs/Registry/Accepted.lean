-- Which definitions make a registry. Resolving them, counting the names that are followed meanwhile
-- and searching the finished table each catch their own share of the faults; together they refuse
-- all that is not well-formed, and nothing else.
import Typewire.Proofs.Registry.Rules
import Typewire.Proofs.Shape.Accepted
import Typewire.Proofs.Shape.Accepting

namespace Typewire.Registry

open Typewire.Language

/-- Definitions without parameters and type arguments make a registry just when they are
well-formed. -/
theorem exactly_the_well_formed_definitions_are_accepted {ds : List Definition} (h : Plain ds) :
    (∃ r, ofDefinitions ds = .ok r) ↔ WellFormed ds := by
  constructor
  · rintro ⟨r, hr⟩
    obtain ⟨known, haccepted⟩ := accepted_ofDefinitions h (ofDefinitions_ok hr)
    exact haccepted.wellFormed
  · intro hwf
    obtain ⟨t, ht⟩ := hwf.accepted h
    exact ⟨{ table := t }, by rw [ofDefinitions, ht]; rfl⟩

/-- A tuple that holds itself is refused, and a list of itself is not. -/
example :
    (ofDefinitions [⟨some "A", [], .tuple [.named "A" []], 1⟩]).isOk = false ∧
      (ofDefinitions [⟨some "A", [], .sequence (.named "A" []), 1⟩]).isOk = true := by
  decide +kernel

/-- Trees, which hold a tree again only behind a variant, with their sizes in compact form. -/
def treeDefinitions : List Definition :=
  [⟨some "Tree", [], .struct
      [("next", .enum [("Leaf", none, none), ("Node", some (.index 0), none)]),
        ("size", .compact (.named "Size" []))], 1⟩,
    ⟨some "Size", [], .named "u64" [], 2⟩]

/-- The types that are written there. -/
def treeTypes : List TypeExpr :=
  let next := .enum [("Leaf", none, none), ("Node", some (.index 0), none)]
  let size := .compact (.named "Size" [])
  [.struct [("next", next), ("size", size)], next, size, .index 0, .named "Size" [],
    .named "u64" []]

theorem mem_treeTypes_of_occurs {e : TypeExpr} (h : Occurs treeDefinitions e) : e ∈ treeTypes := by
  have hinside : ∀ e ∈ treeTypes, ∀ inner ∈ e.inside, inner ∈ treeTypes := by
    simp [treeTypes, TypeExpr.inside]
  induction h with
  | body hd =>
    rcases List.mem_pair.mp hd with rfl | rfl
    · simp [treeTypes]
    · simp [treeTypes]
  | inside _ hinner ih => exact hinside _ ih _ hinner

theorem plain_treeDefinitions : Plain treeDefinitions where
  params d hd := by
    rcases List.mem_pair.mp hd with rfl | rfl
    · rfl
    · rfl
  args name args h := by
    have hmem := mem_treeTypes_of_occurs h
    simp only [treeTypes, List.mem_cons, List.not_mem_nil, TypeExpr.named.injEq, reduceCtorEq,
      false_or, or_false] at hmem
    rcases hmem with ⟨-, rfl⟩ | ⟨-, rfl⟩
    · rfl
    · rfl

theorem the_definitions_of_trees_are_accepted :
    Plain treeDefinitions ∧ (∃ r, ofDefinitions treeDefinitions = .ok r) ∧
      WellFormed treeDefinitions := by
  have hok : (ofDefinitions treeDefinitions).isOk = true := by decide +kernel
  have haccepted : ∃ r, ofDefinitions treeDefinitions = .ok r := by
    cases h : ofDefinitions treeDefinitions with
    | error x =>
      rw [h] at hok
      cases hok
    | ok r => exact ⟨r, rfl⟩
  exact ⟨plain_treeDefinitions, haccepted,
    (exactly_the_well_formed_definitions_are_accepted plain_treeDefinitions).mp haccepted⟩

end Typewire.Registry
