-- The registry of a text is a model of the text. Every definition stands at a place that holds
-- what is written, and so do the parts of it, through all names, positions and generic types.
import Typewire.Proofs.Registry.Rules
import Typewire.Proofs.Shape.Model

namespace Typewire.Registry

open Typewire.Language

/-- Whatever text is accepted, its registry is a model of it: a relation between places, types
and bindings holds of every definition that is not generic, with no bindings, and where it holds
the place has the shape that is written, over parts of which it holds again. -/
theorem a_parsed_registry_is_a_model_of_its_text {text : String} {r : Registry}
    (h : parse text = .ok r) : ∃ ds R, parseDefinitions text = .ok ds ∧ Models ds r.table R ∧
      ∀ i d, ds[i]? = some d → d.isGeneric = false → ∃ id, r.table.typeAt i = .ok id ∧
        R id d.body [] ∧ ∀ name, d.name = some name → r.lookup? name = some id := by
  obtain ⟨ds, hds, htable⟩ := parse_ok h
  obtain ⟨known, hof, hdenoted⟩ := denoted_ofDefinitions htable
  refine ⟨ds, _, hds, hdenoted.models hof, fun i d hd hg => ?_⟩
  obtain ⟨id, hplace, hbody, hnames⟩ := hdenoted.definitions i d hd hg
  exact ⟨id, typeAt_of_position hplace, ⟨hbody, fun name id hname => (by cases hname)⟩, hnames⟩

/-- The lists of any type, which come back to themselves, and after them the lists of bytes. -/
def listText : String := "L<T> = (T, [L<T>])\nL<u8>"

/-- What is written there. -/
def listDefinitions : List Definition :=
  [⟨some "L", ["T"], .tuple [.named "T" [], .sequence (.named "L" [.named "T" []])], 1⟩,
    ⟨none, [], .named "L" [.named "u8" []], 2⟩]

theorem the_registry_of_lists_is_a_model_of_them :
    ∃ r R id, parse listText = .ok r ∧ Models listDefinitions r.table R ∧
      r.table.typeAt 1 = .ok id ∧ R id (.named "L" [.named "u8" []]) [] := by
  have hread : parseDefinitions listText = .ok listDefinitions := by with_unfolding_all rfl
  have hok : (parse listText).isOk = true := by decide +kernel
  cases h : parse listText with
  | error x =>
    rw [h] at hok
    cases hok
  | ok r =>
    obtain ⟨ds, R, hds, hmodels, hdefinitions⟩ := a_parsed_registry_is_a_model_of_its_text h
    cases hread.symm.trans hds
    obtain ⟨id, htype, hR, -⟩ := hdefinitions 1 _ rfl rfl
    exact ⟨r, R, id, rfl, hmodels, htype, hR⟩

end Typewire.Registry
