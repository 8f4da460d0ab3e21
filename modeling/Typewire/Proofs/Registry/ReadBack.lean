-- Types that are shown and read back. A registry that came from text shows its types in the type
-- language, save where it has to fall back on places. What it shows denotes the place that is
-- shown, so it resolves once more: to a place that holds the same type, or not at all where
-- instances stand too deep.
import Typewire.Proofs.Language.Displayed
import Typewire.Proofs.Registry.Stable
import Typewire.Proofs.Shape.Regained

namespace Typewire

open Typewire.Language

/-! ## Tables that can be read back -/

/-- What the table shows of its places is written there, and can be taken up once more. -/
structure Table.Repeatable (p : Program) (progress : Array Progress) (t : Table) : Prop where
  legible : t.Legible p progress
  apart : t.Apart
  grounded : t.Grounded

namespace Table

variable {p : Program} {progress : Array Progress} {t t' : Table} {e : TypeExpr} {id : TypeId}

theorem repeatable_ofDefinitions {ds : List Definition} (h : Table.ofDefinitions ds = .ok t)
    (hds : ∀ d ∈ ds, (∀ name, d.name = some name → IsName name) ∧ Writable d.body) :
    ∃ p progress, t.Repeatable p progress := by
  obtain ⟨known, progress, hof, hbodies, hgenerics, hlegible⟩ := legible_ofDefinitions h hds
  refine ⟨_, progress, hlegible, hof.apart hbodies hgenerics fun name id hid => ?_,
    grounded_ofDefinitions h⟩
  obtain ⟨i, hi, -⟩ := hlegible.settled.faithful.bound name id hid
  exact ⟨i, hi⟩

namespace Repeatable

theorem extend (ht : t.Repeatable p progress) (he : Writable e)
    (h : t.extend e = (.ok id, t')) : t'.Repeatable p progress := by
  have hworld := ht.legible.settled.world
  have hext := extends_extend hworld.closed e
  have hgrounded := ht.grounded.extend hworld e
  rw [h] at hext hgrounded
  exact ⟨ht.legible.extend he h, ht.apart.of_extends hext, hgrounded⟩

theorem withExpression (ht : t.Repeatable p progress) (text : String) (hid : id < t.size) :
    Repeatable p progress { t with expressions := (text, id) :: t.expressions } :=
  ⟨ht.legible.withExpression text hid, ht.apart, ht.grounded⟩

/-- A text without a place in it reads as a type that denotes the place that is shown. -/
theorem reads_text (ht : t.Repeatable p progress) (h : Placeless (t.text id)) :
    ∃ e, parseTypeExpr (t.text id) = .ok e ∧ Denotes p t e [] id := by
  obtain ⟨e, he, htext, hdenotes⟩ := ht.legible.reads h
  exact ⟨e, htext ▸ parseTypeExpr_text he, hdenotes⟩

/-- Places that one type denotes hold the same type. -/
theorem equivalent (ht : t.Repeatable p progress) {x y : TypeId} (hx : Denotes p t e [] x)
    (hy : Denotes p t e [] y) : t.Equivalent x y :=
  ht.legible.settled.meant.equivalent (.denoted hx hy rfl (by rintro _ _ _ ⟨⟩))

end Repeatable

end Table

namespace Registry

variable {r r' : Registry}

/-! ## Registries that grow -/

/-- A registry that was read from text, and took up types that it was asked for as texts. -/
inductive Grown : Registry → Prop where
  | parsed {text r} : parse text = .ok r → Grown r
  | resolved {text r id r'} : Grown r → outcome (resolve text) r = (.ok id, r') → Grown r'

theorem Grown.reachable (h : r.Grown) : r.Reachable := by
  induction h with
  | parsed h => exact .made (.parsed h)
  | @resolved text r id r' _ h ih =>
    have hasked := ih.asked (.resolve text)
    rwa [show (Question.resolve text).after r = r' from congrArg Prod.snd h] at hasked

theorem Grown.repeatable (h : r.Grown) : ∃ p progress, r.table.Repeatable p progress := by
  induction h with
  | parsed h =>
    obtain ⟨ds, hds, htable⟩ := parse_ok h
    exact Table.repeatable_ofDefinitions htable (spelled_of_parseDefinitions hds)
  | @resolved text r id r' _ h ih =>
    obtain ⟨p, progress, ht⟩ := ih
    refine ⟨p, progress, ?_⟩
    rw [outcome_resolve] at h
    split at h
    · cases h
      exact ht
    · split at h
      · cases h
      · rename_i e hparse
        have hclosed := (Table.closed_extend ht.legible.settled.world.closed e).2
        split at h
        · cases h
        · rename_i id t' hextend
          cases h
          rw [hextend] at hclosed
          exact (ht.extend (writable_of_parseTypeExpr hparse) hextend).withExpression text
            (hclosed id rfl)

/-! ## Reading back -/

/-- What a registry shows without a place in it, it reads back as the same type, though maybe at
another place, unless instances stand too deep in one another. -/
theorem a_shown_type_reads_back (h : r.Grown) {id : TypeId}
    (hshown : '#' ∉ (r.table.text id).toList) :
    (∃ id' r', outcome (resolve (r.table.text id)) r = (.ok id', r') ∧
      r'.table.Equivalent id id') ∨
    ∃ x r', outcome (resolve (r.table.text id)) r = (.error (.resolve x), r') ∧ x.TooDeep := by
  obtain ⟨p, progress, ht⟩ := h.repeatable
  obtain ⟨e, hparse, hdenotes⟩ := ht.reads_text hshown
  rw [outcome_resolve]
  cases hknown : r.table.expressions.lookup (r.table.text id) with
  | some other =>
    -- The text was resolved before, so what it denotes was found then.
    obtain ⟨e', hparse', hrecalls⟩ := h.reachable.remembers _ other hknown
    cases hparse.symm.trans hparse'
    have hother := ht.legible.settled.denotes_extend hrecalls.extend
    exact Or.inl ⟨other, r, rfl, ht.equivalent hdenotes hother⟩
  | none =>
    rcases ht.legible.settled.extend_again ht.apart ht.grounded hdenotes with
      ⟨id', t', hextend, hequivalent⟩ | ⟨x, t', hextend, hdeep⟩
    · refine Or.inl ⟨id', { r with table := { t' with
        expressions := (r.table.text id, id') :: t'.expressions } }, ?_, hequivalent⟩
      simp only [hparse, hextend]
    · refine Or.inr ⟨x, { r with table := t' }, ?_, hdeep⟩
      simp only [hparse, hextend]

/-- Trees under two names: they are shown by what they are, not by a name. -/
def treeText : String := "Tree = <Leaf,Node:Pair>\nPair = (Tree,Tree)\nWood = Tree"

/-- The registry of trees, which took up the sequences of them. -/
def woods : Registry :=
  match parse treeText with
  | .ok r => (outcome (resolve "[Tree]") r).2
  | .error _ => empty

theorem the_woods_read_back :
    woods.Grown ∧ woods.table.text 3 = "[<Leaf,Node:Pair>]" ∧
      ∃ r', outcome (resolve "[<Leaf,Node:Pair>]") woods = (.ok 4, r') ∧
        r'.table.Equivalent 3 4 := by
  have hgrown : woods.Grown := by
    have hok : (match parse treeText with
      | .ok r => (outcome (resolve "[Tree]") r).1.isOk
      | .error _ => false) = true := by decide +kernel
    unfold woods
    cases hparse : parse treeText with
    | error x =>
      rw [hparse] at hok
      cases hok
    | ok r =>
      rw [hparse] at hok
      rcases hrun : outcome (resolve "[Tree]") r with ⟨x | id, r'⟩
      · simp only [hrun] at hok
        cases hok
      · change (outcome (resolve "[Tree]") r).2.Grown
        rw [hrun]
        exact .resolved (.parsed hparse) hrun
  have htext : woods.table.text 3 = "[<Leaf,Node:Pair>]" := by decide +kernel
  have hread : (outcome (resolve "[<Leaf,Node:Pair>]") woods).1.toOption = some 4 := by
    decide +kernel
  refine ⟨hgrown, htext, ?_⟩
  have hback := @a_shown_type_reads_back woods hgrown 3 (by rw [htext]; decide)
  rw [htext] at hback
  rcases hback with ⟨id, r', hrun, hequivalent⟩ | ⟨x, r', hrun, -⟩
  · rw [hrun] at hread
    cases hread
    exact ⟨r', hrun, hequivalent⟩
  · rw [hrun] at hread
    cases hread

end Registry

end Typewire
