-- Tables of types that have values. Where every way along what values hold comes to an end, the
-- search for cycles comes to its end too. It is so from the definitions on, and with every type
-- that is taken up later.
import Typewire.Proofs.Shape.Guarded
import Typewire.Proofs.Shape.World

namespace Typewire

open Typewire.Language

namespace Table

variable {t t' : Table} {e : TypeExpr} {id : TypeId}

/-- Every way along what values hold comes to an end. -/
def Grounded (t : Table) : Prop := ∀ id, Acc (t.Holds 0) id

/-! ## Rules for all places -/

theorem Grounded.of_places (h : ∀ id < t.size, Acc (t.Holds 0) id) : t.Grounded := by
  intro id
  rcases Nat.lt_or_ge id t.size with hlt | hge
  · exact h id hlt
  · exact acc_of_size_le hge

/-- Places that keep the rules pass them together where all ways come to an end. -/
theorem Grounded.check (h : t.Grounded) (hchecked : ∀ id < t.size, t.Checked id) (hsound : t.Sound)
    (mark : Nat) : t.check mark = .ok () := by
  refine check_of_checked (fun id _ hlt => hchecked id hlt) hsound ?_
  exact checkGuarded_iff.mpr fun id _ =>
    Subrelation.accessible (fun hheld => ⟨hheld.1, Nat.zero_le _⟩) (h id)

/-! ## Types that come later -/

/-- A lower place has no more ways than before in a table that has the same lower places. -/
theorem SharesBelow.acc {bound : Nat} (h : SharesBelow bound t t') (hid : id < bound)
    (hacc : Acc (t.Holds 0) id) : Acc (t'.Holds 0) id := by
  induction hacc with
  | intro id _ ih =>
    refine Acc.intro id fun child hchild => ?_
    have hmem := hchild.1
    rw [unguarded, h.shapes id hid] at hmem
    refine ih child ⟨hmem, Nat.zero_le _⟩ ?_
    cases hs : t.shape? id with
    | none =>
      rw [hs] at hmem
      cases hmem
    | some s =>
      rw [hs] at hmem
      exact h.references id hid s hs child (Shape.references_of_unguarded hmem)

/-- All ways end where those from the mark on and those below it do. -/
theorem acc_of_mark {mark : Nat} (hbelow : ∀ id < mark, Acc (t.Holds 0) id)
    (h : Acc (t.Holds mark) id) : Acc (t.Holds 0) id := by
  induction h with
  | intro id _ ih =>
    refine Acc.intro id fun child hchild => ?_
    rcases Nat.lt_or_ge child mark with hlt | hge
    · exact hbelow child hlt
    · exact ih child ⟨hchild.1, hge⟩

/-- Whatever is accepted as a table of definitions is grounded. -/
theorem grounded_ofDefinitions {ds : List Definition} (h : Table.ofDefinitions ds = .ok t) :
    t.Grounded := by
  obtain ⟨-, -, -, -, -, -, hcheck⟩ := ofDefinitions_ok h
  obtain ⟨u, -, hguarded⟩ := except_bind_ok hcheck
  exact fun id => acc_of_checkGuarded hguarded (Nat.zero_le id)

/-- A table that holds a grounded one is grounded where all ways among the new places end. -/
theorem Grounded.of_extends (h : t.Grounded) (ht : t.ClosedWorld) (hext : t.Extends t')
    (hnew : ∀ id, t.size ≤ id → Acc (t'.Holds t.size) id) : t'.Grounded := by
  have hold : ∀ id < t.size, Acc (t'.Holds 0) id := fun id hid => (ht.sharesBelow hext).acc hid (h id)
  intro id
  rcases Nat.lt_or_ge id t.size with hlt | hge
  · exact hold id hlt
  · exact acc_of_mark hold (hnew id hge)

/-- A grounded table stays so whether a type is taken up or not. -/
theorem Grounded.extend (h : t.Grounded) (ht : t.ClosedWorld) (e : TypeExpr) :
    (t.extend e).2.Grounded := by
  refine h.of_extends ht (extends_extend ht.closed e) fun id hge => ?_
  rcases extend_cases t e with ⟨_, t', -, -, hcheck, hok⟩ | ⟨x, herr⟩
  · rw [hok]
    obtain ⟨u, -, hguarded⟩ := except_bind_ok hcheck
    exact acc_of_checkGuarded hguarded hge
  · obtain ⟨notes, -, hrollback, -⟩ := (since_resolving ht.closed e).notes
    rw [herr, hrollback]
    exact acc_of_size_le (Nat.le_trans (Nat.le_of_eq (size_noteAll t _)) hge)

/-- A tuple of known types leads to known places only. -/
theorem Grounded.tuple (h : t.Grounded) (ht : t.ClosedWorld) {members : List TypeId}
    (hmembers : ∀ id ∈ members, id < t.size) : (t.intern (.tuple members)).2.Grounded := by
  refine h.of_extends ht (.intern t _) fun id hge => Acc.intro id fun child hchild => ?_
  obtain ⟨hmem, hlate⟩ := hchild
  rcases Nat.lt_or_ge id (t.intern (.tuple members)).2.size with hlt | hout
  · rw [unguarded, shape?_intern_of_size_le _ hge hlt] at hmem
    exact absurd (hmembers child hmem) (Nat.not_lt_of_le hlate)
  · rw [unguarded, shape?_eq_none_of_size_le hout] at hmem
    cases hmem

end Table

end Typewire
