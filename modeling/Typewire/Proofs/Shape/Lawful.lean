-- What the rules for all places decide. They accept exactly the tables that are complete, name
-- their own places only and hold no cycle; and where the first places keep the rules among
-- themselves, the rules for the places after them say the same of the whole table.
import Mathlib.Data.Fintype.EquivFin
import Typewire.Proofs.Shape.Grounded

namespace Typewire

/-- Of finitely many places each has an end below it, where none is below itself. -/
theorem acc_of_acyclic {r : TypeId → TypeId → Prop} {size : Nat}
    (hin : ∀ child id, r child id → child < size) (h : ∀ id, ¬ Relation.TransGen r id id)
    (id : TypeId) : Acc r id := by
  let below (a b : Fin size) : Prop := Relation.TransGen r a b
  have : IsTrans (Fin size) below := ⟨fun _ _ _ hab hbc => hab.trans hbc⟩
  have : Std.Irrefl below := ⟨fun a ha => h _ ha⟩
  have hwf : WellFounded below := Finite.wellFounded_of_trans_of_irrefl below
  have hall : ∀ a : Fin size, Acc r a := by
    intro a
    induction a using hwf.induction with
    | _ a ih => exact Acc.intro _ fun child hchild => ih ⟨child, hin _ _ hchild⟩ (.single hchild)
  exact Acc.intro _ fun child hchild => hall ⟨child, hin _ _ hchild⟩

namespace Table

/-- Every value at the second place holds a value at the first. -/
def Inside (t : Table) (child id : TypeId) : Prop := child ∈ t.unguarded id

/-- The places below a bound keep the rules: they have shapes, each sound by itself, which name
places of the table; compact forms stand around unsigned integers; and no place is inside
itself. -/
structure Lawful (t : Table) (bound : Nat) : Prop where
  filled : ∀ id < bound, id < t.size → ∃ s, t.shape? id = some s
  sound : ∀ id < bound, ∀ s, t.shape? id = some s → s.check = .ok ()
  references : ∀ id < bound, ∀ s, t.shape? id = some s → ∀ child ∈ s.references, child < t.size
  unsigned : ∀ id < bound, ∀ inner, t.shape? id = some (.compact inner) →
    ∃ width, t.shape? inner = some (.primitive (.integer ⟨false, width⟩))
  acyclic : ∀ id < bound, ¬ Relation.TransGen t.Inside id id

variable {t : Table} {mark : Nat} {id : TypeId}

theorem isUnsigned_of_shape? {width : Width}
    (h : t.shape? id = some (.primitive (.integer ⟨false, width⟩))) : t.isUnsigned id = true := by
  rw [isUnsigned, h]
  rfl

theorem exists_shape?_of_inside {child : TypeId} (h : t.Inside child id) :
    ∃ s, t.shape? id = some s ∧ child ∈ s.references := by
  cases hs : t.shape? id with
  | none =>
    rw [Inside, unguarded, hs] at h
    cases h
  | some s =>
    rw [Inside, unguarded, hs] at h
    exact ⟨s, rfl, Shape.references_of_unguarded h⟩

namespace Lawful

theorem checked (h : t.Lawful mark) (hmark : id < mark) (hid : id < t.size) : t.Checked id where
  filled := h.filled id hmark hid
  references := h.references id hmark
  unsigned inner hs := by
    obtain ⟨width, hwidth⟩ := h.unsigned id hmark inner hs
    exact isUnsigned_of_shape? hwidth

/-- Lawful places that name places below the bound only have an end below them. -/
theorem acc (h : t.Lawful mark)
    (hbelow : ∀ id < mark, ∀ s, t.shape? id = some s → ∀ child ∈ s.references, child < mark)
    (hid : id < mark) : Acc (t.Holds 0) id := by
  let held (child id : TypeId) : Prop := id < mark ∧ t.Inside child id
  have hin : ∀ child id, held child id → child < t.size := by
    rintro child id ⟨hid, hinside⟩
    obtain ⟨s, hs, hchild⟩ := exists_shape?_of_inside hinside
    exact h.references id hid s hs child hchild
  have hacyclic : ∀ id, ¬ Relation.TransGen held id id := by
    intro id hcycle
    obtain ⟨_, -, hid, -⟩ := Relation.TransGen.tail'_iff.mp hcycle
    have hle : held ≤ t.Inside := fun _ _ hheld => hheld.2
    exact h.acyclic id hid (Relation.TransGen.mono hle _ _ hcycle)
  have hacc := acc_of_acyclic hin hacyclic id
  induction hacc with
  | intro id _ ih =>
    refine Acc.intro id fun child hchild => ?_
    obtain ⟨s, hs, hmem⟩ := exists_shape?_of_inside hchild.1
    exact ih child ⟨hid, hchild.1⟩ (hbelow id hid s hs child hmem)

theorem sound_all (h : t.Lawful t.size) : t.Sound :=
  fun id s hs => h.sound id (lt_size_of_shape? hs) s hs

theorem grounded (h : t.Lawful t.size) : t.Grounded :=
  .of_places fun _ hid => h.acc h.references hid

/-- A lawful table passes the rules from any mark on. -/
theorem check (h : t.Lawful t.size) (mark : Nat) : t.check mark = .ok () :=
  h.grounded.check (fun _ hid => h.checked hid hid) h.sound_all mark

end Lawful

/-- What passes the rules is lawful. -/
theorem lawful_of_check (h : t.check 0 = .ok ()) : t.Lawful t.size where
  filled id hid _ := (checked_of_check h (Nat.zero_le id) hid).filled
  sound id _ := sound_of_check h (fun id s hid => absurd hid (Nat.not_lt_zero id)) id
  references id hid := (checked_of_check h (Nat.zero_le id) hid).references
  unsigned id hid inner hs :=
    shape?_of_isUnsigned ((checked_of_check h (Nat.zero_le id) hid).unsigned inner hs)
  acyclic id _ hcycle := by
    obtain ⟨u, -, hguarded⟩ := except_bind_ok h
    have hle : t.Inside ≤ t.Holds 0 := fun child _ hinside => ⟨hinside, Nat.zero_le child⟩
    exact not_transGen_of_acc (acc_of_checkGuarded hguarded (Nat.zero_le id))
      (Relation.TransGen.mono hle _ _ hcycle)

/-- What passes the rules from a mark on passes them from the start, where the places below the
mark are lawful and name no place from the mark on. A way down from the mark on ends there, or it
comes below the mark and ends there. -/
theorem check_of_mark (h : t.Lawful mark)
    (hbelow : ∀ id < mark, ∀ s, t.shape? id = some s → ∀ child ∈ s.references, child < mark)
    (hcheck : t.check mark = .ok ()) : t.check 0 = .ok () := by
  have hold : ∀ id < mark, Acc (t.Holds 0) id := fun id hid => h.acc hbelow hid
  obtain ⟨u, -, hguarded⟩ := except_bind_ok hcheck
  have hgrounded : t.Grounded := by
    intro id
    rcases Nat.lt_or_ge id mark with hlt | hge
    · exact hold id hlt
    · exact acc_of_mark hold (acc_of_checkGuarded hguarded hge)
  refine hgrounded.check (fun id hid => ?_) (sound_of_check hcheck fun id s hid => h.sound id hid s) 0
  rcases Nat.lt_or_ge id mark with hlt | hge
  · exact h.checked hlt hid
  · exact checked_of_check hcheck hge hid

/-- The rules for all places accept exactly the lawful tables. From a mark on they say the same,
where the places below the mark are lawful and name none from the mark on. -/
theorem the_rules_decide_which_tables_are_lawful (t : Table) :
    (t.check 0 = .ok () ↔ t.Lawful t.size) ∧
    ∀ mark, t.Lawful mark →
      (∀ id < mark, ∀ s, t.shape? id = some s → ∀ child ∈ s.references, child < mark) →
      (t.check mark = .ok () ↔ t.check 0 = .ok ()) := by
  refine ⟨⟨lawful_of_check, fun h => h.check 0⟩, fun mark h hbelow => ?_⟩
  exact ⟨check_of_mark h hbelow, fun hcheck => (lawful_of_check hcheck).check mark⟩

example : (({ slots := #[some (.sequence 1), some (.tuple [0, 2]), some (.tuple [1])] } : Table).check
    0).isOk = false := by rfl

/-! ## A byte, four of them, and a pair of those -/

/-- A byte, an array of four bytes, and a pair of such arrays. -/
def rowPair : Table where
  slots := #[some (.primitive (.integer ⟨false, .w8⟩)), some (.array 0 4), some (.tuple [1, 1])]

/-- Places of a lawful table that come before a bound are lawful. -/
theorem Lawful.mono (h : t.Lawful mark) {bound : Nat} (hle : bound ≤ mark) : t.Lawful bound where
  filled id hid := h.filled id (Nat.lt_of_lt_of_le hid hle)
  sound id hid := h.sound id (Nat.lt_of_lt_of_le hid hle)
  references id hid := h.references id (Nat.lt_of_lt_of_le hid hle)
  unsigned id hid := h.unsigned id (Nat.lt_of_lt_of_le hid hle)
  acyclic id hid := h.acyclic id (Nat.lt_of_lt_of_le hid hle)

/-- The pair alone passes where the whole table does: the places before it are lawful and do not
name it. -/
theorem the_rules_for_a_pair_are_those_for_its_table :
    rowPair.Lawful 2 ∧
      (∀ id < 2, ∀ s, rowPair.shape? id = some s → ∀ child ∈ s.references, child < 2) ∧
      (rowPair.check 2 = .ok () ↔ rowPair.check 0 = .ok ()) := by
  have hlawful : rowPair.Lawful 2 :=
    ((the_rules_decide_which_tables_are_lawful rowPair).1.mp (by rfl)).mono (by decide)
  have hbelow : ∀ id < 2, ∀ s, rowPair.shape? id = some s → ∀ child ∈ s.references, child < 2 := by
    intro id hid s hs child hchild
    match id, hid with
    | 0, _ =>
      cases hs
      cases hchild
    | 1, _ =>
      cases hs
      cases List.mem_singleton.mp hchild
      decide
  exact ⟨hlawful, hbelow, (the_rules_decide_which_tables_are_lawful rowPair).2 2 hlawful hbelow⟩

end Table

end Typewire
