-- The rules that every registry keeps, however it was made and whatever was asked of it: its
-- table speaks of its own places only, and each of its shapes is sound by itself.
import Typewire.Proofs.Registry.States

namespace Typewire

namespace Table

/-! ## Tables built by hand -/

theorem Closed.place {t : Table} (h : t.Closed) (name : Option String) {id : TypeId}
    (hid : id < t.size) : (t.place name id).Closed where
  interned := h.interned
  positions i other hi := by
    simp only [Table.place, Array.getElem?_push] at hi
    split at hi
    · cases hi
      exact hid
    · exact h.positions i other hi
  names := h.names
  labels := h.labels
  shared := h.shared
  instances := h.instances
  expressions := h.expressions

theorem Closed.internChecked {t t' : Table} {s : Shape} {id : TypeId} (ht : t.Closed)
    (h : t.internChecked s = .ok (id, t')) : t'.Closed ∧ id < t'.size := by
  obtain ⟨u, -, h⟩ := except_bind_ok h
  have hc := ht.intern s
  rwa [show t.intern s = (id, t') from Except.ok.inj h] at hc

/-- A table speaks of its own places only at every step of building it by hand. -/
theorem Drafted.closed {t : Table} (h : t.Drafted) : t.Closed := by
  induction h with
  | empty => exact .empty
  | interned _ hs ih => exact (ih.internChecked hs).1
  | added _ hs ih =>
    obtain ⟨⟨id, t'⟩, hin, hs⟩ := except_bind_ok hs
    obtain ⟨hc, hid⟩ := ih.internChecked hin
    cases hs
    exact hc.place none hid
  | named _ hs ih =>
    unfold addNamed at hs
    split at hs
    · cases hs
    · obtain ⟨⟨id, t'⟩, hin, hs⟩ := except_bind_ok hs
      obtain ⟨hc, hid⟩ := ih.internChecked hin
      cases hs
      exact (hc.place (some _) hid).bindName _ hid
  | @reserved t t' name id _ hs ih =>
    unfold addReserved at hs
    cases hname : t.nameProblem? name with
    | some x =>
      simp only [hname] at hs
      cases hs
    | none =>
      simp only [hname] at hs
      cases hs
      have hid : t.size < t.reserve.2.size := by
        rw [size_reserve]
        exact Nat.lt_succ_self _
      exact (ih.reserve.place (some name) hid).bindName name hid
  | defined _ hs ih =>
    unfold define at hs
    split at hs
    · cases hs
    · rename_i hplace
      obtain ⟨u, -, hs⟩ := except_bind_ok hs
      cases hs
      simp only [Bool.or_eq_true, Bool.not_eq_true', not_or] at hplace
      exact ih.fill _ (by simpa [contains] using hplace.1)

/-- What the empty table has, and each change keeps that is made by hand, every such table has. -/
theorem Drafted.keeps {P : Table → Prop} (hempty : P {}) (hintern : ∀ t s, P t → P (t.intern s).2)
    (hreserve : ∀ t, P t → P t.reserve.2) (hplace : ∀ t name id, P t → P (t.place name id))
    (hname : ∀ t name id, P t → P (t.bindName name id))
    (hfill : ∀ t id s, id < t.size → t.shape? id = none → P t → P (t.fill id s)) {t : Table}
    (h : t.Drafted) : P t := by
  have hchecked {t t' : Table} {s : Shape} {id : TypeId} (ht : P t)
      (hs : t.internChecked s = .ok (id, t')) : P t' := by
    obtain ⟨u, -, hs⟩ := except_bind_ok hs
    have hinterned := hintern t s ht
    rwa [show t.intern s = (id, t') from Except.ok.inj hs] at hinterned
  induction h with
  | empty => exact hempty
  | interned _ hs ih => exact hchecked ih hs
  | added _ hs ih =>
    obtain ⟨⟨id, t'⟩, hin, hs⟩ := except_bind_ok hs
    cases hs
    exact hplace _ none _ (hchecked ih hin)
  | named _ hs ih =>
    unfold addNamed at hs
    split at hs
    · cases hs
    · obtain ⟨⟨id, t'⟩, hin, hs⟩ := except_bind_ok hs
      cases hs
      exact hname _ _ _ (hplace _ _ _ (hchecked ih hin))
  | @reserved t _ name _ _ hs ih =>
    unfold addReserved at hs
    cases hproblem : t.nameProblem? name with
    | some x =>
      simp only [hproblem] at hs
      cases hs
    | none =>
      simp only [hproblem] at hs
      cases hs
      exact hname _ _ _ (hplace _ _ _ (hreserve t ih))
  | defined _ hs ih =>
    unfold define at hs
    split at hs
    · cases hs
    · rename_i hfree
      obtain ⟨u, -, hs⟩ := except_bind_ok hs
      cases hs
      simp only [Bool.or_eq_true, Bool.not_eq_true', not_or, Bool.not_eq_true,
        Option.isSome_eq_false_iff, Option.isNone_iff_eq_none] at hfree
      exact hfill _ _ _ (by simpa [contains] using hfree.1) hfree.2 ih

theorem build_ok {t t' : Table} (h : t.build = .ok t') : t' = t ∧ t.check 0 = .ok () := by
  obtain ⟨u, hcheck, h⟩ := except_bind_ok h
  cases h
  exact ⟨rfl, hcheck⟩

/-! ## Steps -/

theorem Closed.step {t t' : Table} (h : t.Closed) (hstep : t.Step t') : t'.Closed := by
  cases hstep with
  | same => exact h
  | extended e => exact (closed_extend h e).1
  | @remembered text _ _ _ _ hid =>
    obtain ⟨hc, hplace⟩ := closed_extend h _
    exact hc.withExpression (hplace _ hid)
  | tuple => exact (h.intern _).1

theorem Sound.step {t t' : Table} (h : t.Sound) (hc : t.Closed) (hstep : t.Step t') :
    t'.Sound := by
  cases hstep with
  | same => exact h
  | extended e => exact sound_extend hc h e
  | remembered => exact sound_extend hc h _
  | tuple => exact h.intern rfl

end Table

namespace Registry

variable {r : Registry}

/-! ## Registries -/

theorem ofDefinitions_ok {ds : List Language.Definition} (h : ofDefinitions ds = .ok r) :
    Table.ofDefinitions ds = .ok r.table := by
  obtain ⟨t, ht, h⟩ := except_bind_ok h
  cases h
  exact ht

/-- A text is read as definitions, and those make the registry. -/
theorem ofDefinitions_of_parse {text : String} (h : parse text = .ok r) :
    ∃ ds, Language.parseDefinitions text = .ok ds ∧ ofDefinitions ds = .ok r := by
  unfold parse at h
  split at h
  · cases h
  · rename_i ds hds
    refine ⟨ds, hds, ?_⟩
    cases hr : ofDefinitions ds with
    | error x =>
      rw [hr] at h
      cases h
    | ok r' =>
      rw [hr] at h
      cases h
      rfl

theorem parse_ok {text : String} (h : parse text = .ok r) :
    ∃ ds, Language.parseDefinitions text = .ok ds ∧ Table.ofDefinitions ds = .ok r.table := by
  obtain ⟨ds, hds, hr⟩ := ofDefinitions_of_parse h
  exact ⟨ds, hds, ofDefinitions_ok hr⟩

/-- A registry is made of definitions or by hand. -/
theorem Made.table_cases (h : r.Made) :
    (∃ ds, Table.ofDefinitions ds = .ok r.table) ∨
      (r.table.Drafted ∧ r.table.check 0 = .ok ()) := by
  cases h with
  | parsed h =>
    obtain ⟨ds, -, ht⟩ := parse_ok h
    exact Or.inl ⟨ds, ht⟩
  | defined h => exact Or.inl ⟨_, ofDefinitions_ok h⟩
  | built hdraft h =>
    obtain ⟨rfl, hcheck⟩ := Table.build_ok h
    exact Or.inr ⟨hdraft, hcheck⟩
  | empty => exact Or.inr ⟨.empty, rfl⟩

theorem Made.closed (h : r.Made) : r.table.Closed := by
  rcases h.table_cases with ⟨ds, ht⟩ | ⟨hdraft, -⟩
  · exact closed_ofDefinitions ht
  · exact hdraft.closed

theorem Made.sound (h : r.Made) : r.table.Sound := by
  rcases h.table_cases with ⟨ds, ht⟩ | ⟨-, hcheck⟩
  · exact sound_ofDefinitions ht
  · exact Table.sound_of_check hcheck fun id s hid => absurd hid (Nat.not_lt_zero id)

/-- Every registry speaks of its own places only, and its shapes are sound by themselves. -/
theorem Reachable.closed_and_sound (h : r.Reachable) : r.table.Closed ∧ r.table.Sound :=
  h.table_induction (P := fun t => t.Closed ∧ t.Sound) (fun _ hm => ⟨hm.closed, hm.sound⟩)
    fun _ _ ht hstep => ⟨ht.1.step hstep, ht.2.step ht.1 hstep⟩

end Registry

end Typewire
