-- The laws of places. A table only grows: a shape that stands at a place stays there, and each
-- change below says which places it touches and what undoing makes of it.
import Typewire.Shape.Table

namespace Typewire.Table

variable {t : Table}

/-! ## Shapes at places -/

theorem shape?_eq_none_of_size_le {id : TypeId} (h : t.size ≤ id) : t.shape? id = none := by
  rw [shape?, Array.getElem?_eq_none h]
  rfl

theorem lt_size_of_shape? {id : TypeId} {s : Shape} (h : t.shape? id = some s) : id < t.size := by
  rcases Nat.lt_or_ge id t.size with hlt | hge
  · exact hlt
  · rw [shape?_eq_none_of_size_le hge] at h
    cases h

theorem shape?_push {t t' : Table} {o : Option Shape} (h : t'.slots = t.slots.push o)
    (id : TypeId) : t'.shape? id = if id = t.size then o else t.shape? id := by
  unfold shape? size
  rw [h, Array.getElem?_push]
  split <;> rfl

theorem shape?_congr {t t' : Table} (h : t'.slots = t.slots) (id : TypeId) :
    t'.shape? id = t.shape? id := by
  unfold shape?
  rw [h]

/-- A shape is interned where it stands, or at a new place. -/
theorem intern_cases (t : Table) (s : Shape) :
    (∃ id, t.interned.lookup s = some id ∧ t.intern s = (id, t)) ∨
      (t.interned.lookup s = none ∧
        t.intern s = (t.size, { t with
          slots := t.slots.push (some s)
          interned := (s, t.size) :: t.interned })) := by
  unfold intern
  cases h : t.interned.lookup s with
  | some id => exact Or.inl ⟨id, rfl, rfl⟩
  | none => exact Or.inr ⟨rfl, rfl⟩

theorem intern_of_lookup {s : Shape} {id : TypeId} (h : t.interned.lookup s = some id) :
    t.intern s = (id, t) := by
  unfold intern
  rw [h]

theorem size_le_intern (t : Table) (s : Shape) : t.size ≤ (t.intern s).2.size := by
  rcases intern_cases t s with ⟨id, -, h⟩ | ⟨-, h⟩
  · simp only [h, Nat.le_refl]
  · rw [h]
    simp [size]

theorem shape?_intern {id : TypeId} {s' : Shape} (s : Shape) (h : t.shape? id = some s') :
    (t.intern s).2.shape? id = some s' := by
  rcases intern_cases t s with ⟨_, -, hi⟩ | ⟨-, hi⟩
  · rw [hi]
    exact h
  · rw [hi, shape?_push rfl, if_neg (Nat.ne_of_lt (lt_size_of_shape? h)), h]

/-- The one place that may come with a shape holds it. -/
theorem shape?_intern_of_size_le (s : Shape) {id : TypeId} (hid : t.size ≤ id)
    (hlt : id < (t.intern s).2.size) : (t.intern s).2.shape? id = some s := by
  rcases intern_cases t s with ⟨_, -, hi⟩ | ⟨-, hi⟩
  · rw [hi] at hlt
    exact absurd hid (Nat.not_le_of_lt hlt)
  · rw [hi] at hlt ⊢
    have hsize : id < t.size + 1 := by simpa [size] using hlt
    rw [shape?_push rfl, if_pos (Nat.le_antisymm (Nat.le_of_lt_succ hsize) hid)]

theorem size_reserve (t : Table) : t.reserve.2.size = t.size + 1 := by
  simp [reserve, size]

theorem shape?_reserve (t : Table) (id : TypeId) : t.reserve.2.shape? id = t.shape? id := by
  rw [shape?_push rfl]
  split
  · rename_i h
    rw [h, shape?_eq_none_of_size_le (Nat.le_refl _)]
  · rfl

theorem size_fill (id : TypeId) (s : Shape) : (t.fill id s).size = t.size := by
  simp [fill, size]

theorem shape?_fill_self {id : TypeId} (s : Shape) (h : id < t.size) :
    (t.fill id s).shape? id = some s := by
  unfold shape? fill
  rw [Array.getElem?_setIfInBounds_self_of_lt h]
  rfl

theorem shape?_fill_ne {id other : TypeId} (s : Shape) (h : other ≠ id) :
    (t.fill id s).shape? other = t.shape? other := by
  unfold shape? fill
  rw [Array.getElem?_setIfInBounds_ne (Ne.symm h)]

/-! ## Looking up shapes -/

/-- A shape that is found is found at the same place after any shape is interned. -/
theorem lookup_intern {s s' : Shape} {id : TypeId} (h : t.interned.lookup s' = some id) :
    (t.intern s).2.interned.lookup s' = some id := by
  rcases intern_cases t s with ⟨_, -, hi⟩ | ⟨hnone, hi⟩
  · rw [hi]
    exact h
  · rw [hi, List.lookup_cons]
    split
    · rename_i hsame
      rw [eq_of_beq hsame, hnone] at h
      cases h
    · exact h

theorem lookup_intern_self (t : Table) (s : Shape) :
    (t.intern s).2.interned.lookup s = some (t.intern s).1 := by
  rcases intern_cases t s with ⟨id, hid, hi⟩ | ⟨-, hi⟩
  · rw [hi]
    exact hid
  · rw [hi]
    exact List.lookup_cons_self

theorem lookup_fill {s' : Shape} {found : TypeId} (id : TypeId) (s : Shape)
    (h : t.interned.lookup s' = some found) :
    (t.fill id s).interned.lookup s' = some found := by
  unfold fill
  split
  · exact h
  · rename_i hnew
    rw [List.lookup_cons]
    split
    · rename_i hsame
      rw [eq_of_beq hsame] at h
      rw [h] at hnew
      exact absurd rfl hnew
    · exact h

/-- A shape that was put at a place is found, there or where it stood before. -/
theorem lookup_interned_fill (t : Table) (id : TypeId) (s : Shape) :
    ∃ found, (t.fill id s).interned.lookup s = some found := by
  unfold fill
  split
  · rename_i hknown
    exact Option.isSome_iff_exists.mp hknown
  · exact ⟨id, List.lookup_cons_self⟩

/-! ## Labels and names -/

/-- A label is all that labelling changes. -/
theorem setLabel_cases (t : Table) (id : TypeId) (label : String) :
    t.setLabel id label = t ∨ t.setLabel id label = { t with labels := (id, label) :: t.labels } := by
  unfold setLabel
  split
  · exact Or.inl rfl
  · exact Or.inr rfl

@[simp] theorem slots_setLabel (id : TypeId) (label : String) :
    (t.setLabel id label).slots = t.slots := by
  rcases setLabel_cases t id label with h | h <;> rw [h]

@[simp] theorem size_setLabel (id : TypeId) (label : String) :
    (t.setLabel id label).size = t.size := by
  rw [size, slots_setLabel, size]

@[simp] theorem shape?_setLabel (id : TypeId) (label : String) (other : TypeId) :
    (t.setLabel id label).shape? other = t.shape? other :=
  shape?_congr (slots_setLabel id label) other

theorem interned_setLabel (id : TypeId) (label : String) :
    (t.setLabel id label).interned = t.interned := by
  rcases setLabel_cases t id label with h | h <;> rw [h]

@[simp] theorem instances_setLabel (id : TypeId) (label : String) :
    (t.setLabel id label).instances = t.instances := by
  rcases setLabel_cases t id label with h | h <;> rw [h]

theorem expressions_setLabel (id : TypeId) (label : String) :
    (t.setLabel id label).expressions = t.expressions := by
  rcases setLabel_cases t id label with h | h <;> rw [h]

theorem typeAt_congr {t t' : Table} (h : t'.positions = t.positions) : t'.typeAt = t.typeAt := by
  funext i
  rw [typeAt, h, ← typeAt]

/-- A name is bound already, or it is bound before the others; what else changes are labels. -/
theorem bindName_cases (t : Table) (name : String) (id : TypeId) :
    (t.names.lookup name = some id ∧ t.bindName name id = t) ∨
      ∃ labels shared, t.bindName name id
        = { t with labels, shared, names := (name, id) :: t.names } := by
  unfold bindName
  split
  · rename_i h
    exact Or.inl ⟨h, rfl⟩
  · right
    split
    · exact ⟨_, _, rfl⟩
    · rcases setLabel_cases t id name with h | h
      · exact ⟨t.labels, t.shared, by rw [h]⟩
      · exact ⟨(id, name) :: t.labels, t.shared, by rw [h]⟩

theorem expressions_bindName (name : String) (id : TypeId) :
    (t.bindName name id).expressions = t.expressions := by
  rcases bindName_cases t name id with ⟨-, h⟩ | ⟨labels, shared, h⟩ <;> rw [h]

@[simp] theorem slots_bindName (name : String) (id : TypeId) :
    (t.bindName name id).slots = t.slots := by
  unfold bindName
  split
  · rfl
  split
  · rfl
  · exact slots_setLabel id name

end Typewire.Table
