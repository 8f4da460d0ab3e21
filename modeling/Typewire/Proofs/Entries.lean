-- The laws of entries. Those that are left out are not found, those that are kept are found as
-- before, and sorted entries hold what was put in.
import Typewire.Entries

namespace Typewire

/-! ## Looking up -/

/-- Entries that are kept are looked up as before. -/
theorem lookup_filter_of_pos {α β : Type} [BEq α] [LawfulBEq α] (keep : α → Bool) {key : α}
    {entries : List (α × β)} (h : keep key = true) :
    (entries.filter fun e => keep e.1).lookup key = entries.lookup key := by
  induction entries with
  | nil => rfl
  | cons e rest ih =>
    obtain ⟨k, v⟩ := e
    by_cases hk : key = k
    · subst hk
      simp [h]
    · by_cases hkeep : keep k = true
      · simp [hkeep, List.lookup_cons, ih]
      · simp [hkeep, List.lookup_cons, beq_false_of_ne hk, ih]

theorem lookup_filter_ne {α β : Type} [BEq α] [LawfulBEq α] {key other : α}
    {entries : List (α × β)} (h : other ≠ key) :
    (entries.filter (·.1 != key)).lookup other = entries.lookup other :=
  lookup_filter_of_pos (· != key) (by simpa using h)

theorem mem_of_lookup {α β : Type} [BEq α] [LawfulBEq α] {key : α} {value : β}
    {entries : List (α × β)} (h : entries.lookup key = some value) : (key, value) ∈ entries := by
  obtain ⟨l₁, l₂, hl, -⟩ := List.lookup_eq_some_iff.mp h
  simp [hl]

theorem lookup_filter_self {α β : Type} [BEq α] [LawfulBEq α] (key : α)
    (entries : List (α × β)) : (entries.filter (·.1 != key)).lookup key = none := by
  induction entries with
  | nil => rfl
  | cons e rest ih =>
    obtain ⟨k, v⟩ := e
    by_cases hk : k = key
    · subst hk
      simp [ih]
    · have hne : key ≠ k := fun h => hk h.symm
      simp [hk, List.lookup_cons, beq_false_of_ne hne, ih]

theorem lookup_of_mem {α : Type} {entries : List (String × α)}
    (h : (entries.map Prod.fst).Nodup) {key : String} {value : α} (he : (key, value) ∈ entries) :
    entries.lookup key = some value := by
  induction entries with
  | nil => cases he
  | cons x rest ih =>
    obtain ⟨k, v⟩ := x
    obtain ⟨hnot, hrest⟩ := List.nodup_cons.mp h
    rcases List.mem_cons.mp he with heq | hmem
    · cases heq
      simp
    · have hne : key ≠ k := by
        rintro rfl
        exact hnot (List.mem_map.mpr ⟨(key, value), hmem, rfl⟩)
      rw [List.lookup_cons, beq_false_of_ne hne]
      exact ih hrest hmem

theorem lookup_of_not_mem {α : Type} {entries : List (String × α)} {key : String}
    (h : key ∉ entries.map Prod.fst) : entries.lookup key = none := by
  induction entries with
  | nil => rfl
  | cons x rest ih =>
    obtain ⟨k, v⟩ := x
    simp only [List.map_cons, List.mem_cons, not_or] at h
    rw [List.lookup_cons, beq_false_of_ne h.1]
    exact ih h.2

/-! ## In the order of the keys -/

theorem lookup_foldl_insertEntry {α : Type} (entries sorted : List (String × α))
    (h : (entries.map Prod.fst).Nodup) (key : String) :
    (entries.foldl (fun sorted e => insertEntry e.1 e.2 sorted) sorted).lookup key
      = (entries.lookup key).or (sorted.lookup key) := by
  induction entries generalizing sorted with
  | nil => rfl
  | cons x rest ih =>
    obtain ⟨k, v⟩ := x
    obtain ⟨hnot, hrest⟩ := List.nodup_cons.mp h
    rw [List.foldl_cons, ih _ hrest, lookup_insertEntry]
    by_cases hkey : key = k
    · subst hkey
      simp [lookup_of_not_mem hnot]
    · simp [List.lookup_cons, hkey, beq_false_of_ne hkey]

/-- Entries with different keys are looked up in order as they are looked up unsorted. -/
theorem lookup_sortEntries {α : Type} {entries : List (String × α)}
    (h : (entries.map Prod.fst).Nodup) (key : String) :
    (sortEntries entries).lookup key = entries.lookup key := by
  rw [sortEntries, lookup_foldl_insertEntry entries [] h key]
  simp

theorem mem_keys_iff {α : Type} {entries : List (String × α)} {key : String} :
    key ∈ entries.map Prod.fst ↔ (entries.lookup key).isSome = true := by
  constructor
  · intro h
    cases hlookup : entries.lookup key with
    | some value => rfl
    | none =>
      obtain ⟨e, he, rfl⟩ := List.mem_map.mp h
      simpa using List.lookup_eq_none_iff.mp hlookup e he
  · intro h
    obtain ⟨value, hvalue⟩ := Option.isSome_iff_exists.mp h
    exact List.mem_map.mpr ⟨(key, value), mem_of_lookup hvalue, rfl⟩

theorem mem_keys_insertEntry {α : Type} {key other : String} {value : α}
    {entries : List (String × α)} :
    other ∈ (insertEntry key value entries).map Prod.fst
      ↔ other = key ∨ other ∈ entries.map Prod.fst := by
  rw [mem_keys_iff, mem_keys_iff, lookup_insertEntry]
  split <;> simp [*]

/-- Entries in order stay in order when one is put in. -/
theorem pairwise_insertEntry {α : Type} {key : String} {value : α} {entries : List (String × α)}
    (h : (entries.map Prod.fst).Pairwise (· < ·)) :
    ((insertEntry key value entries).map Prod.fst).Pairwise (· < ·) := by
  fun_induction insertEntry key value entries with
  | case1 => exact List.pairwise_singleton _ _
  | case2 k v rest hlt =>
    obtain ⟨hhead, -⟩ := List.pairwise_cons.mp h
    refine List.pairwise_cons.mpr ⟨?_, h⟩
    intro other hother
    rcases List.mem_cons.mp hother with rfl | hrest
    · exact hlt
    · exact String.lt_trans hlt (hhead other hrest)
  | case3 k v rest _ hgt ih =>
    obtain ⟨hhead, htail⟩ := List.pairwise_cons.mp h
    refine List.pairwise_cons.mpr ⟨?_, ih htail⟩
    intro other hother
    rcases mem_keys_insertEntry.mp hother with rfl | hrest
    · exact hgt
    · exact hhead other hrest
  | case4 k v rest hlt hgt =>
    have hk : key = k := String.le_antisymm (String.not_lt.mp hgt) (String.not_lt.mp hlt)
    rw [hk]
    exact h

/-- Sorted entries stand in the order of their keys. -/
theorem pairwise_sortEntries {α : Type} (entries : List (String × α)) :
    ((sortEntries entries).map Prod.fst).Pairwise (· < ·) := by
  suffices h : ∀ sorted : List (String × α), (sorted.map Prod.fst).Pairwise (· < ·) →
      ((entries.foldl (fun sorted e => insertEntry e.1 e.2 sorted) sorted).map Prod.fst).Pairwise
        (· < ·) from h [] .nil
  induction entries with
  | nil => exact fun sorted h => h
  | cons e rest ih => exact fun sorted h => ih _ (pairwise_insertEntry h)

theorem nodup_of_pairwise_lt {keys : List String} (h : keys.Pairwise (· < ·)) : keys.Nodup := by
  refine List.Pairwise.imp ?_ h
  rintro key other hlt rfl
  exact String.lt_irrefl key hlt

/-- Keys in order are known by which they are. -/
theorem eq_of_pairwise_lt {keys others : List String} (h : keys.Pairwise (· < ·))
    (ho : others.Pairwise (· < ·)) (hmem : ∀ key, key ∈ keys ↔ key ∈ others) : keys = others :=
  List.Perm.eq_of_pairwise (fun _ _ _ _ hlt hgt => absurd hgt (String.lt_asymm hlt)) h ho
    ((List.perm_ext_iff_of_nodup (nodup_of_pairwise_lt h) (nodup_of_pairwise_lt ho)).mpr hmem)

end Typewire
