-- Entries in the order of their keys, each key once.
-- Keys are ordered by the code points of their characters.
namespace Typewire

/-- The entries with one more, at the place of its key. It takes the place of an entry with the
same key. -/
def insertEntry {α : Type} (key : String) (value : α) : List (String × α) → List (String × α)
  | [] => [(key, value)]
  | (k, v) :: rest =>
    if key < k then (key, value) :: (k, v) :: rest
    else if k < key then (k, v) :: insertEntry key value rest
    else (key, value) :: rest

/-- A key is looked up as it was put in last, and the other keys as before. -/
theorem lookup_insertEntry {α : Type} (key other : String) (value : α)
    (entries : List (String × α)) :
    (insertEntry key value entries).lookup other
      = if other = key then some value else entries.lookup other := by
  fun_induction insertEntry key value entries with
  | case1 => by_cases h : other = key <;> simp [List.lookup_cons, h, beq_false_of_ne]
  | case2 k v rest _ => by_cases h : other = key <;> simp [List.lookup_cons, h, beq_false_of_ne]
  | case3 k v rest _ hgt ih =>
    have hne : k ≠ key := fun h => String.lt_irrefl key (h ▸ hgt)
    by_cases h : other = k
    · simp [h, hne]
    · simp [List.lookup_cons, h, ih, beq_false_of_ne]
  | case4 k v rest hlt hgt =>
    have hk : key = k := String.le_antisymm (String.not_lt.mp hgt) (String.not_lt.mp hlt)
    by_cases h : other = k <;> simp [List.lookup_cons, h, hk, beq_false_of_ne]

/-- Entries in any order as entries in the order of their keys; of two with one key the later
counts. -/
def sortEntries {α : Type} (entries : List (String × α)) : List (String × α) :=
  entries.foldl (fun sorted e => insertEntry e.1 e.2 sorted) []

end Typewire
