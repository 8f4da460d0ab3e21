-- Reading is local. A value hangs on the bytes that it takes and on no byte after them, and a
-- reader that is given fewer of them says that there are too few, and nothing else.
import Typewire.Proofs.Wire.Laws
import Typewire.Registry

namespace Typewire

namespace Wire

/-! ## Local readers -/

/-- What is read from some bytes is read from the front of them: with any bytes after that front
it is read again, and with fewer than the front there are too few. -/
structure ReadFrom {α : Type} (m : Taking α) (front : List UInt8) (a : α) : Prop where
  again : ∀ rest, m (front ++ rest) = .ok (a, rest)
  cut : ∀ k < front.length, ∃ need got, m (front.take k) = .error (.bufferTooSmall need got)

/-- Whatever the reader accepts it reads from the front that it takes. -/
def Local {α : Type} (m : Taking α) : Prop :=
  ∀ bytes a rest, m bytes = .ok (a, rest) → ∃ front, bytes = front ++ rest ∧ ReadFrom m front a

variable {α β : Type} {m : Taking α}

theorem local_throw (e : CodecError) : Local (throw e : Taking α) := by
  intro bytes a rest h
  cases h

/-- The second reader goes on where the first stopped. So bytes are missing for the first, or it
has all of its own and they are missing for the second. -/
theorem ReadFrom.bind {f : α → Taking β} {front back : List UInt8} {a : α} {b : β}
    (h : ReadFrom m front a) (hf : ReadFrom (f a) back b) : ReadFrom (m >>= f) (front ++ back) b where
  again rest := by
    rw [List.append_assoc, taking_bind_eq (h.again _)]
    exact hf.again rest
  cut k hk := by
    rw [List.take_append]
    rcases Nat.lt_or_ge k front.length with hlt | hge
    · obtain ⟨need, got, hcut⟩ := h.cut k hlt
      refine ⟨need, got, ?_⟩
      rw [Nat.sub_eq_zero_of_le (Nat.le_of_lt hlt), List.take_zero, List.append_nil]
      exact taking_bind_error hcut f
    · rw [List.length_append] at hk
      obtain ⟨need, got, hcut⟩ := hf.cut (k - front.length) (by omega)
      refine ⟨need, got, ?_⟩
      rw [List.take_of_length_le hge, taking_bind_eq (h.again _)]
      exact hcut

theorem Local.bind {f : α → Taking β} (h : Local m) (hf : ∀ a, Local (f a)) : Local (m >>= f) := by
  intro bytes b rest hrun
  obtain ⟨a, mid, ha, hb⟩ := taking_bind_ok hrun
  obtain ⟨front, rfl, hfront⟩ := h _ _ _ ha
  obtain ⟨back, rfl, hback⟩ := hf a _ _ _ hb
  exact ⟨front ++ back, (List.append_assoc _ _ _).symm, hfront.bind hback⟩

/-! ## Bytes -/

theorem take_of_length_lt {count : Nat} {bytes : List UInt8} (h : bytes.length < count) :
    take count bytes = .error (.bufferTooSmall count bytes.length) := by
  have hshort : (bytes.take count).length ≠ count := by
    rw [List.length_take]
    omega
  simp only [take, List.splitAt_eq, hshort, if_false]

theorem local_take (count : Nat) : Local (take count) := by
  intro bytes front rest h
  obtain ⟨rfl, rfl⟩ := take_ok h
  refine ⟨front, rfl, take_append front, fun k hk => ⟨front.length, (front.take k).length, ?_⟩⟩
  exact take_of_length_lt (by rw [List.length_take]; omega)

theorem local_takeByte : Local takeByte := by
  intro bytes b rest h
  cases takeByte_ok h
  refine ⟨[b], rfl, fun _ => rfl, fun k hk => ⟨1, 0, ?_⟩⟩
  rw [Nat.lt_one_iff.mp hk]
  rfl

/-! ## Values -/

/-- No check comes before the bytes that it looks at: a count, a tag and a text are judged when
all of their bytes are there. -/
theorem local_readers : ReaderLaw Local where
  pure a := by
    intro bytes b rest h
    obtain ⟨rfl, rfl⟩ := taking_pure_ok h
    exact ⟨[], rfl, fun _ => rfl, fun k hk => absurd hk (Nat.not_lt_zero k)⟩
  throw _ := local_throw _
  bind := Local.bind
  takeByte := local_takeByte
  take := local_take

/-- Values are read locally, however many levels are left. -/
theorem local_decodeWithin (forms : Forms) (levels : Nat) (id : TypeId) :
    Local (decodeWithin forms levels id) := by
  refine local_readers.decodeWithin (fun _ => True) (fun i _ => ?_) levels trivial
  split
  · exact local_throw _
  · exact fun _ _ => trivial
  · trivial

/-- What is accepted at the front of some bytes is read from that front. -/
theorem decodePrefix_ok {forms : Forms} {id : TypeId} {bytes : List UInt8} {v : Value} {n : Nat}
    (h : forms.decodePrefix id bytes = .ok (v, n)) :
    n ≤ bytes.length ∧ ReadFrom (decodeWithin forms maxLevels id) (bytes.take n) v := by
  obtain ⟨⟨w, rest⟩, hrun, hpair⟩ := except_bind_ok h
  cases hpair
  obtain ⟨front, rfl, hfront⟩ := local_decodeWithin forms maxLevels id _ _ _ hrun
  have htaken : (front ++ rest).length - rest.length = front.length := by simp
  rw [htaken, List.take_left]
  exact ⟨by simp, hfront⟩

theorem decodePrefix_of_ok {forms : Forms} {id : TypeId} {front rest : List UInt8} {v : Value}
    (h : decodeWithin forms maxLevels id (front ++ rest) = .ok (v, rest)) :
    forms.decodePrefix id (front ++ rest) = .ok (v, front.length) := by
  have htaken : front.length = (front ++ rest).length - rest.length := by simp
  change decodeWithin forms maxLevels id (front ++ rest) >>= _ = _
  rw [h, htaken]
  rfl

theorem decodePrefix_of_error {forms : Forms} {id : TypeId} {bytes : List UInt8} {e : CodecError}
    (h : decodeWithin forms maxLevels id bytes = .error e) :
    forms.decodePrefix id bytes = .error e := by
  change decodeWithin forms maxLevels id bytes >>= _ = _
  rw [h]
  rfl

end Wire

namespace Registry

open Wire

/-- A value that is decoded hangs on the bytes that it takes. Whatever begins with those bytes is
decoded to the same value, and whatever ends before the last of them is too short, which is the
one error that is given. -/
theorem decoding_is_local_and_every_cut_is_noticed {r : Registry} {id : TypeId}
    {bytes : List UInt8} {v : Value} {n : Nat} (h : r.form.decodePrefix id bytes = .ok (v, n)) :
    n ≤ bytes.length ∧
      (∀ other, bytes.take n <+: other → r.form.decodePrefix id other = .ok (v, n)) ∧
      ∀ k < n, ∃ need got, r.form.decodePrefix id (bytes.take k)
        = .error (.bufferTooSmall need got) := by
  obtain ⟨hn, hread⟩ := decodePrefix_ok h
  have hlength : (bytes.take n).length = n := List.length_take_of_le hn
  refine ⟨hn, fun other hother => ?_, fun k hk => ?_⟩
  · obtain ⟨rest, rfl⟩ := hother
    rw [decodePrefix_of_ok (hread.again rest), hlength]
  · obtain ⟨need, got, hcut⟩ := hread.cut k (by rwa [hlength])
    rw [List.take_take, Nat.min_eq_left (Nat.le_of_lt hk)] at hcut
    exact ⟨need, got, decodePrefix_of_error hcut⟩

/-- Types of a 32-bit integer, of its compact form and of pairs of those. -/
def pairsRegistry : Registry :=
  { table := { slots := #[some (.primitive (.integer ⟨false, .w32⟩)), some (.compact 0),
      some (.array 1 2)] } }

theorem decoding_a_pair_is_local_and_its_cuts_are_noticed :
    pairsRegistry.form.decodePrefix 2 [4, 1, 1, 7] = .ok (.list [.integer 1, .integer 64], 3) ∧
      pairsRegistry.form.decodePrefix 2 [4, 1, 1, 3, 3]
        = .ok (.list [.integer 1, .integer 64], 3) ∧
      ∃ need got, pairsRegistry.form.decodePrefix 2 [4, 1] = .error (.bufferTooSmall need got) := by
  have hread : pairsRegistry.form.decodePrefix 2 [4, 1, 1, 7]
      = .ok (.list [.integer 1, .integer 64], 3) := rfl
  obtain ⟨-, hother, hcut⟩ := decoding_is_local_and_every_cut_is_noticed hread
  exact ⟨hread, hother [4, 1, 1, 3, 3] ⟨[3, 3], rfl⟩, hcut 2 (by decide)⟩

end Registry

end Typewire
