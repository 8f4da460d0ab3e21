-- Integers of a fixed width. However an integer is given, it is written in two's complement if it
-- is one of the type, and not at all if it is not; what was written is read as that integer.
import Typewire.Proofs.Wire.Numbers

namespace Typewire

/-! ## Integers of a type -/

/-- The integer is one that the bits of the type can be. -/
def IntKind.Spans (k : IntKind) (n : Int) : Prop :=
  if k.isSigned then -(2 ^ (k.width.bits - 1)) ≤ n ∧ n < 2 ^ (k.width.bits - 1)
  else 0 ≤ n ∧ n < 2 ^ k.width.bits

/-- All integers of the type are signed 64-bit integers. -/
def IntKind.FitsWord (k : IntKind) : Prop := ∀ n, k.Spans n → -(2 ^ 63) ≤ n ∧ n < 2 ^ 63

namespace Wire

theorem holds_iff_spans {k : IntKind} {n : Int} : k.holds n = true ↔ k.Spans n := by
  rw [holds_iff, least_eq, bound_eq, IntKind.Spans]
  split <;> exact Iff.rfl

theorem fitsNative_iff {k : IntKind} : k.fitsNative = true ↔ k.FitsWord := by
  constructor
  · exact fun hk n hn => fitsNative_bounds hk (holds_iff_spans.mpr hn)
  · intro h
    cases hk : k.fitsNative with
    | true => rfl
    | false =>
      -- The first integer above the signed 64-bit ones is in every type that is no native one.
      have hspans : k.Spans (2 ^ 63) := by
        obtain ⟨s, w⟩ := k
        rw [← holds_iff_spans]
        cases w <;> cases s <;> first | rfl | cases hk
      exact absurd (h _ hspans).2 (Int.lt_irrefl _)

/-! ## Integers in values -/

/-- Decimal digits, perhaps after a minus sign, and an `n` after them write an integer. -/
inductive Spells (n : Int) : List Char → Prop where
  | plain {ds : List Char} (some : ds ≠ []) (digits : ∀ c ∈ ds, c.isDigit = true)
      (value : n = (Nat.ofDigitChars 10 ds 0 : Nat)) : Spells n (ds ++ ['n'])
  | minus {ds : List Char} (some : ds ≠ []) (digits : ∀ c ∈ ds, c.isDigit = true)
      (value : n = -(Nat.ofDigitChars 10 ds 0 : Nat)) : Spells n ('-' :: (ds ++ ['n']))

/-- The ways to give an integer: in 64 bits if it fits, at any size, or as decimal text. -/
inductive Gives (n : Int) : Value → Prop where
  | native {m : Int64} (h : m.toInt = n) : Gives n (.integer m)
  | wide : Gives n (.bigInteger n)
  | text {s : String} (h : Spells n s.toList) : Gives n (.text s)

theorem digits?_iff {cs : List Char} {m : Nat} :
    suffixedInt?.digits? cs = some m ↔ ∃ ds, cs = ds ++ ['n'] ∧ ds ≠ [] ∧
      (∀ c ∈ ds, c.isDigit = true) ∧ m = Nat.ofDigitChars 10 ds 0 := by
  have hvalue (ds : List Char) : ds.foldr (fun c n => 10 * n + (c.toNat - '0'.toNat)) 0
      = Nat.ofDigitChars 10 ds.reverse 0 := by
    rw [Nat.ofDigitChars, List.foldl_reverse]
  unfold suffixedInt?.digits?
  constructor
  · intro h
    split at h
    · rename_i d ds hreverse
      split at h
      · rename_i hdigits
        cases h
        refine ⟨(d :: ds).reverse, ?_, by simp, fun c hc => ?_, hvalue _⟩
        · rw [← List.reverse_cons, ← hreverse, List.reverse_reverse]
        · exact List.all_eq_true.mp hdigits c (List.mem_reverse.mp hc)
      · cases h
    · cases h
  · rintro ⟨ds, rfl, hsome, hdigits, rfl⟩
    rw [List.reverse_append]
    cases hreverse : ds.reverse with
    | nil => exact absurd (List.reverse_eq_nil_iff.mp hreverse) hsome
    | cons d rest =>
      have hall : (d :: rest).all Char.isDigit = true := by
        rw [← hreverse, List.all_eq_true]
        exact fun c hc => hdigits c (List.mem_reverse.mp hc)
      change (if (d :: rest).all Char.isDigit = true then _ else _) = _
      rw [if_pos hall, hvalue, ← hreverse, List.reverse_reverse]

theorem suffixedInt?_iff {cs : List Char} {n : Int} : suffixedInt? cs = some n ↔ Spells n cs := by
  constructor
  · intro h
    unfold suffixedInt? at h
    split at h
    · rename_i cs
      cases hm : suffixedInt?.digits? cs with
      | none => simp [hm] at h
      | some m =>
        obtain ⟨ds, rfl, hsome, hdigits, rfl⟩ := digits?_iff.mp hm
        exact .minus hsome hdigits (by simpa [hm, eq_comm] using h)
    · cases hm : suffixedInt?.digits? cs with
      | none => simp [hm] at h
      | some m =>
        obtain ⟨ds, rfl, hsome, hdigits, rfl⟩ := digits?_iff.mp hm
        exact .plain hsome hdigits (by simpa [hm, eq_comm] using h)
  · intro h
    unfold suffixedInt?
    cases h with
    | @plain ds hsome hdigits hvalue =>
      have hm := digits?_iff.mpr ⟨ds, rfl, hsome, hdigits, rfl⟩
      split
      · rename_i hcs
        cases ds with
        | nil => exact absurd rfl hsome
        | cons d rest =>
          cases hcs
          cases hdigits '-' List.mem_cons_self
      · simp [hm, hvalue]
    | @minus ds hsome hdigits hvalue =>
      have hm := digits?_iff.mpr ⟨ds, rfl, hsome, hdigits, rfl⟩
      simp [hm, hvalue]

/-- Where an integer is wanted, a value stands for the integer that it gives. -/
theorem intOf_iff {k : IntKind} {v : Value} {n : Int} : intOf v k = .ok n ↔ Gives n v := by
  constructor
  · intro h
    cases v with
    | text s =>
      refine .text (suffixedInt?_iff.mp ?_)
      simp only [intOf] at h
      split at h
      · rename_i hm
        rw [hm, Except.ok.inj h]
      · cases h
    | integer m => exact .native (Except.ok.inj h)
    | bigInteger m =>
      cases h
      exact .wide
    | _ => cases h
  · intro h
    cases h with
    | native h => exact congrArg Except.ok h
    | wide => rfl
    | text h => simp only [intOf, suffixedInt?_iff.mpr h]

/-! ## Written and read -/

/-- An integer is written in the same bytes however it is given, if it is one of the type. -/
theorem writeInt_of_gives {k : IntKind} {v : Value} {n : Int} (h : Gives n v) :
    writeInt k v = if k.holds n then .ok (intBytes k n)
      else .error (.integerOutOfRange (toString n) k.name) := by
  rw [writeInt_eq, intWithin, intOf_iff.mpr h]
  by_cases hk : k.holds n = true
  · simp only [bind, Except.bind, if_pos hk]
    rfl
  · simp only [bind, Except.bind, if_neg hk]
    rfl

theorem ofBytes_intBytes (k : IntKind) (n : Int) :
    (ofBytes (intBytes k n) : Int) = n % 2 ^ k.width.bits := by
  have hpos : (0 : Int) < 2 ^ k.width.bits := Int.pow_pos (by decide)
  have hnonneg := Int.emod_nonneg n (Int.ne_of_gt hpos)
  have hlt : (n % 2 ^ k.width.bits).toNat < 256 ^ k.width.bytes := by
    rw [pow_bytes, Int.toNat_lt hnonneg]
    exact_mod_cast Int.emod_lt_of_pos n hpos
  rw [intBytes_eq, ofBytes_toBytes, Nat.mod_eq_of_lt hlt, Int.toNat_of_nonneg hnonneg]

/-- An integer is written exactly if it is one of the type. Its bytes, the lowest first, are its
remainder by 2 to the bits of the type, in whichever way it is given, and they are read as it:
in 64 bits if all integers of the type fit there, and else at any size. All bytes of the right
number are read, and what they are read as is written as they are. -/
theorem an_integer_is_written_exactly_and_read_back (k : IntKind) :
    (∀ n v, Gives n v → ((∃ bytes, writeInt k v = .ok bytes) ↔ k.Spans n)) ∧
    (∀ n, k.Spans n → ∃ bytes, 8 * bytes.length = k.width.bits ∧
      (ofBytes bytes : Int) = n % 2 ^ k.width.bits ∧
      (∀ v, Gives n v → writeInt k v = .ok bytes) ∧
      (k.FitsWord → ∃ m : Int64, m.toInt = n ∧ readInt k bytes = .integer m) ∧
      (¬ k.FitsWord → readInt k bytes = .bigInteger n)) ∧
    (∀ bytes, 8 * bytes.length = k.width.bits → writeInt k (readInt k bytes) = .ok bytes) := by
  refine ⟨fun n v h => ?_, fun n hn => ?_, fun bytes hbytes => ?_⟩
  · rw [writeInt_of_gives h, ← holds_iff_spans]
    split <;> simp_all
  · have hholds := holds_iff_spans.mpr hn
    have hread : readInt k (intBytes k n) = valueOf k n := by
      rw [readInt_eq (length_intBytes k n), intOfBytes_intBytes hholds]
    refine ⟨intBytes k n, by rw [length_intBytes, Width.bits], ofBytes_intBytes k n,
      fun v h => ?_, fun hk => ?_, fun hk => ?_⟩
    · rw [writeInt_of_gives h, if_pos hholds]
    · obtain ⟨hlow, hhigh⟩ := hk n hn
      refine ⟨.ofInt n, Int64.toInt_ofInt_of_le hlow hhigh, ?_⟩
      rw [hread, valueOf, if_pos (fitsNative_iff.mpr hk)]
    · rw [hread, valueOf, if_neg (mt fitsNative_iff.mp hk)]
  · have hlength : bytes.length = k.width.bytes := by
      rw [Width.bits] at hbytes
      omega
    have hholds := holds_intOfBytes hlength
    rw [readInt_eq hlength, writeInt_of_gives (intOf_iff.mp (intOf_valueOf hholds)), if_pos hholds,
      intBytes_intOfBytes hlength]

/-- The least integer of 128 bits, given as text, is written and read back at any size. -/
theorem the_least_integer_of_128_bits_is_written_exactly :
    Gives (-(2 ^ 127)) (.text "-170141183460469231731687303715884105728n") ∧
      IntKind.Spans ⟨true, .w128⟩ (-(2 ^ 127)) ∧ ¬ IntKind.FitsWord ⟨true, .w128⟩ ∧
      ∃ bytes, 8 * bytes.length = 128 ∧
        writeInt ⟨true, .w128⟩ (.text "-170141183460469231731687303715884105728n") = .ok bytes ∧
        readInt ⟨true, .w128⟩ bytes = .bigInteger (-(2 ^ 127)) ∧
        writeInt ⟨true, .w128⟩ (readInt ⟨true, .w128⟩ bytes) = .ok bytes := by
  have hgives : Gives (-(2 ^ 127)) (.text "-170141183460469231731687303715884105728n") :=
    .text (suffixedInt?_iff.mp (by decide +kernel))
  have hspans : IntKind.Spans ⟨true, .w128⟩ (-(2 ^ 127)) := holds_iff_spans.mp (by decide +kernel)
  have hwide : ¬ IntKind.FitsWord ⟨true, .w128⟩ := mt fitsNative_iff.mpr (by decide)
  obtain ⟨-, hwrite, hback⟩ := an_integer_is_written_exactly_and_read_back ⟨true, .w128⟩
  obtain ⟨bytes, hlength, -, hwritten, -, hread⟩ := hwrite _ hspans
  exact ⟨hgives, hspans, hwide, bytes, hlength, hwritten _ hgives, hread hwide,
    hback bytes hlength⟩

end Wire

end Typewire
