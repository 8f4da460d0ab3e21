-- One form for each number. A number below 2^536 is written in the shortest of four modes, and
-- that is the one form in which it is read. Both readers accept the same forms, one of them only
-- those of numbers below 2^64.
import Typewire.Proofs.Wire.Numbers

namespace Typewire.Wire.Compact

/-! ## Modes -/

/-- The mode of the shortest form of a number: one, two or four bytes, or bytes after their
count. -/
def mode (n : Nat) : Nat :=
  if n < 2 ^ 6 then 0 else if n < 2 ^ 14 then 1 else if n < 2 ^ 30 then 2 else 3

/-- How many bytes come after the first one, as its two low bits say. -/
def bytesAfter (first : UInt8) : Nat :=
  match first.toNat % 4 with
  | 0 => 0
  | 1 => 1
  | 2 => 3
  | _ => first.toNat / 4 + 4

/-- Bytes whose first tells the mode of a number. -/
structure InMode (n : Nat) (first : UInt8) (tail : List UInt8) : Prop where
  mode : first.toNat % 4 = mode n
  length : tail.length = bytesAfter first

theorem inMode_few {m count n : Nat}
    (hm : (m = 0 ∧ count = 0) ∨ (m = 1 ∧ count = 1) ∨ (m = 2 ∧ count = 3)) (hmode : mode n = m) :
    InMode n (UInt8.ofNat (4 * n + m)) (toBytes count ((4 * n + m) / 256)) := by
  have hfirst := mode_ofNat n (show m < 4 by omega)
  refine ⟨hfirst.trans hmode.symm, ?_⟩
  rw [length_toBytes, bytesAfter, hfirst]
  rcases hm with ⟨rfl, rfl⟩ | ⟨rfl, rfl⟩ | ⟨rfl, rfl⟩ <;> rfl

theorem inMode_counted {n : Nat} (hfour : fourByteBound ≤ n) (hn : n < 256 ^ maxBytes) :
    InMode n (UInt8.ofNat (4 * ((significantBytes n).length - 4) + 3)) (significantBytes n) := by
  have hlong := four_le_length hfour
  have hshort := length_significantBytes_le hn
  have hfirst := mode_ofNat ((significantBytes n).length - 4) (show 3 < 4 by decide)
  have hnat : (UInt8.ofNat (4 * ((significantBytes n).length - 4) + 3)).toNat
      = 4 * ((significantBytes n).length - 4) + 3 := by
    rw [UInt8.toNat_ofNat']
    simp only [maxBytes] at hshort
    omega
  rw [fourByteBound_eq] at hfour
  refine ⟨?_, ?_⟩
  · rw [hfirst, mode, if_neg (by omega), if_neg (by omega), if_neg (by omega)]
  · rw [bytesAfter, hfirst]
    change (significantBytes n).length = _ / 4 + 4
    omega

/-- A form starts with the mode of its number. -/
theorem inMode_write {n : Nat} (hn : n < 256 ^ maxBytes) :
    ∃ first tail, write n = first :: tail ∧ InMode n first tail := by
  rw [write_eq]
  split
  · rename_i hone
    have hmode : mode n = 0 := if_pos hone
    exact ⟨_, _, rfl, inMode_few (by decide) hmode⟩
  split
  · rename_i hone htwo
    have hmode : mode n = 1 := (if_neg hone).trans (if_pos htwo)
    exact ⟨_, _, rfl, inMode_few (by decide) hmode⟩
  split
  · rename_i hone htwo hfour
    have hmode : mode n = 2 := (if_neg hone).trans ((if_neg htwo).trans (if_pos hfour))
    exact ⟨_, _, rfl, inMode_few (by decide) hmode⟩
  · exact ⟨_, _, rfl, inMode_counted (by omega) hn⟩

/-! ## Readers -/

theorem lt_of_decodeUpTo {longest n : Nat} (hfour : 4 ≤ longest) {bytes rest : List UInt8}
    (h : decodeUpTo longest bytes = .ok (n, rest)) : n < 256 ^ longest := by
  have hle {count : Nat} (hcount : count ≤ longest) : 256 ^ count ≤ 256 ^ longest :=
    Nat.pow_le_pow_right (by decide) hcount
  obtain ⟨b, mid, rfl, ⟨hmode, h⟩ | ⟨-, hcount, h⟩⟩ := decodeUpTo_ok h
  · obtain ⟨front, -, rfl, hcases⟩ := decodeFew_ok hmode h
    have hshort : (b :: front).length ≤ longest := by
      rw [List.length_cons]
      omega
    have hlt := Nat.lt_of_lt_of_le (ofBytes_lt (b :: front)) (hle hshort)
    exact Nat.lt_of_le_of_lt (Nat.div_le_self _ 4) hlt
  · obtain ⟨front, -, hlength, -, rfl, -⟩ := decodeCounted_ok h
    exact Nat.lt_of_lt_of_le (ofBytes_lt front) (hle (hlength ▸ hcount))

/-- A number is read from its shortest form and from no other. -/
theorem decodeUpTo_iff {longest n : Nat} (hfour : 4 ≤ longest) (hmax : longest ≤ maxBytes)
    {bytes rest : List UInt8} :
    decodeUpTo longest bytes = .ok (n, rest) ↔ n < 256 ^ longest ∧ bytes = write n ++ rest := by
  constructor
  · exact fun h => ⟨lt_of_decodeUpTo hfour h, eq_write_of_decodeUpTo h⟩
  · rintro ⟨hn, rfl⟩
    exact decodeUpTo_write rest hn hmax

theorem decode_iff {n : Nat} {bytes rest : List UInt8} :
    decode bytes = .ok (n, rest) ↔ n < 256 ^ maxBytes ∧ bytes = write n ++ rest := by
  rw [decode_eq]
  exact decodeUpTo_iff (by decide) (Nat.le_refl _)

theorem decodeLength_iff {n : Nat} {bytes rest : List UInt8} :
    decodeLength bytes = .ok (n, rest) ↔ n < 256 ^ 8 ∧ bytes = write n ++ rest := by
  rw [decodeLength_eq]
  exact decodeUpTo_iff (by decide) (by decide)

/-! ## One form for each number -/

theorem encode_ok {n : Nat} {front : List UInt8} :
    encode n = .ok front ↔ n < 256 ^ maxBytes ∧ front = write n := by
  rw [encode_eq]
  by_cases hn : n < 256 ^ maxBytes
  · simp only [hn, if_true, true_and, Except.ok.injEq, eq_comm]
  · simp only [hn, if_false, false_and, reduceCtorEq]

theorem encode_word (w : UInt64) : encode w.toNat = .ok (writeWord w) := by
  have hword : w.toNat < wordBound := w.toNat_lt
  rw [encode, if_pos hword, UInt64.ofNat_toNat]

/-- Exactly the numbers below 2^536 are written, those of 64 bits as words. Each of them is read
back from its form with any bytes after it, and from nothing else. So it has one accepted form,
in the mode that 2^6, 2^14 and 2^30 give it. Where a length is read, the same forms are accepted
of the numbers below 2^64. -/
theorem each_number_has_one_accepted_form :
    (∀ n, (∃ front, encode n = .ok front) ↔ n < 2 ^ 536) ∧
    (∀ w : UInt64, encode w.toNat = .ok (writeWord w)) ∧
    (∀ n < 2 ^ 536, ∃ front, encode n = .ok front ∧
      (∃ first tail, front = first :: tail ∧ InMode n first tail) ∧
      ∀ rest, decode (front ++ rest) = .ok (n, rest)) ∧
    (∀ n bytes rest, decode bytes = .ok (n, rest) →
      ∃ front, encode n = .ok front ∧ bytes = front ++ rest) ∧
    (∀ n bytes rest, decodeLength bytes = .ok (n, rest) ↔
      decode bytes = .ok (n, rest) ∧ n < 2 ^ 64) := by
  have hbound : (2 : Nat) ^ 536 = 256 ^ maxBytes := by
    rw [show 536 = 8 * maxBytes from rfl, Nat.pow_mul]
  have hword : (2 : Nat) ^ 64 = 256 ^ 8 := by decide
  rw [hbound, hword]
  refine ⟨fun n => ?_, encode_word, fun n hn => ?_, fun n bytes rest h => ?_,
    fun n bytes rest => ?_⟩
  · constructor
    · rintro ⟨front, hfront⟩
      exact (encode_ok.mp hfront).1
    · exact fun hn => ⟨write n, encode_of_lt hn⟩
  · exact ⟨write n, encode_of_lt hn, inMode_write hn, fun rest => decode_iff.mpr ⟨hn, rfl⟩⟩
  · obtain ⟨hn, hbytes⟩ := decode_iff.mp h
    exact ⟨write n, encode_of_lt hn, hbytes⟩
  · rw [decodeLength_iff, decode_iff]
    constructor
    · rintro ⟨hn, hbytes⟩
      exact ⟨⟨Nat.lt_trans hn (by decide), hbytes⟩, hn⟩
    · rintro ⟨⟨-, hbytes⟩, hn⟩
      exact ⟨hn, hbytes⟩

/-- The first number that is no word takes nine bytes after their count. -/
theorem a_number_of_nine_bytes_has_one_accepted_form :
    2 ^ 64 < 2 ^ 536 ∧ encode (2 ^ 64) = .ok [23, 0, 0, 0, 0, 0, 0, 0, 0, 1] ∧
      decode [23, 0, 0, 0, 0, 0, 0, 0, 0, 1, 7] = .ok (2 ^ 64, [7]) ∧
      ∀ n rest, decodeLength [23, 0, 0, 0, 0, 0, 0, 0, 0, 1, 7] ≠ .ok (n, rest) := by
  have hencode : encode (2 ^ 64) = .ok [23, 0, 0, 0, 0, 0, 0, 0, 0, 1] :=
    encode_ok.mpr ⟨by decide +kernel, by decide +kernel⟩
  obtain ⟨hbelow, -, hread, -, hlength⟩ := each_number_has_one_accepted_form
  have hlt := (hbelow (2 ^ 64)).mp ⟨_, hencode⟩
  obtain ⟨front, hfront, -, hdecode⟩ := hread (2 ^ 64) hlt
  cases hencode.symm.trans hfront
  have hseven := hdecode [7]
  refine ⟨hlt, hencode, hseven, fun n rest h => ?_⟩
  obtain ⟨hdecode', hn⟩ := (hlength n _ rest).mp h
  cases hdecode'.symm.trans hseven
  exact absurd hn (Nat.lt_irrefl _)

end Typewire.Wire.Compact
