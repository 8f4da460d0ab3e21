-- The laws of hexadecimal digits. Bytes that are written as digits are read back as they were.
import Typewire.Proofs.Text.Utf8
import Typewire.Text.Hex

namespace Typewire.Text.Hex

/-- A digit is one byte of text, and it is read as the number that it was written for. -/
theorem utf8_digit {n : Nat} (h : n < 16) :
    ∃ b, String.utf8EncodeChar (digit n) = [b] ∧ value? b = some n := by
  have hsize : ∀ n < 16, (digit n).utf8Size = 1 := by decide
  have hvalue : ∀ n < 16, value? (digit n).val.toUInt8 = some n := by decide
  exact ⟨_, String.utf8EncodeChar_eq_singleton (hsize n h), hvalue n h⟩

/-- A byte is two bytes of text, the halves of its number. -/
theorem utf8_ofByte (b : UInt8) :
    ∃ high low, (ofByte b).flatMap String.utf8EncodeChar = [high, low] ∧
      value? high = some (b.toNat / 16) ∧ value? low = some (b.toNat % 16) := by
  have hlt := b.toNat_lt
  obtain ⟨high, hhigh, hhighValue⟩ := utf8_digit (n := b.toNat / 16) (by omega)
  obtain ⟨low, hlow, hlowValue⟩ := utf8_digit (n := b.toNat % 16) (by omega)
  refine ⟨high, low, ?_, hhighValue, hlowValue⟩
  simp only [ofByte, List.flatMap_cons, List.flatMap_nil, hhigh, hlow, List.append_nil,
    List.singleton_append]

theorem decodeFrom_encode (bytes : List UInt8) (index : Nat) :
    decodeFrom index ((bytes.flatMap ofByte).flatMap String.utf8EncodeChar) = .ok bytes := by
  induction bytes generalizing index with
  | nil => rfl
  | cons b bytes ih =>
    obtain ⟨high, low, htext, hhigh, hlow⟩ := utf8_ofByte b
    rw [List.flatMap_cons, List.flatMap_append, htext]
    simp only [List.cons_append, List.nil_append, decodeFrom, hhigh, hlow, ih, Except.map]
    rw [Nat.mul_comm, Nat.div_add_mod, UInt8.ofNat_toNat]

theorem length_encode (bytes : List UInt8) :
    ((bytes.flatMap ofByte).flatMap String.utf8EncodeChar).length = 2 * bytes.length := by
  induction bytes with
  | nil => rfl
  | cons b bytes ih =>
    obtain ⟨high, low, htext, -, -⟩ := utf8_ofByte b
    rw [List.flatMap_cons, List.flatMap_append, htext, List.length_append, ih, List.length_cons]
    simp only [List.length_cons, List.length_nil]
    omega

/-- Bytes that are written as digits are read back. -/
theorem decode_encode (bytes : List UInt8) : decode (Utf8.encode (encode bytes)) = .ok bytes := by
  rw [encode, Utf8.encode_ofList, decode, length_encode, if_pos (Nat.mul_mod_right 2 _),
    decodeFrom_encode]

end Typewire.Text.Hex
