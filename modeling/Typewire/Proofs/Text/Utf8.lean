-- The laws of text as bytes. A text and its bytes give each other back, so two byte strings
-- never spell the same text.
import Typewire.Text.Utf8

namespace Typewire.Text.Utf8

theorem toList_loop (bytes : ByteArray) (i : Nat) (before : List UInt8) :
    ByteArray.toList.loop bytes i before = before.reverse ++ bytes.data.toList.drop i := by
  fun_induction ByteArray.toList.loop bytes i before with
  | case1 i before hlt ih =>
    have hdrop : bytes.data.toList.drop i
        = bytes.get! i :: bytes.data.toList.drop (i + 1) := by
      rw [List.drop_eq_getElem_cons (by simpa using hlt)]
      congr 1
      exact (getElem!_pos bytes.data i hlt).symm
    rw [ih, hdrop, List.reverse_cons, List.append_assoc, List.singleton_append]
  | case2 i before hge =>
    rw [List.drop_eq_nil_of_le (by simpa using hge), List.append_nil]

theorem toList_eq (bytes : ByteArray) : bytes.toList = bytes.data.toList := by
  rw [ByteArray.toList, toList_loop]
  simp

theorem toArray_encode (text : String) : (⟨(encode text).toArray⟩ : ByteArray) = text.toUTF8 := by
  rw [encode, toList_eq]

/-- The bytes of a text are those of its characters, one after another. -/
theorem encode_ofList (cs : List Char) :
    encode (String.ofList cs) = cs.flatMap String.utf8EncodeChar := by
  rw [encode, toList_eq, String.toUTF8, String.toByteArray_ofList, List.utf8Encode]
  simp

theorem decode_encode (text : String) : decode (encode text) = .ok text := by
  have hvalid : text.toUTF8.IsValidUTF8 := text.isValidUTF8
  have hback : String.fromUTF8? text.toUTF8 = some text := by
    unfold String.fromUTF8?
    rw [dif_pos hvalid]
    rfl
  simp only [decode, toArray_encode, hback]

theorem encode_of_decode {bytes : List UInt8} {text : String} (h : decode bytes = .ok text) :
    encode text = bytes := by
  unfold decode at h
  split at h
  · rename_i read hread
    cases h
    unfold String.fromUTF8? at hread
    split at hread
    · cases hread
      rw [encode, toList_eq]
      rfl
    · cases hread
  · cases h

end Typewire.Text.Utf8
