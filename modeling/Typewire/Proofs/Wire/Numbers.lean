-- The laws of numbers on the wire. A number and its bytes give each other back, so each
-- writer below has one reader and each reader accepts what one writer writes.
import Mathlib.Algebra.Group.Int.Defs
import Mathlib.Algebra.Group.Nat.Defs
import Typewire.Wire.Compact
import Typewire.Wire.Integer

namespace Typewire.Wire

/-! ## Taking -/

theorem take_append (front rest : List UInt8) :
    take front.length (front ++ rest) = .ok (front, rest) := by
  simp [take, List.splitAt_eq]

theorem take_ok {count : Nat} {bytes front rest : List UInt8}
    (h : take count bytes = .ok (front, rest)) : bytes = front ++ rest ∧ front.length = count := by
  simp only [take, List.splitAt_eq] at h
  split at h
  · rename_i hlen
    cases h
    exact ⟨(List.take_append_drop count bytes).symm, hlen⟩
  · cases h

theorem takeByte_ok {bytes rest : List UInt8} {b : UInt8}
    (h : takeByte bytes = .ok (b, rest)) : bytes = b :: rest := by
  cases bytes with
  | nil => cases h
  | cons c cs => cases h; rfl

/-- What two steps in a row read is read by the first and then by the second. -/
theorem taking_bind_ok {α β : Type} {m : Taking α} {f : α → Taking β} {bytes rest : List UInt8}
    {b : β} (h : (m >>= f) bytes = .ok (b, rest)) :
    ∃ a mid, m bytes = .ok (a, mid) ∧ f a mid = .ok (b, rest) := by
  change (m bytes >>= fun p => f p.1 p.2) = .ok (b, rest) at h
  rcases hm : m bytes with e | ⟨a, mid⟩
  · rw [hm] at h; cases h
  · rw [hm] at h; exact ⟨a, mid, rfl, h⟩

theorem taking_bind_eq {α β : Type} {m : Taking α} {bytes r : List UInt8} {a : α}
    (h : m bytes = .ok (a, r)) (f : α → Taking β) : (m >>= f) bytes = f a r := by
  change (m bytes >>= fun p => f p.1 p.2) = f a r
  rw [h]
  rfl

theorem taking_bind_error {α β : Type} {m : Taking α} {bytes : List UInt8} {e : CodecError}
    (h : m bytes = .error e) (f : α → Taking β) : (m >>= f) bytes = .error e := by
  change (m bytes >>= fun p => f p.1 p.2) = .error e
  rw [h]
  rfl

theorem taking_pure_ok {α : Type} {a b : α} {bytes rest : List UInt8}
    (h : (pure a : Taking α) bytes = .ok (b, rest)) : a = b ∧ bytes = rest := by
  cases h
  exact ⟨rfl, rfl⟩

/-! ## Bytes of a number -/

theorem length_toBytes (count n : Nat) : (toBytes count n).length = count := by
  induction count generalizing n with
  | zero => rfl
  | succ count ih => simp [toBytes, ih]

theorem ofBytes_lt (bytes : List UInt8) : ofBytes bytes < 256 ^ bytes.length := by
  induction bytes with
  | nil => simp [ofBytes]
  | cons b rest ih =>
    have := b.toNat_lt
    simp only [ofBytes, List.length_cons, Nat.pow_succ]
    omega

theorem ofBytes_toBytes (count n : Nat) : ofBytes (toBytes count n) = n % 256 ^ count := by
  induction count generalizing n with
  | zero => simp [toBytes, ofBytes, Nat.mod_one]
  | succ count ih =>
    rw [toBytes, ofBytes, ih, UInt8.toNat_ofNat', Nat.pow_succ' (m := 256), Nat.mod_mul (x := n)]

theorem toBytes_ofBytes (bytes : List UInt8) : toBytes bytes.length (ofBytes bytes) = bytes := by
  induction bytes with
  | nil => rfl
  | cons b rest ih =>
    have hb := b.toNat_lt
    have hlow : UInt8.ofNat (b.toNat + 256 * ofBytes rest) = b := by
      rw [← UInt8.toNat_inj, UInt8.toNat_ofNat']
      omega
    have hhigh : (b.toNat + 256 * ofBytes rest) / 256 = ofBytes rest := by omega
    rw [List.length_cons, toBytes, ofBytes, hlow, hhigh, ih]

/-! ## All bytes of a number -/

theorem significantBytes_zero : significantBytes 0 = [] := by
  rw [significantBytes]
  simp

theorem significantBytes_of_pos {n : Nat} (h : n ≠ 0) :
    significantBytes n = UInt8.ofNat n :: significantBytes (n / 256) := by
  rw [significantBytes, if_neg h]

theorem ofBytes_significantBytes (n : Nat) : ofBytes (significantBytes n) = n := by
  induction n using Nat.strongRecOn with
  | ind n ih =>
    by_cases h : n = 0
    · rw [h, significantBytes_zero, ofBytes]
    · rw [significantBytes_of_pos h, ofBytes, ih _ (by omega), UInt8.toNat_ofNat']
      omega

/-- The highest of all bytes of a number is not zero. -/
theorem getLast?_significantBytes (n : Nat) : (significantBytes n).getLast? ≠ some 0 := by
  induction n using Nat.strongRecOn with
  | ind n ih =>
    by_cases h : n = 0
    · rw [h, significantBytes_zero]
      simp
    · rw [significantBytes_of_pos h]
      by_cases hq : n / 256 = 0
      · rw [hq, significantBytes_zero, List.getLast?_singleton, Ne, Option.some.injEq,
          ← UInt8.toNat_inj, UInt8.toNat_ofNat']
        change ¬ n % 2 ^ 8 = 0
        omega
      · have hlast := ih (n / 256) (by omega)
        rw [significantBytes_of_pos hq] at hlast ⊢
        rw [List.getLast?_cons_cons]
        exact hlast

/-- Bytes whose highest is not zero are all bytes of their number. -/
theorem significantBytes_ofBytes (bytes : List UInt8) (h : bytes.getLast? ≠ some 0) :
    significantBytes (ofBytes bytes) = bytes := by
  induction bytes with
  | nil => exact significantBytes_zero
  | cons b rest ih =>
    have hb := b.toNat_lt
    have hrest : rest.getLast? ≠ some 0 := by
      cases rest with
      | nil => simp
      | cons c cs => rwa [List.getLast?_cons_cons] at h
    have hpos : b.toNat + 256 * ofBytes rest ≠ 0 := by
      intro hz
      have hb0 : b = 0 := by rw [← UInt8.toNat_inj]; change b.toNat = 0; omega
      have hr0 : rest = [] := by
        rw [← ih hrest, show ofBytes rest = 0 by omega, significantBytes_zero]
      rw [hb0, hr0] at h
      simp at h
    have hlow : UInt8.ofNat (b.toNat + 256 * ofBytes rest) = b := by
      rw [← UInt8.toNat_inj, UInt8.toNat_ofNat']
      omega
    have hhigh : (b.toNat + 256 * ofBytes rest) / 256 = ofBytes rest := by omega
    rw [ofBytes, significantBytes_of_pos hpos, hlow, hhigh, ih hrest]

/-- A number has at most so many bytes when it is below that power of 256. -/
theorem length_significantBytes_le {n count : Nat} (h : n < 256 ^ count) :
    (significantBytes n).length ≤ count := by
  induction count generalizing n with
  | zero =>
    rw [show n = 0 by simpa using h, significantBytes_zero]
    simp
  | succ count ih =>
    by_cases hn : n = 0
    · rw [hn, significantBytes_zero]
      simp
    · rw [significantBytes_of_pos hn, List.length_cons]
      have := ih (n := n / 256) (by rw [Nat.pow_succ] at h; omega)
      omega

theorem lt_pow_length_significantBytes (n : Nat) : n < 256 ^ (significantBytes n).length := by
  have := ofBytes_lt (significantBytes n)
  rwa [ofBytes_significantBytes] at this

theorem length_significantBytes_le_iff {n count : Nat} :
    (significantBytes n).length ≤ count ↔ n < 256 ^ count :=
  ⟨fun h => Nat.lt_of_lt_of_le (lt_pow_length_significantBytes n)
    (Nat.pow_le_pow_right (by decide) h), length_significantBytes_le⟩

theorem take_toBytes {count length : Nat} (h : count ≤ length) (n : Nat) :
    (toBytes length n).take count = toBytes count n := by
  induction count generalizing length n with
  | zero => rfl
  | succ count ih =>
    cases length with
    | zero => omega
    | succ length => rw [toBytes, toBytes, List.take_succ_cons, ih (Nat.le_of_succ_le_succ h)]

theorem toBytes_length_significantBytes (n : Nat) :
    toBytes (significantBytes n).length n = significantBytes n := by
  have := toBytes_ofBytes (significantBytes n)
  rwa [ofBytes_significantBytes] at this

/-- The zeros above the highest bit of a word tell how many bytes its number has. -/
theorem length_significantBytes_word {n : UInt64} (h : n.toNat ≠ 0) :
    (significantBytes n.toNat).length = 8 - n.toBitVec.clz.toNat / 8 := by
  have hne : n.toBitVec ≠ 0#64 := fun hz => h (congrArg BitVec.toNat hz)
  have hlow : 2 ^ (64 - 1 - n.toBitVec.clz.toNat) ≤ n.toNat :=
    BitVec.two_pow_sub_clz_le_toNat_of_ne_zero (by decide) hne
  have hhigh : n.toNat < 2 ^ (64 - n.toBitVec.clz.toNat) := BitVec.toNat_lt_two_pow_sub_clz
  have hclz : n.toBitVec.clz.toNat < 64 := by
    have := BitVec.lt_def.mp (BitVec.clz_lt_iff_ne_zero.mpr hne)
    simpa using this
  generalize n.toBitVec.clz.toNat = zeros at hlow hhigh hclz ⊢
  have hbase (count : Nat) : 256 ^ count = 2 ^ (8 * count) := by rw [Nat.pow_mul]
  refine Nat.le_antisymm (length_significantBytes_le_iff.mpr ?_) ?_
  · refine Nat.lt_of_lt_of_le hhigh ?_
    rw [hbase]
    exact Nat.pow_le_pow_right (by decide) (by omega)
  · have hlast : ¬ n.toNat < 256 ^ (7 - zeros / 8) := by
      refine Nat.not_lt_of_le (Nat.le_trans ?_ hlow)
      rw [hbase]
      exact Nat.pow_le_pow_right (by decide) (by omega)
    have := mt length_significantBytes_le_iff.mp hlast
    omega

/-! ## Compact integers -/

namespace Compact

theorem oneByteBound_eq : oneByteBound = 64 := rfl

theorem twoByteBound_eq : twoByteBound = 16384 := rfl

theorem fourByteBound_eq : fourByteBound = 1073741824 := rfl

theorem wordBound_eq : wordBound = 18446744073709551616 := rfl

/-- The bytes of a large number are at least four. -/
theorem four_le_length {n : Nat} (h : fourByteBound ≤ n) : 4 ≤ (significantBytes n).length := by
  rcases Nat.lt_or_ge (significantBytes n).length 4 with hlt | hge
  · have hpow : 256 ^ (significantBytes n).length ≤ 256 ^ 3 :=
      Nat.pow_le_pow_right (by decide) (by omega)
    have := lt_pow_length_significantBytes n
    rw [fourByteBound_eq] at h
    omega
  · exact hge

theorem counted_word {n : UInt64} (h : fourByteBound ≤ n.toNat) :
    counted ((toBytes 8 n.toNat).take (8 - n.toBitVec.clz.toNat / 8))
      = counted (significantBytes n.toNat) := by
  have hpos : n.toNat ≠ 0 := by
    rw [fourByteBound_eq] at h
    omega
  rw [← length_significantBytes_word hpos, take_toBytes, toBytes_length_significantBytes]
  exact length_significantBytes_le n.toNat_lt

/-- The form of a number by its mode, whether it is a word or larger. -/
theorem write_eq (n : Nat) :
    write n = if n < oneByteBound then toBytes 1 (4 * n)
      else if n < twoByteBound then toBytes 2 (4 * n + 1)
      else if n < fourByteBound then toBytes 4 (4 * n + 2)
      else counted (significantBytes n) := by
  by_cases hword : n < wordBound
  · have hnat : (UInt64.ofNat n).toNat = n := UInt64.toNat_ofNat_of_lt' hword
    rw [write, if_pos hword, writeWord, hnat]
    by_cases hfour : n < fourByteBound
    · simp only [hfour, if_true]
    · have hcounted := counted_word (n := UInt64.ofNat n) (by rw [hnat]; omega)
      rw [hnat] at hcounted
      simp only [hcounted]
  · have hfour : ¬ n < fourByteBound := by
      rw [wordBound_eq] at hword
      rw [fourByteBound_eq]
      omega
    have htwo : ¬ n < twoByteBound := fun h => hfour (Nat.lt_trans h (by decide))
    have hone : ¬ n < oneByteBound := fun h => htwo (Nat.lt_trans h (by decide))
    rw [write, if_neg hword, if_neg hone, if_neg htwo, if_neg hfour]

theorem canonical_of_le {bound n : Nat} (h : bound ≤ n) (rest : List UInt8) :
    canonical bound n rest = .ok (n, rest) := by
  rw [canonical, if_neg (by omega)]
  rfl

theorem canonical_ok {bound n m : Nat} {bytes rest : List UInt8}
    (h : canonical bound n bytes = .ok (m, rest)) : bound ≤ n ∧ n = m ∧ bytes = rest := by
  unfold canonical at h
  split at h
  · cases h
  · cases h
    exact ⟨by omega, rfl, rfl⟩

/-- The first byte of a form tells its mode. -/
theorem mode_ofNat {mode : Nat} (n : Nat) (h : mode < 4) :
    (UInt8.ofNat (4 * n + mode)).toNat % 4 = mode := by
  rw [UInt8.toNat_ofNat']
  omega

/-- Bytes whose first tells the mode are the form of their number without the mode. -/
theorem toBytes_mode (b : UInt8) (front : List UInt8) {mode : Nat} (h : b.toNat % 4 = mode) :
    toBytes (front.length + 1) (4 * (ofBytes (b :: front) / 4) + mode) = b :: front := by
  have hnumber : 4 * (ofBytes (b :: front) / 4) + mode = ofBytes (b :: front) := by
    simp only [ofBytes]
    omega
  rw [hnumber]
  exact toBytes_ofBytes (b :: front)

/-- Both readers as one, by the most bytes that are read where they are counted. -/
def decodeUpTo (longest : Nat) : Taking Nat := do
  let first ← takeByte
  if first.toNat % 4 = 3 then
    let count := first.toNat / 4 + 4
    if longest < count then throw (.integerOutOfRange s!"{count}-byte compact" "u64")
    decodeCounted count
  else decodeFew first

theorem decodeLength_eq : decodeLength = decodeUpTo 8 := rfl

/-- No count is larger than the most bytes that can follow one. -/
theorem decode_eq : decode = decodeUpTo maxBytes := by
  refine bind_congr fun first => ?_
  have hcount : ¬ maxBytes < first.toNat / 4 + 4 := by
    have hfirst := first.toNat_lt
    simp only [maxBytes]
    omega
  simp only [hcount, if_false]

theorem decodeUpTo_one (longest : Nat) {n : Nat} (h : n < oneByteBound) (rest : List UInt8) :
    decodeUpTo longest (toBytes 1 (4 * n) ++ rest) = .ok (n, rest) := by
  have hb : (UInt8.ofNat (4 * n)).toNat = 4 * n := by
    rw [UInt8.toNat_ofNat']
    rw [oneByteBound_eq] at h
    omega
  have hmode : (UInt8.ofNat (4 * n)).toNat % 4 = 0 := by omega
  simp only [toBytes, List.cons_append, List.nil_append, decodeUpTo]
  rw [taking_bind_eq (a := UInt8.ofNat (4 * n)) (r := rest) rfl, if_neg (by omega), decodeFew, hmode]
  simp only [hb, Nat.mul_div_cancel_left n (show 0 < 4 by decide)]
  rfl

/-- The forms of two and of four bytes are read back where they are the shortest. -/
theorem decodeUpTo_few (longest : Nat) {count mode bound n : Nat} (rest : List UInt8)
    (hmode : (mode = 1 ∧ count = 1 ∧ bound = oneByteBound) ∨
      (mode = 2 ∧ count = 3 ∧ bound = twoByteBound))
    (hbound : bound ≤ n) (hfits : 4 * n + mode < 256 ^ (count + 1)) :
    decodeUpTo longest (toBytes (count + 1) (4 * n + mode) ++ rest) = .ok (n, rest) := by
  have hlt : mode < 4 := by omega
  have hnumber : ofBytes (UInt8.ofNat (4 * n + mode) :: toBytes count ((4 * n + mode) / 256)) / 4
      = n := by
    change ofBytes (toBytes (count + 1) (4 * n + mode)) / 4 = n
    rw [ofBytes_toBytes, Nat.mod_eq_of_lt hfits]
    omega
  have htake : take count (toBytes count ((4 * n + mode) / 256) ++ rest)
      = .ok (toBytes count ((4 * n + mode) / 256), rest) := by
    have := take_append (toBytes count ((4 * n + mode) / 256)) rest
    rwa [length_toBytes] at this
  simp only [toBytes, List.cons_append, decodeUpTo]
  have hfirst := mode_ofNat n hlt
  rw [taking_bind_eq (a := UInt8.ofNat (4 * n + mode)) (r := toBytes count _ ++ rest) rfl,
    if_neg (by omega), decodeFew, hfirst]
  rcases hmode with ⟨rfl, rfl, rfl⟩ | ⟨rfl, rfl, rfl⟩
  · simp only
    rw [taking_bind_eq htake, hnumber]
    exact canonical_of_le hbound rest
  · simp only
    rw [taking_bind_eq htake, hnumber]
    exact canonical_of_le hbound rest

theorem decodeUpTo_counted {longest n : Nat} (rest : List UInt8) (hbound : fourByteBound ≤ n)
    (hlength : (significantBytes n).length ≤ longest) (hmax : longest ≤ maxBytes) :
    decodeUpTo longest (UInt8.ofNat (4 * ((significantBytes n).length - 4) + 3) ::
      (significantBytes n ++ rest)) = .ok (n, rest) := by
  have hfour := four_le_length hbound
  simp only [maxBytes] at hmax
  have hb : (UInt8.ofNat (4 * ((significantBytes n).length - 4) + 3)).toNat
      = 4 * ((significantBytes n).length - 4) + 3 := by
    rw [UInt8.toNat_ofNat']
    omega
  have hcount : (4 * ((significantBytes n).length - 4) + 3) / 4 + 4
      = (significantBytes n).length := by omega
  rw [decodeUpTo, taking_bind_eq (a := UInt8.ofNat _) (r := significantBytes n ++ rest) rfl,
    if_pos (mode_ofNat _ (by decide))]
  simp only [hb, hcount, if_neg (show ¬ longest < (significantBytes n).length by omega)]
  rw [decodeCounted, taking_bind_eq (take_append _ rest), if_neg (getLast?_significantBytes n),
    ofBytes_significantBytes]
  exact canonical_of_le hbound rest

/-- The shortest form of a number is read back, whatever comes after it. -/
theorem decodeUpTo_write {longest n : Nat} (rest : List UInt8) (hn : n < 256 ^ longest)
    (hmax : longest ≤ maxBytes) : decodeUpTo longest (write n ++ rest) = .ok (n, rest) := by
  rw [write_eq]
  split
  · exact decodeUpTo_one longest ‹_› rest
  split
  · rename_i hone htwo
    rw [twoByteBound_eq] at htwo
    exact decodeUpTo_few longest rest (Or.inl ⟨rfl, rfl, rfl⟩) (by omega) (by omega)
  split
  · rename_i _ htwo hfour
    rw [fourByteBound_eq] at hfour
    exact decodeUpTo_few longest rest (Or.inr ⟨rfl, rfl, rfl⟩) (by omega) (by omega)
  · exact decodeUpTo_counted rest (by omega) (length_significantBytes_le hn) hmax

theorem encode_eq (n : Nat) :
    encode n = if n < 256 ^ maxBytes then .ok (write n)
      else .error (.integerOutOfRange (toString n) "compact") := by
  unfold encode write
  by_cases hword : n < wordBound
  · have hsmall : n < 256 ^ maxBytes := Nat.lt_trans hword (by decide)
    simp only [hword, hsmall, if_true]
  · by_cases hsmall : n < 256 ^ maxBytes
    · have hfits := Nat.not_lt_of_le (length_significantBytes_le_iff.mpr hsmall)
      simp only [hword, hsmall, hfits, if_true, if_false]
    · have hlong := Nat.lt_of_not_le (mt length_significantBytes_le_iff.mp hsmall)
      simp only [hword, hsmall, hlong, if_true, if_false]

theorem encode_of_lt {n : Nat} (h : n < 256 ^ maxBytes) : encode n = .ok (write n) := by
  rw [encode_eq, if_pos h]

/-- What is read as a number of few bytes is in the mode that the first byte says, and no shorter
mode would do. -/
theorem decodeFew_ok {b : UInt8} {n : Nat} {bytes rest : List UInt8} (hb : b.toNat % 4 ≠ 3)
    (h : decodeFew b bytes = .ok (n, rest)) :
    ∃ front, bytes = front ++ rest ∧ n = ofBytes (b :: front) / 4 ∧
      (b.toNat % 4 = 0 ∧ front.length = 0 ∨
        b.toNat % 4 = 1 ∧ front.length = 1 ∧ oneByteBound ≤ n ∨
        b.toNat % 4 = 2 ∧ front.length = 3 ∧ twoByteBound ≤ n) := by
  have hmodes : b.toNat % 4 = 0 ∨ b.toNat % 4 = 1 ∨ b.toNat % 4 = 2 := by omega
  rcases hmodes with hmode | hmode | hmode <;> simp only [decodeFew, hmode] at h
  · obtain ⟨rfl, rfl⟩ := taking_pure_ok h
    exact ⟨[], rfl, rfl, Or.inl ⟨hmode, rfl⟩⟩
  · obtain ⟨front, mid, htake, hcanonical⟩ := taking_bind_ok h
    obtain ⟨rfl, hfront⟩ := take_ok htake
    obtain ⟨hbound, rfl, rfl⟩ := canonical_ok hcanonical
    exact ⟨front, rfl, rfl, Or.inr (Or.inl ⟨hmode, hfront, hbound⟩)⟩
  · obtain ⟨front, mid, htake, hcanonical⟩ := taking_bind_ok h
    obtain ⟨rfl, hfront⟩ := take_ok htake
    obtain ⟨hbound, rfl, rfl⟩ := canonical_ok hcanonical
    exact ⟨front, rfl, rfl, Or.inr (Or.inr ⟨hmode, hfront, hbound⟩)⟩

theorem decodeCounted_ok {count n : Nat} {bytes rest : List UInt8}
    (h : decodeCounted count bytes = .ok (n, rest)) :
    ∃ front, bytes = front ++ rest ∧ front.length = count ∧ front.getLast? ≠ some 0 ∧
      n = ofBytes front ∧ fourByteBound ≤ n := by
  obtain ⟨front, mid, htake, hcanonical⟩ := taking_bind_ok h
  obtain ⟨rfl, hfront⟩ := take_ok htake
  split at hcanonical
  · cases hcanonical
  · rename_i hlast
    obtain ⟨hbound, rfl, rfl⟩ := canonical_ok hcanonical
    exact ⟨front, rfl, hfront, hlast, rfl, hbound⟩

/-- A number is read from few bytes, or from bytes that are counted. -/
theorem decodeUpTo_ok {longest n : Nat} {bytes rest : List UInt8}
    (h : decodeUpTo longest bytes = .ok (n, rest)) :
    ∃ b mid, bytes = b :: mid ∧
      (b.toNat % 4 ≠ 3 ∧ decodeFew b mid = .ok (n, rest) ∨
        b.toNat % 4 = 3 ∧ b.toNat / 4 + 4 ≤ longest ∧
          decodeCounted (b.toNat / 4 + 4) mid = .ok (n, rest)) := by
  obtain ⟨b, mid, hbyte, h⟩ := taking_bind_ok h
  refine ⟨b, mid, takeByte_ok hbyte, ?_⟩
  split at h
  · rename_i hmode
    dsimp only at h
    split at h
    · cases h
    · rename_i hcount
      exact Or.inr ⟨hmode, Nat.le_of_not_lt hcount, h⟩
  · rename_i hmode
    exact Or.inl ⟨hmode, h⟩

/-- Only the shortest form of a number is read. -/
theorem eq_write_of_decodeUpTo {longest n : Nat} {bytes rest : List UInt8}
    (h : decodeUpTo longest bytes = .ok (n, rest)) : bytes = write n ++ rest := by
  have hone : oneByteBound ≤ twoByteBound := by decide
  have htwo : twoByteBound ≤ fourByteBound := by decide
  obtain ⟨b, mid, rfl, ⟨hmode, h⟩ | ⟨hmode, -, h⟩⟩ := decodeUpTo_ok h
  · obtain ⟨front, rfl, rfl, hcases⟩ := decodeFew_ok hmode h
    have hlt := ofBytes_lt (b :: front)
    rw [List.length_cons] at hlt
    suffices hwrite : write (ofBytes (b :: front) / 4) = b :: front by rw [hwrite]; rfl
    rw [write_eq]
    rcases hcases with ⟨hmode, hlength⟩ | ⟨hmode, hlength, hbound⟩ | ⟨hmode, hlength, hbound⟩
    all_goals
      have hform := toBytes_mode b front hmode
      rw [hlength] at hform hlt
    · rw [if_pos (by rw [oneByteBound_eq]; omega)]
      exact hform
    · rw [if_neg (by omega), if_pos (by rw [twoByteBound_eq]; omega)]
      exact hform
    · rw [if_neg (by omega), if_neg (by omega), if_pos (by rw [fourByteBound_eq]; omega)]
      exact hform
  · obtain ⟨front, rfl, hlength, hlast, rfl, hbound⟩ := decodeCounted_ok h
    have hfirst : UInt8.ofNat (4 * (front.length - 4) + 3) = b := by
      have hb := b.toNat_lt
      rw [← UInt8.toNat_inj, UInt8.toNat_ofNat']
      omega
    rw [write_eq, if_neg (by omega), if_neg (by omega), if_neg (by omega)]
    simp only [counted, significantBytes_ofBytes front hlast, hfirst, List.cons_append]

theorem eq_write_of_decode {n : Nat} {bytes rest : List UInt8}
    (h : decode bytes = .ok (n, rest)) : bytes = write n ++ rest :=
  eq_write_of_decodeUpTo (decode_eq ▸ h)

theorem eq_write_of_decodeLength {n : Nat} {bytes rest : List UInt8}
    (h : decodeLength bytes = .ok (n, rest)) : bytes = write n ++ rest :=
  eq_write_of_decodeUpTo (decodeLength_eq ▸ h)

end Compact

/-! ## Integers of a width -/

theorem bits_eq (w : Width) : w.bits = (w.bits - 1) + 1 := by
  cases w <;> rfl

/-- The numbers of a width are twice as many as those that keep the sign bit clear. -/
theorem two_pow_bits (w : Width) : (2 : Int) ^ w.bits = 2 * 2 ^ (w.bits - 1) := by
  rw [bits_eq w, Int.pow_succ, Int.mul_comm]
  rfl

theorem pow_bytes (w : Width) : 256 ^ w.bytes = 2 ^ w.bits := by
  rw [Width.bits, Nat.pow_mul]

theorem two_pow_eq (w : Width) : (2 : Int) ^ w.bits = 256 ^ w.bytes := Int.pow_mul

theorem least_eq (k : IntKind) :
    k.least = if k.isSigned then -(2 ^ (k.width.bits - 1)) else 0 := rfl

theorem bound_eq (k : IntKind) :
    k.bound = if k.isSigned then 2 ^ (k.width.bits - 1) else 2 ^ k.width.bits := rfl

theorem intBytes_eq (k : IntKind) (n : Int) :
    intBytes k n = toBytes k.width.bytes (n % 2 ^ k.width.bits).toNat := rfl

theorem length_intBytes (k : IntKind) (n : Int) : (intBytes k n).length = k.width.bytes :=
  length_toBytes _ _

/-- The integer that some bytes are in two's complement. -/
def intOfBytes (k : IntKind) (bytes : List UInt8) : Int :=
  if k.isSigned && 2 ^ (k.width.bits - 1) ≤ (ofBytes bytes : Int) then
    (ofBytes bytes : Int) - 2 ^ k.width.bits
  else (ofBytes bytes : Int)

theorem holds_iff {k : IntKind} {n : Int} : k.holds n = true ↔ k.least ≤ n ∧ n < k.bound := by
  simp [IntKind.holds]

theorem ofBytes_lt_width {k : IntKind} {bytes : List UInt8} (h : bytes.length = k.width.bytes) :
    (ofBytes bytes : Int) < 2 ^ k.width.bits := by
  have := ofBytes_lt bytes
  rw [h, pow_bytes] at this
  exact_mod_cast this

/-- An integer of a type is the one that its bytes are. -/
theorem intOfBytes_intBytes {k : IntKind} {n : Int} (h : k.holds n = true) :
    intOfBytes k (intBytes k n) = n := by
  have hpos : (0 : Int) < 2 ^ (k.width.bits - 1) := Int.pow_pos (by decide)
  have htwo := two_pow_bits k.width
  have hmod : (0 : Int) ≤ n % 2 ^ k.width.bits ∧ n % 2 ^ k.width.bits < 2 ^ k.width.bits :=
    ⟨Int.emod_nonneg _ (by omega), Int.emod_lt_of_pos _ (by omega)⟩
  have hbytes : (ofBytes (intBytes k n) : Int) = n % 2 ^ k.width.bits := by
    have hlt : (n % 2 ^ k.width.bits).toNat < 256 ^ k.width.bytes := by
      rw [pow_bytes, Int.toNat_lt hmod.1]
      exact_mod_cast hmod.2
    rw [intBytes_eq, ofBytes_toBytes, Nat.mod_eq_of_lt hlt, Int.toNat_of_nonneg hmod.1]
  obtain ⟨hleast, hbound⟩ := holds_iff.mp h
  rw [intOfBytes, hbytes]
  rw [least_eq] at hleast
  rw [bound_eq] at hbound
  cases hs : k.isSigned with
  | false =>
    simp only [hs, Bool.false_eq_true, if_false] at hleast hbound
    simp only [Bool.false_and, Bool.false_eq_true, if_false]
    exact Int.emod_eq_of_lt hleast hbound
  | true =>
    simp only [hs, if_true] at hleast hbound
    simp only [Bool.true_and, decide_eq_true_eq]
    by_cases hn : 0 ≤ n
    · rw [Int.emod_eq_of_lt hn (by omega), if_neg (by omega)]
    · have hshift : n % 2 ^ k.width.bits = n + 2 ^ k.width.bits := by
        rw [← Int.add_emod_right, Int.emod_eq_of_lt (by omega) (by omega)]
      rw [hshift, if_pos (by omega)]
      omega

/-- The bytes of the width of a type are some integer of it, and its bytes are those. -/
theorem holds_intOfBytes {k : IntKind} {bytes : List UInt8} (h : bytes.length = k.width.bytes) :
    k.holds (intOfBytes k bytes) = true := by
  have htwo := two_pow_bits k.width
  have hlt := ofBytes_lt_width h
  rw [holds_iff, least_eq, bound_eq, intOfBytes]
  cases hs : k.isSigned with
  | false =>
    simp only [Bool.false_and, Bool.false_eq_true, if_false]
    omega
  | true =>
    simp only [Bool.true_and, decide_eq_true_eq, if_true]
    split <;> omega

theorem intBytes_intOfBytes {k : IntKind} {bytes : List UInt8}
    (h : bytes.length = k.width.bytes) : intBytes k (intOfBytes k bytes) = bytes := by
  have hlt := ofBytes_lt_width h
  have hmod : intOfBytes k bytes % 2 ^ k.width.bits = ofBytes bytes := by
    rw [intOfBytes]
    split
    · rw [Int.sub_emod_right]
      exact Int.emod_eq_of_lt (by omega) hlt
    · exact Int.emod_eq_of_lt (by omega) hlt
  rw [intBytes_eq, hmod, Int.toNat_natCast, ← h]
  exact toBytes_ofBytes bytes

/-! ## Two ways to the bytes -/

/-- The lowest bytes of an integer in two's complement. -/
def lowBytes (count : Nat) (n : Int) : List UInt8 := toBytes count (n % 256 ^ count).toNat

theorem intBytes_eq_lowBytes (k : IntKind) (n : Int) : intBytes k n = lowBytes k.width.bytes n := by
  rw [intBytes_eq, lowBytes, two_pow_eq]

/-- The remainder of an integer by a power of the base, digit by digit. -/
theorem emod_base (n : Int) {p : Int} (hp : 0 < p) :
    n % (256 * p) = n % 256 + 256 * (n / 256 % p) := by
  have hpos : 0 < 256 * p := by omega
  have hrest := Int.mul_ediv_add_emod (n / 256) p
  have hnonneg := Int.emod_nonneg (n / 256) (Int.ne_of_gt hp)
  have hlt := Int.emod_lt_of_pos (n / 256) hp
  refine ((Int.ediv_emod_unique (q := n / 256 / p) hpos).mpr ⟨?_, by omega, by omega⟩).2
  rw [Int.mul_assoc]
  omega

theorem lowBytes_succ (count : Nat) (n : Int) :
    lowBytes (count + 1) n = UInt8.ofNat (n % 256).toNat :: lowBytes count (n / 256) := by
  have hpos : (0 : Int) < 256 ^ count := Int.pow_pos (by decide)
  have hhigh := Int.emod_nonneg (n / 256) (Int.ne_of_gt hpos)
  have hsplit : n % 256 ^ (count + 1) = n % 256 + 256 * (n / 256 % 256 ^ count) := by
    rw [Int.pow_succ, Int.mul_comm, emod_base n hpos]
  have hlow : (n % 256 ^ (count + 1)).toNat % 256 = (n % 256).toNat := by omega
  have hrest : (n % 256 ^ (count + 1)).toNat / 256 = (n / 256 % 256 ^ count).toNat := by omega
  have hbyte : UInt8.ofNat (n % 256 ^ (count + 1)).toNat = UInt8.ofNat (n % 256).toNat := by
    rw [← UInt8.toNat_inj, UInt8.toNat_ofNat', UInt8.toNat_ofNat', ← hlow, Nat.mod_mod]
  rw [lowBytes, toBytes, hbyte, hrest]
  rfl

theorem take_lowBytes {count length : Nat} (h : count ≤ length) (n : Int) :
    (lowBytes length n).take count = lowBytes count n := by
  induction count generalizing length n with
  | zero => rfl
  | succ count ih =>
    cases length with
    | zero => omega
    | succ length =>
      rw [lowBytes_succ, lowBytes_succ, List.take_succ_cons, ih (Nat.le_of_succ_le_succ h)]

/-- Above the highest of its own bytes an integer has copies of one byte. -/
theorem lowBytes_sign (count : Nat) {n : Int} (h : n = 0 ∨ n = -1) :
    lowBytes count n = List.replicate count (if n < 0 then 0xff else 0) := by
  induction count with
  | zero => rfl
  | succ count ih =>
    rw [lowBytes_succ, List.replicate_succ]
    rcases h with rfl | rfl
    · exact congrArg (_ :: ·) ih
    · exact congrArg (_ :: ·) ih

theorem filledTo_cons (length : Nat) (fill b : UInt8) (bytes : List UInt8) :
    filledTo (length + 1) fill (b :: bytes) = b :: filledTo length fill bytes := by
  simp [filledTo]

theorem filledTo_nil (length : Nat) (fill : UInt8) :
    filledTo length fill [] = List.replicate length fill := by
  simp [filledTo]

theorem filledTo_significantBytes {count n : Nat} (h : n < 256 ^ count) :
    filledTo count 0 (significantBytes n) = lowBytes count n := by
  induction count generalizing n with
  | zero =>
    cases Nat.lt_one_iff.mp h
    rw [significantBytes_zero, filledTo_nil]
    rfl
  | succ count ih =>
    by_cases hn : n = 0
    · rw [hn, significantBytes_zero, filledTo_nil]
      exact (lowBytes_sign _ (Or.inl rfl)).symm
    · have hrest : n / 256 < 256 ^ count := by
        rw [Nat.pow_succ] at h
        omega
      have hbyte : UInt8.ofNat n = UInt8.ofNat ((n : Int) % 256).toNat := by
        rw [← UInt8.toNat_inj, UInt8.toNat_ofNat', UInt8.toNat_ofNat']
        omega
      rw [significantBytes_of_pos hn, filledTo_cons, ih hrest, lowBytes_succ, hbyte]
      rfl

theorem filledTo_signedBytes {count : Nat} {n : Int} (hlow : -(128 * 256 ^ count) ≤ n)
    (hhigh : n < 128 * 256 ^ count) :
    filledTo (count + 1) (if n < 0 then 0xff else 0) (signedBytes n) = lowBytes (count + 1) n := by
  induction count generalizing n with
  | zero =>
    have hsmall : -128 ≤ n ∧ n < 128 := by omega
    rw [signedBytes, if_pos hsmall, lowBytes_succ, filledTo_cons, filledTo_nil]
    rfl
  | succ count ih =>
    have hsign : (n / 256 < 0) = (n < 0) := propext (by omega)
    by_cases hsmall : -128 ≤ n ∧ n < 128
    · have hhigher : n / 256 = 0 ∨ n / 256 = -1 := by omega
      rw [signedBytes, if_pos hsmall, filledTo_cons, filledTo_nil, lowBytes_succ,
        lowBytes_sign (count + 1) hhigher]
      simp only [hsign]
    · rw [Int.pow_succ] at hlow hhigh
      have hrest := ih (by omega : -(128 * 256 ^ count) ≤ n / 256) (by omega)
      rw [signedBytes, if_neg hsmall, filledTo_cons, lowBytes_succ, ← hrest]
      simp only [hsign]

theorem two_pow_sign (w : Width) :
    ∃ count, w.bytes = count + 1 ∧ (2 : Int) ^ (w.bits - 1) = 128 * 256 ^ count := by
  cases w <;> exact ⟨_, rfl, rfl⟩

theorem nativeBytes_eq {k : IntKind} (hk : k.width.bytes ≤ 8) (n : Int64) :
    nativeBytes k n = intBytes k n.toInt := by
  rw [intBytes_eq_lowBytes, ← take_lowBytes (by omega : k.width.bytes ≤ 16)]
  rfl

theorem wideBytes_eq {k : IntKind} {n : Int} (h : k.holds n = true) :
    wideBytes k n = intBytes k n := by
  obtain ⟨hleast, hbound⟩ := holds_iff.mp h
  rw [least_eq] at hleast
  rw [bound_eq] at hbound
  rw [intBytes_eq_lowBytes, wideBytes]
  split
  · rename_i hs
    obtain ⟨count, hcount, hpow⟩ := two_pow_sign k.width
    rw [if_pos hs, hpow] at hleast hbound
    rw [hcount]
    exact filledTo_signedBytes hleast hbound
  · rename_i hs
    rw [if_neg hs] at hleast hbound
    obtain ⟨m, rfl⟩ := Int.eq_ofNat_of_zero_le hleast
    refine filledTo_significantBytes ?_
    rw [Int.toNat_natCast, pow_bytes]
    exact_mod_cast hbound

/-! ## Three ways from the bytes -/

theorem bytes_le_of_fitsNative {k : IntKind} (hk : k.fitsNative = true) : k.width.bytes ≤ 8 := by
  obtain ⟨s, w⟩ := k
  cases w with
  | w8 | w16 | w32 | w64 => exact Nat.le_of_ble_eq_true rfl
  | w128 | w256 => cases hk

theorem ofBytes_append (front rest : List UInt8) :
    ofBytes (front ++ rest) = ofBytes front + 256 ^ front.length * ofBytes rest := by
  induction front with
  | nil => simp [ofBytes]
  | cons b front ih =>
    rw [List.cons_append, ofBytes, ih, ofBytes, List.length_cons, Nat.pow_succ, Nat.mul_add,
      Nat.mul_comm (256 ^ front.length) 256, Nat.mul_assoc, Nat.add_assoc]

/-- Copies of the sign are nothing, or the highest number of their length. -/
theorem ofBytes_sign (count : Nat) (negative : Bool) :
    ofBytes (List.replicate count (if negative then 0xff else 0))
      = if negative then 256 ^ count - 1 else 0 := by
  induction count with
  | zero => cases negative <;> rfl
  | succ count ih =>
    have hpos : 0 < 256 ^ count := Nat.pow_pos (by decide)
    rw [List.replicate_succ, ofBytes, ih, Nat.pow_succ]
    cases negative with
    | false => rfl
    | true =>
      have hbyte : (0xff : UInt8).toNat = 255 := rfl
      simp only [if_true, hbyte]
      omega

/-- The highest bit is set in the upper half of the numbers. -/
theorem hasSignBit_iff {bytes : List UInt8} {count : Nat} (h : bytes.length = count + 1) :
    hasSignBit bytes = true ↔ 128 * 256 ^ count ≤ ofBytes bytes := by
  induction bytes generalizing count with
  | nil => cases h
  | cons b rest ih =>
    cases rest with
    | nil =>
      cases h
      simp [hasSignBit, ofBytes, UInt8.le_iff_toNat_le]
    | cons c rest =>
      have hlength : (c :: rest).length = rest.length + 1 := rfl
      have hvalue : ofBytes (b :: c :: rest) = b.toNat + 256 * ofBytes (c :: rest) := rfl
      have hb := b.toNat_lt
      cases h
      rw [hasSignBit, List.getLast?_cons_cons, ← hasSignBit, ih hlength, hvalue, hlength,
        Nat.pow_succ]
      omega

theorem signBit_iff {k : IntKind} {bytes : List UInt8} (h : bytes.length = k.width.bytes) :
    hasSignBit bytes = true ↔ (2 : Int) ^ (k.width.bits - 1) ≤ ofBytes bytes := by
  obtain ⟨count, hcount, hpow⟩ := two_pow_sign k.width
  have hhalf : (128 * 256 ^ count : Int) = ((128 * 256 ^ count : Nat) : Int) := by
    rw [Int.natCast_mul, Int.natCast_pow]
    rfl
  rw [hasSignBit_iff (h.trans hcount), hpow, hhalf, Int.ofNat_le]

theorem intOfBytes_eq_signed {k : IntKind} {bytes : List UInt8}
    (h : bytes.length = k.width.bytes) : intOfBytes k bytes =
      if k.isSigned && hasSignBit bytes then (ofBytes bytes : Int) - 2 ^ k.width.bits
      else (ofBytes bytes : Int) := by
  simp only [intOfBytes, Bool.and_eq_true, decide_eq_true_eq, signBit_iff h]

theorem signedOfBytes_eq {k : IntKind} {bytes : List UInt8} (hk : k.isSigned = true)
    (h : bytes.length = k.width.bytes) : signedOfBytes bytes = intOfBytes k bytes := by
  have hpow : Int.pow 256 bytes.length = 2 ^ k.width.bits := by
    rw [h, two_pow_eq]
    rfl
  rw [signedOfBytes, intOfBytes_eq_signed h, hk, Bool.true_and, hpow]

/-- Copies of the sign above the bytes change the number by a multiple of 2^64. -/
theorem nativeOfBytes_eq {k : IntKind} {bytes : List UInt8} (hk : k.width.bytes ≤ 8)
    (h : bytes.length = k.width.bytes) : nativeOfBytes k bytes = .ofInt (intOfBytes k bytes) := by
  have hshort : bytes.length ≤ 8 := h ▸ hk
  have hpow : (2 : Int) ^ k.width.bits = (256 ^ bytes.length : Nat) := by
    rw [two_pow_eq, ← h, Int.natCast_pow]
    rfl
  have hfilled (fill : UInt8) :
      filledTo 8 fill bytes = bytes ++ List.replicate (8 - bytes.length) fill := by
    rw [filledTo, List.take_of_length_le hshort]
  rw [nativeOfBytes, hfilled, ofBytes_append, ofBytes_sign, UInt64.toInt64_ofNat',
    ← Int64.ofInt_eq_ofNat, ← Int64.toInt_inj, Int64.toInt_ofInt, Int64.toInt_ofInt]
  cases hsign : k.isSigned && hasSignBit bytes with
  | true =>
    have hint : intOfBytes k bytes = ofBytes bytes - (256 ^ bytes.length : Nat) := by
      rw [intOfBytes_eq_signed h, hsign, if_pos rfl, hpow]
    have hsplit : 256 ^ bytes.length * 256 ^ (8 - bytes.length) = 2 ^ 64 := by
      rw [← Nat.pow_add, Nat.add_sub_cancel' hshort]
      rfl
    have hfill : ((ofBytes bytes + 256 ^ bytes.length * (256 ^ (8 - bytes.length) - 1) : Nat) : Int)
        = intOfBytes k bytes + 2 ^ 64 := by
      have hle := Nat.le_mul_of_pos_right (256 ^ bytes.length)
        (Nat.pow_pos (n := 8 - bytes.length) (show 0 < 256 by decide))
      rw [hint, Nat.mul_sub_one]
      omega
    rw [if_pos rfl, hfill]
    exact Int.add_bmod_right _ _
  | false =>
    have hint : intOfBytes k bytes = ofBytes bytes := by
      rw [intOfBytes_eq_signed h, hsign, if_neg Bool.false_ne_true]
    rw [if_neg Bool.false_ne_true, hint, Nat.mul_zero, Nat.add_zero]

/-- In each of the three ways the bytes of a type are read as their integer. -/
theorem readInt_eq {k : IntKind} {bytes : List UInt8} (h : bytes.length = k.width.bytes) :
    readInt k bytes = valueOf k (intOfBytes k bytes) := by
  unfold readInt valueOf
  split
  · rename_i hk
    rw [nativeOfBytes_eq (bytes_le_of_fitsNative hk) h]
  split
  · rename_i hs
    rw [signedOfBytes_eq hs h]
  · rename_i hs
    rw [intOfBytes, if_neg (by simp [hs])]

/-! ## Integers as values -/

/-- Where all integers of a type fit in 64 bits, each of them does. -/
theorem fitsNative_bounds {k : IntKind} {n : Int} (hk : k.fitsNative = true)
    (h : k.holds n = true) : -(2 ^ 63) ≤ n ∧ n < 2 ^ 63 := by
  obtain ⟨hleast, hbound⟩ := holds_iff.mp h
  obtain ⟨s, w⟩ := k
  cases w <;> cases s <;>
    simp [IntKind.fitsNative, least_eq, bound_eq, Width.bits, Width.bytes]
      at hk hleast hbound <;> omega

theorem intOf_valueOf {k : IntKind} {n : Int} (h : k.holds n = true) :
    intOf (valueOf k n) k = .ok n := by
  unfold valueOf
  split
  · rename_i hk
    obtain ⟨hlow, hhigh⟩ := fitsNative_bounds hk h
    simp only [intOf, Value.int?, Int64.toInt_ofInt_of_le hlow hhigh]
  · rfl

theorem intWithin_valueOf {k : IntKind} {n : Int} (h : k.holds n = true) :
    intWithin (valueOf k n) k = .ok n := by
  rw [intWithin, intOf_valueOf h]
  simp only [bind, Except.bind, h, if_true]
  rfl

theorem intWithin_ok {k : IntKind} {v : Value} {n : Int} (h : intWithin v k = .ok n) :
    intOf v k = .ok n ∧ k.holds n = true := by
  unfold intWithin at h
  rcases hm : intOf v k with e | m
  · rw [hm] at h; cases h
  · rw [hm] at h
    simp only [bind, Except.bind] at h
    split at h
    · cases h
      exact ⟨rfl, ‹_›⟩
    · cases h

theorem writeInt_wide (k : IntKind) (v : Value) :
    writeInt.wide k v = do return intBytes k (← intWithin v k) := by
  rw [writeInt.wide]
  cases hn : intWithin v k with
  | error e => rfl
  | ok n => exact congrArg Except.ok (wideBytes_eq (intWithin_ok hn).2)

/-- Both ways an integer is written in two's complement, if it is one of the type. -/
theorem writeInt_eq (k : IntKind) (v : Value) :
    writeInt k v = do return intBytes k (← intWithin v k) := by
  cases v with
  | integer n =>
    rw [writeInt]
    split
    · rename_i hk
      simp only [nativeBytes_eq hk, intWithin, intOf, Value.int?, bind, Except.bind]
      split <;> rfl
    · exact writeInt_wide k _
  | _ => exact writeInt_wide k _

/-- Every integer that is read is written back as the bytes that were read. -/
theorem takeInt_ok {k : IntKind} {bytes rest : List UInt8} {v : Value}
    (h : takeInt k bytes = .ok (v, rest)) :
    ∃ front, bytes = front ++ rest ∧ writeInt k v = .ok front := by
  obtain ⟨front, mid, htake, h⟩ := taking_bind_ok h
  obtain ⟨hbytes, hlength⟩ := take_ok htake
  obtain ⟨rfl, rfl⟩ := taking_pure_ok h
  refine ⟨front, hbytes, ?_⟩
  rw [readInt_eq hlength, writeInt_eq, intWithin_valueOf (holds_intOfBytes hlength)]
  simp only [bind, Except.bind, intBytes_intOfBytes hlength]
  rfl

/-- Every integer that is written is read back in the form that its type asks for. -/
theorem takeInt_writeInt {k : IntKind} {v : Value} {bytes : List UInt8}
    (h : writeInt k v = .ok bytes) (rest : List UInt8) :
    ∃ n, intOf v k = .ok n ∧ takeInt k (bytes ++ rest) = .ok (valueOf k n, rest) := by
  rw [writeInt_eq] at h
  rcases hn : intWithin v k with e | n
  · rw [hn] at h; cases h
  · rw [hn] at h
    cases h
    obtain ⟨hof, hholds⟩ := intWithin_ok hn
    refine ⟨n, hof, ?_⟩
    have htake := take_append (intBytes k n) rest
    rw [length_intBytes] at htake
    rw [takeInt, taking_bind_eq htake, readInt_eq (length_intBytes k n),
      intOfBytes_intBytes hholds]
    rfl

end Typewire.Wire
