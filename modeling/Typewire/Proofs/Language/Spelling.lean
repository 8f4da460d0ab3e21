-- The characters that spell a token. Tokens that are spelled one after another, without a blank,
-- are scanned as those tokens as long as no two words touch.
import Mathlib.Data.List.Chain
import Mathlib.Data.List.TakeWhile
import Typewire.Proofs.Language.Written

namespace Typewire.Language

open Typewire.Text

/-! ## Characters -/

/-- The code points of the white space. -/
def blankPoints : List Nat :=
  [9, 10, 11, 12, 13, 32, 0x85, 0xa0, 0x1680, 0x2000, 0x2001, 0x2002, 0x2003, 0x2004, 0x2005,
    0x2006, 0x2007, 0x2008, 0x2009, 0x200a, 0x2028, 0x2029, 0x202f, 0x205f, 0x3000]

theorem mem_blankPoints {c : Char} (h : isBlank c = true) : c.toNat ∈ blankPoints := by
  simp only [isBlank, Bool.or_eq_true, Bool.and_eq_true, decide_eq_true_eq, beq_iff_eq] at h
  simp only [blankPoints, List.mem_cons, List.not_mem_nil]
  omega

/-- No name starts with white space. -/
theorem startsName_of_isBlank {c : Char} (h : isBlank c = true) : startsName c = false := by
  have hpoints : ∀ n ∈ blankPoints, startsName (Char.ofNat n) = false := by decide +kernel
  rw [← Char.ofNat_toNat c]
  exact hpoints _ (mem_blankPoints h)

theorem not_isGap_of_startsName {c : Char} (h : startsName c = true) : isGap c = false := by
  rw [isGap, Bool.and_eq_false_iff]
  exact Or.inr (Bool.eq_false_iff.mpr fun hblank =>
    Bool.noConfusion (h.symm.trans (startsName_of_isBlank hblank)))

theorem startsName_of_isDigit {c : Char} (h : c.isDigit = true) :
    startsName c = false ∧ isGap c = false ∧ c ≠ '/' := by
  have hpoints : ∀ n ∈ List.range' 48 10, startsName (Char.ofNat n) = false ∧
      isGap (Char.ofNat n) = false ∧ Char.ofNat n ≠ '/' := by decide
  have hc : c.toNat ∈ List.range' 48 10 := by
    have hbounds : 48 ≤ c.toNat ∧ c.toNat ≤ 57 := by
      simpa [Char.isDigit, UInt32.le_iff_toNat_le] using h
    rw [List.mem_range'_1]
    omega
  rw [← Char.ofNat_toNat c]
  exact hpoints _ hc

theorem continuesName_of_startsName {c : Char} (h : startsName c = true) :
    continuesName c = true := by
  rw [startsName, Bool.or_eq_true] at h
  rw [continuesName, Bool.or_eq_true, Bool.or_eq_true]
  exact h.imp_left Or.inl

theorem continuesName_of_isDigit {c : Char} (h : c.isDigit = true) : continuesName c = true := by
  have hc : c.val < 128 := by
    have hbounds : 48 ≤ c.toNat ∧ c.toNat ≤ 57 := by
      simpa [Char.isDigit, UInt32.le_iff_toNat_le] using h
    rw [UInt32.lt_iff_toNat_lt]
    exact Nat.lt_of_le_of_lt hbounds.2 (by decide)
  rw [continuesName, isNumeric, if_pos hc, h, Bool.or_true]
  rfl

/-- What a symbol's character is not, and what it spells. -/
theorem symbol_char (s : Symbol) :
    continuesName s.char = false ∧ isGap s.char = false ∧ s.char ≠ '/' ∧ s.char ≠ '\n' ∧
      Symbol.ofChar? s.char = some s := by
  cases s <;> decide

/-! ## Tokens -/

/-- A name of the language: a letter or an underscore, then letters, number characters and
underscores. -/
def IsName (name : String) : Prop :=
  ∃ c cs, name.toList = c :: cs ∧ startsName c = true ∧ ∀ d ∈ cs, continuesName d = true

/-- A token that a text can hold. -/
def Spellable : Token → Prop
  | .name name => IsName name
  | .number n => n < numberBound
  | .symbol _ | .newline => True

/-- The characters of a token; numbers stand without leading zeros. -/
def Token.spelling : Token → List Char
  | .name text => text.toList
  | .number n => Nat.toDigits 10 n
  | .symbol s => [s.char]
  | .newline => ['\n']

/-- Names and numbers are words. Two of them in a row would read as one. -/
def IsWord : Token → Prop
  | .name _ | .number _ => True
  | .symbol _ | .newline => False

/-- No word goes on at the front of the characters. -/
def StopsWord (cs : List Char) : Prop := ∀ c ∈ cs.head?, continuesName c = false

theorem takeWhile_append_stop {p : Char → Bool} {cs rest : List Char} (hcs : ∀ c ∈ cs, p c = true)
    (hrest : ∀ c ∈ rest.head?, p c = false) : (cs ++ rest).takeWhile p = cs := by
  rw [List.takeWhile_append_of_pos hcs]
  cases rest with
  | nil => rw [List.takeWhile_nil, List.append_nil]
  | cons c rest =>
    rw [List.takeWhile_cons_of_neg (Bool.eq_false_iff.mp (hrest c rfl)), List.append_nil]

theorem dropWhile_append_stop {p : Char → Bool} {cs rest : List Char} (hcs : ∀ c ∈ cs, p c = true)
    (hrest : ∀ c ∈ rest.head?, p c = false) : (cs ++ rest).dropWhile p = rest := by
  rw [List.dropWhile_append_of_pos hcs]
  cases rest with
  | nil => rfl
  | cons c rest => rw [List.dropWhile_cons_of_neg (Bool.eq_false_iff.mp (hrest c rfl))]

theorem firstLexeme_name {c : Char} {cs rest : List Char} (hc : startsName c = true)
    (hcs : ∀ d ∈ cs, continuesName d = true) (hrest : StopsWord rest) :
    firstLexeme c (cs ++ rest) = .ok ⟨.name (String.ofList (c :: cs)), (c :: cs).length⟩ := by
  have hdigit : ¬ c.isDigit = true := fun h =>
    Bool.noConfusion (hc.symm.trans (startsName_of_isDigit h).1)
  rw [firstLexeme, if_neg hdigit, if_pos hc, takeWhile_append_stop hcs hrest]

theorem firstLexeme_number {n : Nat} (hn : n < numberBound) {c : Char} {cs rest : List Char}
    (hdigits : Nat.toDigits 10 n = c :: cs) (hrest : StopsWord rest) :
    firstLexeme c (cs ++ rest) = .ok ⟨.number n, (c :: cs).length⟩ := by
  have hall : ∀ d ∈ c :: cs, d.isDigit = true := fun d hd =>
    Nat.isDigit_of_mem_toDigits (by decide) (by decide) (hdigits ▸ hd)
  have hvalue : decimalValue (c :: cs) = n := hdigits ▸ Nat.ofDigitChars_ten_toDigits
  have hcs : ∀ d ∈ cs, d.isDigit = true := fun d hd => hall d (List.mem_cons_of_mem _ hd)
  have hstop : ∀ d ∈ rest.head?, d.isDigit = false := fun d hd =>
    Bool.eq_false_iff.mpr fun h =>
      Bool.noConfusion ((continuesName_of_isDigit h).symm.trans (hrest d hd))
  have hname : ¬ rest.head?.any startsName = true := by
    cases rest with
    | nil => exact Bool.false_ne_true
    | cons d rest =>
      exact fun h => Bool.noConfusion ((continuesName_of_startsName h).symm.trans (hrest d rfl))
  rw [firstLexeme, if_pos (hall c List.mem_cons_self), takeWhile_append_stop hcs hstop,
    dropWhile_append_stop hcs hstop]
  dsimp only
  rw [if_neg hname, hvalue, if_pos hn]

theorem firstLexeme_symbol (s : Symbol) (rest : List Char) :
    firstLexeme s.char rest = .ok ⟨.symbol s, 1⟩ := by
  obtain ⟨hcontinues, -, -, hnewline, hchar⟩ := symbol_char s
  have hdigit : ¬ s.char.isDigit = true := fun h =>
    Bool.noConfusion (hcontinues.symm.trans (continuesName_of_isDigit h))
  have hstarts : ¬ startsName s.char = true := fun h =>
    Bool.noConfusion (hcontinues.symm.trans (continuesName_of_startsName h))
  rw [firstLexeme, if_neg hdigit, if_neg hstarts, if_neg hnewline, hchar]

/-! ## Texts -/

/-- The spelling of a token is its characters, no gap, and reads as the token. -/
theorem firstLexeme_spelling {t : Token} (ht : Spellable t) {rest : List Char}
    (hrest : IsWord t → StopsWord rest) :
    ∃ c cs, t.spelling = c :: cs ∧ isGap c = false ∧ c ≠ '/' ∧
      firstLexeme c (cs ++ rest) = .ok ⟨t, t.spelling.length⟩ := by
  cases t with
  | name name =>
    obtain ⟨c, cs, hname, hc, hcs⟩ := ht
    have hslash : c ≠ '/' := by
      rintro rfl
      exact absurd hc (by decide)
    refine ⟨c, cs, hname, not_isGap_of_startsName hc, hslash, ?_⟩
    rw [firstLexeme_name hc hcs (hrest trivial), ← hname, String.ofList_toList]
    rfl
  | number n =>
    obtain ⟨c, cs, hdigits⟩ := List.exists_cons_of_ne_nil (Nat.toDigits_ne_nil (n := n) (b := 10))
    have hc : c.isDigit = true := Nat.isDigit_of_mem_toDigits (by decide) (by decide)
      (hdigits ▸ List.mem_cons_self)
    obtain ⟨-, hgap, hslash⟩ := startsName_of_isDigit hc
    refine ⟨c, cs, hdigits, hgap, hslash, ?_⟩
    rw [firstLexeme_number ht hdigits (hrest trivial), Token.spelling, hdigits]
  | symbol s =>
    obtain ⟨-, hgap, hslash, -, -⟩ := symbol_char s
    exact ⟨s.char, [], rfl, hgap, hslash, firstLexeme_symbol s rest⟩
  | newline => exact ⟨'\n', [], rfl, by decide, by decide, rfl⟩

theorem gap_cons {c : Char} (rest : List Char) (hgap : isGap c = false) (hslash : c ≠ '/') :
    gap (c :: rest) = [] ∧ afterGap (c :: rest) = c :: rest := by
  constructor
  · rw [gap]
    · rw [hgap]
      rfl
    · rintro _ rfl
      exact absurd rfl hslash
  · rw [afterGap]
    · rw [hgap]
      rfl
    · rintro _ rfl
      exact absurd rfl hslash

/-- The tokens are spelled one after another so that each is seen apart: no two words touch. -/
def Apart (s t : Token) : Prop := ¬ (IsWord s ∧ IsWord t)

theorem stopsWord_spelling {s : Token} {ts : List Token} (hs : ∀ t ∈ s :: ts, Spellable t)
    (hapart : (s :: ts).IsChain Apart) (hword : IsWord s) :
    StopsWord (ts.flatMap Token.spelling) := by
  cases ts with
  | nil =>
    intro c hc
    cases hc
  | cons t ts =>
    have ht : ¬ IsWord t := fun ht => (List.isChain_cons_cons.mp hapart).1 ⟨hword, ht⟩
    intro c hc
    cases t with
    | name name => exact absurd trivial ht
    | number n => exact absurd trivial ht
    | symbol s =>
      cases hc
      exact (symbol_char s).1
    | newline =>
      cases hc
      decide

theorem scan_of_nil {cs : List Char} (p : Position) (h : afterGap cs = []) :
    Tokens.scan p cs = ⟨[], .finished (p.advance (gap cs))⟩ := by
  rw [Tokens.scan]
  split
  · rfl
  · rename_i h'
    rw [h] at h'
    cases h'

theorem scan_of_cons {c : Char} {cs rest : List Char} (p : Position) (h : afterGap cs = c :: rest) :
    Tokens.scan p cs = match firstLexeme c rest with
      | .error problem => ⟨[], .broken ⟨p.advance (gap cs), problem⟩⟩
      | .ok lexeme =>
        let more := Tokens.scan ((p.advance (gap cs)).advance ((c :: rest).take lexeme.length))
          (rest.drop (lexeme.length - 1))
        ⟨⟨lexeme.token, p.advance (gap cs)⟩ :: more.placed, more.ending⟩ := by
  rw [Tokens.scan]
  split
  · rename_i h'
    rw [h] at h'
    cases h'
  · rename_i h'
    rw [h] at h'
    cases h'
    rfl

/-- Tokens that are spelled in a row are scanned again, to the end of the text. -/
theorem scan_spelling {ts : List Token} (hs : ∀ t ∈ ts, Spellable t) (hapart : ts.IsChain Apart)
    (p : Position) : ∃ placed q, Tokens.scan p (ts.flatMap Token.spelling) = ⟨placed, .finished q⟩ ∧
      tokensOf placed = ts := by
  induction ts generalizing p with
  | nil => exact ⟨[], p.advance [], scan_of_nil p rfl, rfl⟩
  | cons t ts ih =>
    obtain ⟨c, cs, hspelling, hgap, hslash, hlexeme⟩ := firstLexeme_spelling
      (hs t List.mem_cons_self) (stopsWord_spelling hs hapart)
    obtain ⟨hno, hafter⟩ := gap_cons (cs ++ ts.flatMap Token.spelling) hgap hslash
    obtain ⟨placed, q, hscan, htokens⟩ := ih (fun u hu => hs u (List.mem_cons_of_mem _ hu))
      hapart.tail ((p.advance []).advance (c :: cs))
    refine ⟨⟨t, p.advance []⟩ :: placed, q, ?_, congrArg (t :: ·) htokens⟩
    have hlength : t.spelling.length = cs.length + 1 := by rw [hspelling, List.length_cons]
    rw [List.flatMap_cons, hspelling, List.cons_append, scan_of_cons p hafter, hno, hlexeme]
    dsimp only
    rw [hlength, List.take_succ_cons, List.take_left, Nat.add_sub_cancel, List.drop_left, hscan]

/-! ## Scanned tokens -/

theorem spellable_of_firstLexeme {c : Char} {rest : List Char} {lexeme : Lexeme}
    (h : firstLexeme c rest = .ok lexeme) : Spellable lexeme.token := by
  unfold firstLexeme at h
  split at h
  · dsimp only at h
    split at h
    · cases h
    split at h
    · rename_i hn
      cases h
      exact hn
    · cases h
  split at h
  · rename_i hc
    cases h
    exact ⟨c, rest.takeWhile continuesName, String.toList_ofList, hc,
      fun d hd => List.mem_takeWhile_imp hd⟩
  split at h
  · cases h
    trivial
  split at h
  · cases h
    trivial
  · cases h

/-- Every token of a text is one that a text can hold. -/
theorem spellable_of_scan {p : Position} {cs : List Char} :
    ∀ t ∈ (Tokens.scan p cs).placed, Spellable t.token := by
  fun_induction Tokens.scan p cs with
  | case1 p cs p' hafter => simp
  | case2 p cs p' c rest hafter problem hlexeme => simp
  | case3 p cs p' c rest hafter lexeme hlexeme more ih =>
    exact List.forall_mem_cons.mpr ⟨spellable_of_firstLexeme hlexeme, ih⟩

end Typewire.Language
