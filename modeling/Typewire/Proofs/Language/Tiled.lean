-- A scanner that is asked for one token after another, and what it has read by then. The tokens
-- and the gaps in front of them make up the text so far, each token stands where the characters
-- before it end, and the last answer is the end of the text or characters that are no token.
import Mathlib.Data.List.DropRight
import Typewire.Proofs.Language.Joined

namespace Typewire.Language

open Typewire.Text

/-! ## One token after another -/

/-- A scanner in a text: the place that it has come to and the characters that are left. -/
structure Scanner where
  position : Position
  rest : List Char

/-- What a scanner answers: a token and the scanner behind it, or how the tokens end. -/
inductive Answer where
  | token (t : Placed) (behind : Scanner)
  | ending (e : Ending)

namespace Scanner

/-- A scanner at the start of a text. -/
def ofText (text : String) : Scanner := ⟨.start, text.toList⟩

/-- Asks for the next token. -/
def next (s : Scanner) : Answer :=
  let p := s.position.advance (gap s.rest)
  match afterGap s.rest with
  | [] => .ending (.finished p)
  | c :: rest =>
    match firstLexeme c rest with
    | .error problem => .ending (.broken ⟨p, problem⟩)
    | .ok lexeme =>
      .token ⟨lexeme.token, p⟩
        ⟨p.advance ((c :: rest).take lexeme.length), rest.drop (lexeme.length - 1)⟩

/-- All tokens that are left. -/
def tokens (s : Scanner) : Tokens := Tokens.scan s.position s.rest

variable {s : Scanner} {c : Char} {rest : List Char}

theorem next_of_nil (h : afterGap s.rest = []) :
    s.next = .ending (.finished (s.position.advance (gap s.rest))) := by
  simp only [next, h]

theorem next_of_error {problem : Problem} (h : afterGap s.rest = c :: rest)
    (hlexeme : firstLexeme c rest = .error problem) :
    s.next = .ending (.broken ⟨s.position.advance (gap s.rest), problem⟩) := by
  simp only [next, h, hlexeme]

theorem next_of_ok {lexeme : Lexeme} (h : afterGap s.rest = c :: rest)
    (hlexeme : firstLexeme c rest = .ok lexeme) :
    s.next = .token ⟨lexeme.token, s.position.advance (gap s.rest)⟩
      ⟨(s.position.advance (gap s.rest)).advance ((c :: rest).take lexeme.length),
        rest.drop (lexeme.length - 1)⟩ := by
  simp only [next, h, hlexeme]

/-- Scanning a text is asking its scanner for one token after another. -/
theorem tokens_eq (s : Scanner) : s.tokens = match s.next with
    | .ending e => ⟨[], e⟩
    | .token t behind => ⟨t :: behind.tokens.placed, behind.tokens.ending⟩ := by
  unfold tokens
  cases h : afterGap s.rest with
  | nil => rw [next_of_nil h, scan_of_nil s.position h]
  | cons c rest =>
    rw [scan_of_cons s.position h]
    cases hlexeme : firstLexeme c rest with
    | error problem => rw [next_of_error h hlexeme]
    | ok lexeme => rw [next_of_ok h hlexeme]

end Scanner

/-- The tokens that were asked for from the start of a text on, and the scanner behind them. -/
inductive Asked (text : String) : List Placed → Scanner → Prop where
  | nothing : Asked text [] (.ofText text)
  | more {ts : List Placed} {s behind : Scanner} {t : Placed} (h : Asked text ts s)
      (ht : s.next = .token t behind) : Asked text (ts ++ [t]) behind

/-! ## Places -/

/-- The place behind some characters at the start of a text. Lines and columns are counted from
one, a column from the last line end on. -/
def Position.behind (cs : List Char) : Position :=
  ⟨1 + cs.count '\n', 1 + (cs.rtakeWhile (· != '\n')).length⟩

theorem Position.advance_start (cs : List Char) : Position.start.advance cs = .behind cs := by
  -- The induction is from the end, where a line end starts the column anew.
  induction cs using List.reverseRecOn with
  | nil => rfl
  | append_singleton cs c ih =>
    rw [Position.advance_append, ih]
    change (Position.behind cs).after c = .behind (cs ++ [c])
    unfold Position.after Position.behind
    rw [List.count_append, List.rtakeWhile_concat]
    by_cases hc : c = '\n'
    · subst hc
      simp [Nat.add_assoc]
    · simp [hc, Nat.add_assoc]

theorem Position.advance_behind (cs ds : List Char) :
    (Position.behind cs).advance ds = .behind (cs ++ ds) := by
  rw [← Position.advance_start, ← Position.advance_append, Position.advance_start]

/-! ## Gaps -/

/-- The characters mean nothing in front of `after`: white space other than line ends, and then
perhaps a comment from two slashes to the end of its line. -/
inductive IsGap (after : List Char) : List Char → Prop where
  | none : IsGap after []
  | blank {c : Char} {cs : List Char} (hblank : isBlank c = true) (hline : c ≠ '\n')
      (h : IsGap after cs) : IsGap after (c :: cs)
  | comment {cs : List Char} (hline : '\n' ∉ cs) (hends : ∀ c ∈ after.head?, c = '\n') :
      IsGap after ('/' :: '/' :: cs)

/-- What is dropped from the front stops at a character that stays. -/
theorem head?_dropWhile {p : Char → Bool} (cs : List Char) :
    ∀ c ∈ (cs.dropWhile p).head?, p c = false := by
  intro c hc
  have h := List.head?_dropWhile_not p cs
  rw [Option.mem_def.mp hc] at h
  exact h

theorem isGap_gap (cs : List Char) : IsGap (afterGap cs) (gap cs) := by
  fun_induction gap cs with
  | case1 rest =>
    refine .comment (fun hline => ?_) fun c hc => ?_
    · exact absurd (List.mem_takeWhile_imp hline) (by decide)
    · simpa using head?_dropWhile rest c hc
  | case2 c rest hcomment hc ih =>
    have hblank : c ≠ '\n' ∧ isBlank c = true := by simpa [isGap] using hc
    rw [afterGap, if_pos hc]
    · exact .blank hblank.2 hblank.1 ih
    · exact hcomment
  | case3 c rest hcomment hc => exact .none
  | case4 => exact .none

/-- No gap stands at the front of the characters. -/
def StartsNoGap (cs : List Char) : Prop :=
  ∀ gap after, cs = gap ++ after → IsGap after gap → gap = []

theorem startsNoGap_nil : StartsNoGap [] :=
  fun _ _ hcs _ => (List.append_eq_nil_iff.mp hcs.symm).1

theorem startsNoGap_of {c : Char} {cs : List Char} (hgap : isGap c = false)
    (hcomment : ∀ rest, c = '/' → cs = '/' :: rest → False) : StartsNoGap (c :: cs) := by
  intro gap after hcs h
  cases h with
  | none => rfl
  | blank hblank hline h =>
    cases hcs
    simp [isGap, hblank, hline] at hgap
  | comment hline hends =>
    cases hcs
    exact absurd rfl (hcomment _ rfl)

/-- A gap goes as far as it can. -/
theorem startsNoGap_afterGap (cs : List Char) : StartsNoGap (afterGap cs) := by
  fun_induction afterGap cs with
  | case1 rest =>
    cases hline : rest.dropWhile (· != '\n') with
    | nil => exact startsNoGap_nil
    | cons c rest' =>
      have hc : c = '\n' := by
        simpa using head?_dropWhile (p := (· != '\n')) rest c (by rw [hline]; rfl)
      subst hc
      exact startsNoGap_of (by decide) fun _ h _ => absurd h (by decide)
  | case2 c rest hcomment hc ih => exact ih
  | case3 c rest hcomment hc => exact startsNoGap_of (Bool.eq_false_iff.mpr hc) hcomment
  | case4 => exact startsNoGap_nil

/-! ## Words -/

/-- The characters are the text of the token, and `after` behind them does not go on with it. -/
inductive Spelled : Token → List Char → List Char → Prop where
  | name {name : String} {after : List Char} (hname : IsName name) (hstop : StopsWord after) :
      Spelled (.name name) name.toList after
  | number {digits after : List Char} (hne : digits ≠ [])
      (hdigits : ∀ c ∈ digits, c.isDigit = true)
      (hbound : Nat.ofDigitChars 10 digits 0 < numberBound)
      (hstop : ∀ c ∈ after.head?, c.isDigit = false ∧ startsName c = false) :
      Spelled (.number (Nat.ofDigitChars 10 digits 0)) digits after
  | symbol {s : Symbol} {after : List Char} : Spelled (.symbol s) [s.char] after
  | newline {after : List Char} : Spelled .newline ['\n'] after

/-- The characters start with what the problem is about: a number with a letter behind it, a
number that is too large, or a character that starts no token. -/
inductive Refused : Problem → List Char → Prop where
  | malformedNumber {digits after : List Char} {c : Char} (hne : digits ≠ [])
      (hdigits : ∀ c ∈ digits, c.isDigit = true) (hletter : startsName c = true) :
      Refused .malformedNumber (digits ++ c :: after)
  | numberTooLarge {digits after : List Char} (hdigits : ∀ c ∈ digits, c.isDigit = true)
      (hbound : numberBound ≤ Nat.ofDigitChars 10 digits 0)
      (hstop : ∀ c ∈ after.head?, c.isDigit = false ∧ startsName c = false) :
      Refused (.numberTooLarge (String.ofList digits)) (digits ++ after)
  | unexpectedCharacter {c : Char} {after : List Char}
      (hnone : ∀ t cs rest, ¬ Spelled t (c :: cs) rest) :
      Refused (.unexpectedCharacter c) (c :: after)

theorem ofChar?_eq_some {c : Char} {s : Symbol} (h : Symbol.ofChar? c = some s) : s.char = c := by
  simpa using List.find?_some h

/-- A token is spelled only by characters that start with a digit, as a name, with a line end or
with a symbol. -/
theorem Spelled.starts {t : Token} {c : Char} {cs after : List Char}
    (h : Spelled t (c :: cs) after) :
    c.isDigit = true ∨ startsName c = true ∨ c = '\n' ∨ ∃ s, Symbol.ofChar? c = some s := by
  generalize hword : c :: cs = word at h
  cases h with
  | name hname hstop =>
    obtain ⟨d, ds, hds, hd, -⟩ := hname
    rw [hds] at hword
    cases hword
    exact Or.inr (Or.inl hd)
  | number hne hdigits hbound hstop =>
    subst hword
    exact Or.inl (hdigits c List.mem_cons_self)
  | @symbol s =>
    cases hword
    exact Or.inr (Or.inr (Or.inr ⟨s, (symbol_char s).2.2.2.2⟩))
  | newline =>
    cases hword
    exact Or.inr (Or.inr (Or.inl rfl))

/-- Behind the digits at the front stands no digit, and if they are no malformed number, then no
letter either. -/
theorem stopsNumber_of {cs : List Char}
    (hletter : ¬ (cs.dropWhile Char.isDigit).head?.any startsName = true) :
    ∀ c ∈ (cs.dropWhile Char.isDigit).head?, c.isDigit = false ∧ startsName c = false := by
  intro c hc
  refine ⟨head?_dropWhile cs c hc, ?_⟩
  rw [Option.mem_def.mp hc] at hletter
  exact Bool.eq_false_iff.mpr hletter

/-- What stands at the front of a text is the text of a token, or it is refused. -/
theorem firstLexeme_exact (c : Char) (rest : List Char) : match firstLexeme c rest with
    | .ok lexeme => ∃ cs after, rest = cs ++ after ∧ lexeme.length = cs.length + 1 ∧
        Spelled lexeme.token (c :: cs) after
    | .error problem => Refused problem (c :: rest) := by
  unfold firstLexeme
  by_cases hdigit : c.isDigit = true
  · have hdigits : ∀ d ∈ c :: rest.takeWhile Char.isDigit, d.isDigit = true :=
      List.forall_mem_cons.mpr ⟨hdigit, fun d hd => List.mem_takeWhile_imp hd⟩
    have hrest : c :: rest = (c :: rest.takeWhile Char.isDigit) ++ rest.dropWhile Char.isDigit := by
      rw [List.cons_append, List.takeWhile_append_dropWhile]
    rw [if_pos hdigit]
    dsimp only
    by_cases hletter : (rest.dropWhile Char.isDigit).head?.any startsName = true
    · obtain ⟨d, hd, hstarts⟩ := (Option.any_eq_true startsName _).mp hletter
      obtain ⟨after, hafter⟩ := List.head?_eq_some_iff.mp hd
      rw [if_pos hletter, hrest, hafter]
      exact .malformedNumber (List.cons_ne_nil _ _) hdigits hstarts
    rw [if_neg hletter]
    have hstop := stopsNumber_of hletter
    by_cases hbound : decimalValue (c :: rest.takeWhile Char.isDigit) < numberBound
    · rw [if_pos hbound]
      exact ⟨_, _, List.takeWhile_append_dropWhile.symm, rfl,
        .number (List.cons_ne_nil _ _) hdigits hbound hstop⟩
    · have hrefused := Refused.numberTooLarge hdigits (Nat.le_of_not_lt hbound) hstop
      rw [if_neg hbound]
      rwa [← hrest] at hrefused
  rw [if_neg hdigit]
  by_cases hname : startsName c = true
  · have hall : IsName (String.ofList (c :: rest.takeWhile continuesName)) :=
      ⟨c, _, String.toList_ofList, hname, fun d hd => List.mem_takeWhile_imp hd⟩
    have hspelled := Spelled.name hall (head?_dropWhile (p := continuesName) rest)
    rw [String.toList_ofList] at hspelled
    rw [if_pos hname]
    exact ⟨_, _, List.takeWhile_append_dropWhile.symm, rfl, hspelled⟩
  rw [if_neg hname]
  by_cases hline : c = '\n'
  · subst hline
    exact ⟨[], rest, rfl, rfl, .newline⟩
  rw [if_neg hline]
  cases hsymbol : Symbol.ofChar? c with
  | some s =>
    cases ofChar?_eq_some hsymbol
    exact ⟨[], rest, rfl, rfl, .symbol⟩
  | none =>
    refine .unexpectedCharacter fun t cs after hspelled => ?_
    rcases hspelled.starts with hc | hc | hc | ⟨s, hc⟩
    · exact hdigit hc
    · exact hname hc
    · exact hline hc
    · rw [hsymbol] at hc
      cases hc

/-! ## What was read -/

/-- The tokens and the gaps in front of them make up what was read in front of `rest`, and each
token has its place. -/
inductive Tiles : List Char → List Placed → List Char → Prop where
  | nothing {rest : List Char} : Tiles [] [] rest
  | more {read gap word rest : List Char} {ts : List Placed} {t : Placed}
      (h : Tiles read ts (gap ++ (word ++ rest))) (hgap : IsGap (word ++ rest) gap)
      (hword : Spelled t.token word rest) (hplace : t.position = .behind (read ++ gap)) :
      Tiles (read ++ (gap ++ word)) (ts ++ [t]) rest

/-- How tokens end behind what was read: with a gap at the end of the text, or with a gap as far
as it goes in front of what is refused. -/
inductive EndsAt (read : List Char) : List Char → Ending → Prop where
  | finished {gap : List Char} (hgap : IsGap [] gap) :
      EndsAt read gap (.finished (.behind (read ++ gap)))
  | broken {gap rest : List Char} {problem : Problem} (hgap : IsGap rest gap)
      (hstop : StartsNoGap rest) (hrefused : Refused problem rest) :
      EndsAt read (gap ++ rest) (.broken ⟨.behind (read ++ gap), problem⟩)

variable {text : String} {ts : List Placed} {s behind : Scanner} {t : Placed} {e : Ending}

/-- A token that a scanner gives comes behind a gap and is spelled in front of what is left. -/
theorem Scanner.next_token (h : s.next = .token t behind) :
    ∃ gap word, s.rest = gap ++ (word ++ behind.rest) ∧ IsGap (word ++ behind.rest) gap ∧
      Spelled t.token word behind.rest ∧ t.position = s.position.advance gap ∧
      behind.position = s.position.advance (gap ++ word) := by
  have hall := gap_append_afterGap s.rest
  have hgap := isGap_gap s.rest
  cases hafter : afterGap s.rest with
  | nil =>
    rw [next_of_nil hafter] at h
    cases h
  | cons c rest =>
    rw [hafter] at hall hgap
    have hexact := firstLexeme_exact c rest
    cases hlexeme : firstLexeme c rest with
    | error problem =>
      rw [next_of_error hafter hlexeme] at h
      cases h
    | ok lexeme =>
      rw [hlexeme] at hexact
      obtain ⟨cs, after, rfl, hlength, hspelled⟩ := hexact
      have hdrop : (cs ++ after).drop (lexeme.length - 1) = after := by
        rw [hlength, Nat.add_sub_cancel, List.drop_left]
      have htake : (c :: (cs ++ after)).take lexeme.length = c :: cs := by
        rw [hlength, List.take_succ_cons, List.take_left]
      rw [next_of_ok hafter hlexeme, hdrop, htake, ← Position.advance_append] at h
      cases h
      exact ⟨_, c :: cs, hall.symm, hgap, hspelled, rfl, rfl⟩

/-- The last answer of a scanner is where its characters end, or where one of them is refused. -/
theorem Scanner.next_ending {read : List Char} (hplace : s.position = .behind read)
    (h : s.next = .ending e) : EndsAt read s.rest e := by
  have hall := gap_append_afterGap s.rest
  have hgap := isGap_gap s.rest
  have hstop := startsNoGap_afterGap s.rest
  have hposition := Position.advance_behind read (gap s.rest)
  rw [← hplace] at hposition
  cases hafter : afterGap s.rest with
  | nil =>
    rw [hafter, List.append_nil] at hall
    rw [hafter] at hgap
    rw [next_of_nil hafter, hposition] at h
    cases h
    rw [hall] at hgap ⊢
    exact .finished hgap
  | cons c rest =>
    rw [hafter] at hall hgap hstop
    have hexact := firstLexeme_exact c rest
    cases hlexeme : firstLexeme c rest with
    | error problem =>
      rw [hlexeme] at hexact
      rw [next_of_error hafter hlexeme, hposition] at h
      cases h
      have hends : EndsAt read _ _ := .broken hgap hstop hexact
      rwa [hall] at hends
    | ok lexeme =>
      rw [next_of_ok hafter hlexeme] at h
      cases h

/-- Whatever was asked for, the tokens tile what was read. -/
theorem Asked.tiles (h : Asked text ts s) :
    ∃ read, text.toList = read ++ s.rest ∧ s.position = .behind read ∧ Tiles read ts s.rest := by
  induction h with
  | nothing => exact ⟨[], rfl, rfl, .nothing⟩
  | more _ ht ih =>
    obtain ⟨read, htext, hplace, htiles⟩ := ih
    obtain ⟨gap, word, hrest, hgap, hword, hposition, hbehind⟩ := Scanner.next_token ht
    rw [hrest] at htext htiles
    rw [hplace, Position.advance_behind] at hposition hbehind
    refine ⟨read ++ (gap ++ word), ?_, hbehind, .more htiles hgap hword hposition⟩
    rw [htext, List.append_assoc, List.append_assoc]

/-! ## The end of asking -/

theorem Spelled.ne_nil {word after : List Char} {t : Token} (h : Spelled t word after) :
    word ≠ [] := by
  cases h with
  | name hname hstop =>
    obtain ⟨c, cs, hcs, -⟩ := hname
    rw [hcs]
    exact List.cons_ne_nil c cs
  | number hne hdigits hbound hstop => exact hne
  | symbol | newline => exact List.cons_ne_nil _ _

theorem Scanner.length_rest_lt (h : s.next = .token t behind) :
    behind.rest.length < s.rest.length := by
  obtain ⟨gap, word, hrest, -, hword, -, -⟩ := Scanner.next_token h
  have hpos : 0 < word.length := List.length_pos_iff.mpr hword.ne_nil
  rw [hrest, List.length_append, List.length_append]
  omega

/-- What was asked for and what is left are all tokens of the text. -/
theorem Asked.tokens_eq (h : Asked text ts s) :
    Tokens.ofText text = ⟨ts ++ s.tokens.placed, s.tokens.ending⟩ := by
  induction h with
  | nothing => rfl
  | more _ ht ih =>
    rw [ih, Scanner.tokens_eq, ht, List.append_assoc]
    rfl

/-- Asking comes to an end: there is a scanner behind all tokens of the text, and it gives how
they end. -/
theorem Asked.ends (h : Asked text ts s) :
    ∃ last, Asked text (Tokens.ofText text).placed last ∧
      last.next = .ending (Tokens.ofText text).ending := by
  -- Each token leaves fewer characters, so one answer is the last.
  induction hlength : s.rest.length using Nat.strongRecOn generalizing ts s with
  | ind length ih =>
    subst hlength
    cases hnext : s.next with
    | token t behind => exact ih _ (Scanner.length_rest_lt hnext) (h.more hnext) rfl
    | ending e =>
      rw [h.tokens_eq, s.tokens_eq, hnext, List.append_nil]
      exact ⟨s, h, hnext⟩

end Typewire.Language
