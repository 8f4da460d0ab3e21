-- Texts set one below the other. Nothing that is scanned or read crosses the line end between
-- them: a comment, a word and a statement all stop there, and no bracket stands open.
import Typewire.Proofs.Language.Moved

namespace Typewire.Language

open Typewire.Text

variable {a b : List Char}

/-! ## Scanning up to a line end -/

theorem takeWhile_append_neg {α : Type} {p : α → Bool} {x : α} (hx : ¬ p x = true)
    (xs ys : List α) : (xs ++ x :: ys).takeWhile p = xs.takeWhile p := by
  induction xs with
  | nil => exact List.takeWhile_cons_of_neg hx
  | cons y xs ih => rw [List.cons_append, List.takeWhile_cons, List.takeWhile_cons, ih]

theorem dropWhile_append_neg {α : Type} {p : α → Bool} {x : α} (hx : ¬ p x = true)
    (xs ys : List α) : (xs ++ x :: ys).dropWhile p = xs.dropWhile p ++ x :: ys := by
  induction xs with
  | nil => exact List.dropWhile_cons_of_neg hx
  | cons y xs ih =>
    rw [List.cons_append, List.dropWhile_cons, List.dropWhile_cons, ih]
    split <;> rfl

/-- A gap ends at a line end: it takes what it would take at the end of the text. -/
theorem gap_append (a b : List Char) :
    gap (a ++ '\n' :: b) = gap a ∧ afterGap (a ++ '\n' :: b) = afterGap a ++ '\n' :: b := by
  have hstop : ¬ ('\n' != '\n') = true := by decide
  fun_induction gap a with
  | case1 rest =>
    exact ⟨congrArg ('/' :: '/' :: ·) (takeWhile_append_neg (p := (· != '\n')) hstop rest b),
      dropWhile_append_neg (p := (· != '\n')) hstop rest b⟩
  | case2 c rest hcomment hc ih =>
    have hslash : c ≠ '/' := by
      rintro rfl
      exact absurd hc (by decide)
    have hopen {cs : List Char} (tail : List Char) : c = '/' → cs = '/' :: tail → False :=
      fun h => absurd h hslash
    rw [List.cons_append, gap, afterGap, afterGap, if_pos hc, if_pos hc, if_pos hc]
    · exact ⟨congrArg (c :: ·) ih.1, ih.2⟩
    all_goals exact hopen
  | case3 c rest hcomment hc =>
    have hopen (tail : List Char) : c = '/' → rest ++ '\n' :: b = '/' :: tail → False := by
      intro h hrest
      cases rest with
      | nil => cases hrest
      | cons d rest =>
        cases hrest
        exact hcomment _ h rfl
    rw [List.cons_append, gap, afterGap, afterGap, if_neg hc, if_neg hc, if_neg hc]
    · exact ⟨rfl, rfl⟩
    · exact hcomment
    · exact hopen
    · exact hopen
  | case4 => exact gap_cons b (by decide) (by decide)

/-- A word ends at a line end too. -/
theorem firstLexeme_append (c : Char) (a b : List Char) :
    firstLexeme c (a ++ '\n' :: b) = firstLexeme c a := by
  have hhead : ((a.dropWhile Char.isDigit) ++ '\n' :: b).head?.any startsName
      = (a.dropWhile Char.isDigit).head?.any startsName := by
    cases a.dropWhile Char.isDigit with
    | nil =>
      have hline : startsName '\n' = false := by decide
      exact hline
    | cons d rest => rfl
  rw [firstLexeme, firstLexeme, takeWhile_append_neg (by decide), takeWhile_append_neg (by decide),
    dropWhile_append_neg (by decide), hhead]

theorem length_of_firstLexeme {c : Char} {rest : List Char} {lexeme : Lexeme}
    (h : firstLexeme c rest = .ok lexeme) : ∃ n, lexeme.length = n + 1 ∧ n ≤ rest.length := by
  unfold firstLexeme at h
  split at h
  · dsimp only at h
    split at h
    · cases h
    split at h
    · cases h
      exact ⟨_, rfl, (List.takeWhile_sublist _).length_le⟩
    · cases h
  split at h
  · cases h
    exact ⟨_, rfl, (List.takeWhile_sublist _).length_le⟩
  split at h
  · cases h
    exact ⟨0, rfl, Nat.zero_le _⟩
  split at h
  · cases h
    exact ⟨0, rfl, Nat.zero_le _⟩
  · cases h

theorem Position.advance_append (p : Position) (cs ds : List Char) :
    p.advance (cs ++ ds) = (p.advance cs).advance ds := List.foldl_append

theorem gap_of_nil {cs : List Char} (h : afterGap cs = []) : gap cs = cs := by
  have hall := gap_append_afterGap cs
  rwa [h, List.append_nil] at hall

/-- A text is scanned in front of a line end as it is alone, and if it is all tokens, then what
stands below it is scanned on its own. -/
theorem scan_append (p : Position) (a b : List Char) :
    Tokens.scan p (a ++ '\n' :: b) = match (Tokens.scan p a).ending with
      | .broken _ => Tokens.scan p a
      | .finished _ =>
        let q := p.advance a
        let below := Tokens.scan (q.after '\n') b
        ⟨(Tokens.scan p a).placed ++ ⟨.newline, q⟩ :: below.placed, below.ending⟩ := by
  fun_induction Tokens.scan p a with
  | case1 p cs p' hafter =>
    obtain ⟨hgap, hafter'⟩ := gap_append cs b
    rw [hafter] at hafter'
    rw [scan_of_cons p hafter', hgap, gap_of_nil hafter]
    rfl
  | case2 p cs p' c rest hafter problem hlexeme =>
    obtain ⟨hgap, hafter'⟩ := gap_append cs b
    rw [hafter, List.cons_append] at hafter'
    rw [scan_of_cons p hafter', firstLexeme_append, hlexeme, hgap]
  | case3 p cs p' c rest hafter lexeme hlexeme more ih =>
    obtain ⟨hgap, hafter'⟩ := gap_append cs b
    obtain ⟨n, hn, hle⟩ := length_of_firstLexeme hlexeme
    have hq : (p'.advance ((c :: rest).take lexeme.length)).advance (rest.drop (lexeme.length - 1))
        = p.advance cs := by
      rw [hn, List.take_succ_cons, Nat.add_sub_cancel, ← Position.advance_append,
        ← Position.advance_append, List.cons_append, List.take_append_drop, ← hafter,
        gap_append_afterGap]
    have htake : (c :: (rest ++ '\n' :: b)).take lexeme.length
        = (c :: rest).take lexeme.length := by
      rw [hn, List.take_succ_cons, List.take_succ_cons, List.take_append_of_le_length hle]
    have hdrop : (rest ++ '\n' :: b).drop (lexeme.length - 1)
        = rest.drop (lexeme.length - 1) ++ '\n' :: b := by
      rw [hn, Nat.add_sub_cancel, List.drop_append_of_le_length hle]
    rw [hafter, List.cons_append] at hafter'
    rw [hq] at ih
    rw [scan_of_cons p hafter', firstLexeme_append, hlexeme, hgap]
    dsimp only [more]
    rw [htake, hdrop, ih]
    split <;> rfl

/-! ## Open brackets -/

/-- How many brackets stand open after the token. -/
def Token.depthAfter : Token → Nat → Nat
  | .symbol s, depth => s.depthAfter depth
  | _, depth => depth

theorem openBrackets_eq (depth : Nat) (ts : List Placed) :
    openBrackets depth ts = (tokensOf ts).foldl (fun depth t => t.depthAfter depth) depth := by
  induction ts generalizing depth with
  | nil => rfl
  | cons t ts ih =>
    refine (ih _).trans ?_
    rw [tokensOf_cons, List.foldl_cons]
    obtain ⟨token, position⟩ := t
    cases token <;> rfl

/-- As many brackets stand open after the tokens as before them. -/
def Balanced (ts : List Token) : Prop :=
  ∀ depth, ts.foldl (fun depth t => t.depthAfter depth) depth = depth

/-- A token that is no bracket. -/
def IsPlain (t : Token) : Prop := Balanced [t]

theorem isPlain_of_isComma {t : Token} (h : IsComma t) : IsPlain t := by
  intro depth
  rw [h]
  rfl

theorem isPlain_of_isCommaOrBar {t : Token} (h : IsCommaOrBar t) : IsPlain t := by
  intro depth
  rcases h with h | h <;> rw [h] <;> rfl

theorem isPlain_of_endsStatement {t : Placed} (h : EndsStatement t) : IsPlain t.token := by
  intro depth
  rcases h with h | h <;> rw [h] <;> rfl

theorem balanced_nil : Balanced [] := fun _ => rfl

theorem Balanced.append {ts us : List Token} (hts : Balanced ts) (hus : Balanced us) :
    Balanced (ts ++ us) := by
  intro depth
  rw [List.foldl_append, hts, hus]

theorem Balanced.cons {t : Token} {ts : List Token} (ht : IsPlain t) (hts : Balanced ts) :
    Balanced (t :: ts) := Balanced.append ht hts

theorem balanced_of_forall {ts : List Token} (h : ∀ t ∈ ts, IsPlain t) : Balanced ts := by
  induction ts with
  | nil => exact balanced_nil
  | cons t ts ih =>
    obtain ⟨ht, hts⟩ := List.forall_mem_cons.mp h
    exact .cons ht (ih hts)

/-- A pair of brackets around balanced tokens is balanced. -/
theorem Balanced.enclosed {ts : List Token} (h : Balanced ts) {l r : Symbol}
    (hl : l.isOpening = true) (hr : r.isClosing = true) :
    Balanced (.symbol l :: (ts ++ [.symbol r])) := by
  have hr' : r.isOpening = false := by
    revert hr
    cases r <;> decide
  intro depth
  rw [List.foldl_cons, List.foldl_append, h]
  simp [Token.depthAfter, Symbol.depthAfter, hl, hr, hr']

theorem Listed.balanced {α : Type} {item : α → List Token → Prop} {separator : Token → Prop}
    (hseparator : ∀ t, separator t → IsPlain t) {xs : List α} {ts : List Token}
    (h : Listed item separator xs ts)
    (hitem : ∀ x us, item x us → us.length ≤ ts.length → Balanced us) : Balanced ts := by
  induction h with
  | none => exact balanced_nil
  | last hx => exact hitem _ _ hx (Nat.le_refl _)
  | @more x xs s ts rest hx hs hxs ih =>
    rw [List.length_append, List.length_cons] at hitem
    refine (hitem x ts hx (by omega)).append (.cons (hseparator s hs) (ih fun y us hy hle => ?_))
    exact hitem y us hy (by omega)

theorem VariantWritten.balanced {v : String × Option TypeExpr × Option Nat} {ts : List Token}
    (h : VariantWritten Written v ts)
    (htype : ∀ t us, Written t us → us.length < ts.length → Balanced us) : Balanced ts := by
  cases h with
  | plain | tagged => exact fun _ => rfl
  | payload ht =>
    have hinner := htype _ _ ht (by simp only [List.length_cons]; omega)
    exact .cons (fun _ => rfl) (.cons (fun _ => rfl) hinner)
  | payloadTagged ht =>
    have hinner := htype _ _ ht (by simp only [List.length_cons, List.length_append]; omega)
    exact .cons (fun _ => rfl) (.cons (fun _ => rfl) (hinner.append fun _ => rfl))

theorem FieldWritten.balanced {f : String × TypeExpr} {ts : List Token}
    (h : FieldWritten Written f ts)
    (htype : ∀ t us, Written t us → us.length < ts.length → Balanced us) : Balanced ts := by
  cases h with
  | field ht =>
    have hinner := htype _ _ ht (by simp only [List.length_cons]; omega)
    exact .cons (fun _ => rfl) (.cons (fun _ => rfl) hinner)

/-- A type closes all brackets that it opens. -/
theorem Written.balanced {t : TypeExpr} {ts : List Token} (h : Written t ts) : Balanced ts := by
  induction hlength : ts.length using Nat.strongRecOn generalizing t ts with
  | ind length ih =>
    subst hlength
    have hshorter (p : TypeExpr) (us : List Token) (hp : Written p us)
        (hlt : us.length < ts.length) : Balanced us := ih us.length hlt hp rfl
    cases h with
    | primitive | index | name => exact fun _ => rfl
    | @applied name args ts hne hargs =>
      refine .cons (fun _ => rfl) (Balanced.enclosed ?_ rfl rfl)
      refine hargs.balanced (fun _ => isPlain_of_isComma) fun p us hp hle => hshorter p us hp ?_
      simp only [List.length_cons, List.length_append]
      omega
    | compact hinner => exact .cons (fun _ => rfl) (hshorter _ _ hinner (Nat.lt_succ_self _))
    | sequence helement =>
      refine Balanced.enclosed (hshorter _ _ helement ?_) rfl rfl
      simp only [List.length_cons, List.length_append]
      omega
    | @array element length ts helement =>
      have hinner := hshorter _ _ helement
        (by simp only [List.length_cons, List.length_append]; omega)
      have hlength : Balanced (ts ++ [.symbol .semicolon, .number length]) :=
        hinner.append fun _ => rfl
      have hall := hlength.enclosed (l := .leftBracket) (r := .rightBracket) rfl rfl
      rwa [List.append_assoc] at hall
    | @tuple members ts hmembers =>
      refine Balanced.enclosed ?_ rfl rfl
      refine hmembers.balanced (fun _ => isPlain_of_isComma) fun p us hp hle => hshorter p us hp ?_
      simp only [List.length_cons, List.length_append]
      omega
    | @enum variants ts hne hvariants =>
      refine Balanced.enclosed ?_ rfl rfl
      refine hvariants.balanced (fun _ => isPlain_of_isCommaOrBar) fun v us hv hle => ?_
      refine hv.balanced fun p vs hp hlt => hshorter p vs hp ?_
      simp only [List.length_cons, List.length_append]
      omega
    | @struct fields ts hfields =>
      refine Balanced.enclosed ?_ rfl rfl
      refine hfields.balanced (fun _ => isPlain_of_isComma) fun f us hf hle => ?_
      refine hf.balanced fun p vs hp hlt => hshorter p vs hp ?_
      simp only [List.length_cons, List.length_append]
      omega

theorem balanced_gap {gap : List Placed} (hgap : ∀ t ∈ gap, EndsStatement t) :
    Balanced (tokensOf gap) := by
  refine balanced_of_forall fun t ht => ?_
  obtain ⟨placed, hplaced, rfl⟩ := List.mem_map.mp ht
  exact isPlain_of_endsStatement (hgap placed hplaced)

theorem Stated.balanced {d : Definition} {ts : List Placed} (h : Stated d ts) :
    Balanced (tokensOf ts) := by
  cases h with
  | type hbody => exact hbody.balanced
  | @named name params body first equals head lineEnds ts hhead hequals hlineEnds hbody =>
    obtain ⟨t, hwritten, -⟩ := headWritten_iff.mp hhead
    have hmiddle := balanced_gap fun t ht => Or.inl (hlineEnds t ht)
    simp only [tokensOf_cons, tokensOf_append, hequals]
    exact hwritten.balanced.append (.cons (fun _ => rfl) (hmiddle.append hbody.balanced))

theorem StatedAll.balanced {ds : List Definition} {ts : List Placed} (h : StatedAll ds ts) :
    Balanced (tokensOf ts) := by
  induction h with
  | none hgap => exact balanced_gap hgap
  | last hgap hd =>
    rw [tokensOf_append]
    exact (balanced_gap hgap).append hd.balanced
  | more hgap hd hs _ ih =>
    rw [tokensOf_append, tokensOf_append, tokensOf_cons]
    exact (balanced_gap hgap).append (hd.balanced.append (.cons (isPlain_of_endsStatement hs) ih))

/-! ## Line ends inside brackets -/

theorem significant_newline (depth : Nat) (p : Position) (ts : List Placed) :
    Tokens.significant depth (⟨.newline, p⟩ :: ts)
      = if depth = 0 then ⟨.newline, p⟩ :: Tokens.significant depth ts
        else Tokens.significant depth ts := rfl

theorem significant_append (depth : Nat) (ts us : List Placed) :
    Tokens.significant depth (ts ++ us)
      = Tokens.significant depth ts ++ Tokens.significant (openBrackets depth ts) us := by
  induction ts generalizing depth with
  | nil => rfl
  | cons t ts ih =>
    obtain ⟨token, position⟩ := t
    cases token with
    | newline =>
      rw [List.cons_append, significant_newline, significant_newline, ih]
      split <;> rfl
    | symbol s => exact congrArg (_ :: ·) (ih _)
    | name text => exact congrArg (_ :: ·) (ih _)
    | number value => exact congrArg (_ :: ·) (ih _)

/-- Line ends that mean nothing open and close no bracket. -/
theorem openBrackets_significant (depth : Nat) (ts : List Placed) :
    openBrackets depth (Tokens.significant depth ts) = openBrackets depth ts := by
  induction ts generalizing depth with
  | nil => rfl
  | cons t ts ih =>
    obtain ⟨token, position⟩ := t
    cases token with
    | newline =>
      rw [significant_newline]
      split <;> exact ih depth
    | symbol s => exact ih _
    | name text => exact ih _
    | number value => exact ih _

theorem openBrackets_of_stated {ds : List Definition} {ts : List Placed}
    (h : StatedAll ds (Tokens.significant 0 ts)) : openBrackets 0 ts = 0 := by
  rw [← openBrackets_significant, openBrackets_eq]
  exact h.balanced 0

/-! ## Lines -/

theorem Position.line_advance (p : Position) (cs : List Char) :
    (p.advance cs).line = p.line + cs.count '\n' := by
  induction cs generalizing p with
  | nil => rfl
  | cons c cs ih =>
    refine (ih _).trans ?_
    rw [List.count_cons, Position.after]
    by_cases hc : c = '\n'
    · subst hc
      simp only [if_pos, beq_self_eq_true]
      omega
    · simp only [if_neg hc, beq_iff_eq]
      omega

theorem dropLines_append (n : Nat) (a b : List Char) :
    dropLines (n + a.count '\n' + 1) (a ++ '\n' :: b) = dropLines n b := by
  induction a with
  | nil => rfl
  | cons c a ih =>
    by_cases hc : c = '\n'
    · subst hc
      rw [List.count_cons_self]
      exact ih
    · have hstop : ¬ (c == '\n') = true := fun h => hc (beq_iff_eq.mp h)
      rw [List.count_cons_of_ne hc]
      exact (if_neg hstop).trans ih

/-! ## Texts below texts -/

/-- What is read of characters that stand at a place. -/
def definitionsAt (p : Position) (cs : List Char) : Except Fault (List Definition) :=
  readDefinitions (Tokens.scan p cs).ending (Tokens.significant 0 (Tokens.scan p cs).placed)

theorem definitionsAt_below (p : Position) (n : Nat) (cs : List Char) :
    definitionsAt (p.below n) cs = match definitionsAt p cs with
      | .ok ds => .ok (ds.map (·.below n))
      | .error fault => .error (fault.below n) := by
  unfold definitionsAt
  rw [scan_below]
  refine Eq.trans ?_ (readDefinitions_below n _ _)
  exact congrArg _ (significant_below n 0 _)

/-- A fault stands on a line of the text, and lines are counted from one. -/
theorem one_le_line {cs : List Char} {fault : Fault} (h : definitionsAt .start cs = .error fault) :
    1 ≤ fault.position.line := by
  have hbelow := definitionsAt_below ⟨0, 1⟩ 1 cs
  change definitionsAt .start cs = _ at hbelow
  rw [h] at hbelow
  cases hread : definitionsAt ⟨0, 1⟩ cs with
  | ok ds =>
    rw [hread] at hbelow
    cases hbelow
  | error fault =>
    rw [hread] at hbelow
    cases hbelow
    exact Nat.le_add_left 1 _

theorem definitionsAt_append {p : Position} {ds : List Definition}
    (h : definitionsAt p a = .ok ds) (b : List Char) :
    definitionsAt p (a ++ '\n' :: b)
      = (ds ++ ·) <$> definitionsAt ((p.advance a).after '\n') b := by
  obtain ⟨⟨q, hq⟩, hstated⟩ := readDefinitions_sound h
  have hend : openBrackets 0 (Tokens.scan p a).placed = 0 := openBrackets_of_stated hstated
  have hline : EndsStatement ⟨.newline, p.advance a⟩ := Or.inl rfl
  unfold definitionsAt
  rw [scan_append, hq]
  dsimp only
  rw [significant_append, hend, significant_newline, if_pos rfl,
    readDefinitions_append hstated (atEnd_cons hline)]
  exact congrArg _ (readDefinitions_skip (List.forall_mem_singleton.mpr hline))

/-- How many lines a text takes, with a line end after it. -/
def linesOf (text : String) : Nat := 1 + text.toList.count '\n'

theorem after_advance (text : String) :
    (Position.start.advance text.toList).after '\n' = Position.start.below (linesOf text) := by
  have hline := Position.line_advance .start text.toList
  change (⟨(Position.start.advance text.toList).line + 1, 1⟩ : Position)
    = ⟨1 + (1 + text.toList.count '\n'), 1⟩
  rw [hline, Nat.add_left_comm, Nat.add_comm 1]
  rfl

theorem ofFault_below (a b : String) {fault : Fault} (h : 1 ≤ fault.position.line) :
    SyntaxError.ofFault (a ++ "\n" ++ b) (fault.below (linesOf a))
      = (SyntaxError.ofFault b fault).below (linesOf a) := by
  have hline : (fault.below (linesOf a)).position.line - 1
      = fault.position.line - 1 + a.toList.count '\n' + 1 := by
    change fault.position.line + (1 + a.toList.count '\n') - 1 = _
    omega
  have htext : (a ++ "\n" ++ b).toList = a.toList ++ '\n' :: b.toList := by simp
  unfold SyntaxError.ofFault
  rw [hline, htext, nthLine, dropLines_append]
  rfl

/-- Texts join. A text with another below it states the definitions of the first and then those of
the second, each of these as many lines further down as the first text takes. Where the second is
rejected, both together are rejected with the same problem in the same column of the same line of
text, as many lines further down. -/
theorem a_text_below_another_is_read_as_it_is_alone (a b : String) (da : List Definition)
    (h : parseDefinitions a = .ok da) :
    parseDefinitions (a ++ "\n" ++ b) = match parseDefinitions b with
      | .ok db => .ok (da ++ db.map (·.below (linesOf a)))
      | .error e => .error (e.below (linesOf a)) := by
  have ha : definitionsAt .start a.toList = .ok da := mapError_eq_ok_iff.mp h
  have htext : (a ++ "\n" ++ b).toList = a.toList ++ '\n' :: b.toList := by simp
  have hjoined : definitionsAt .start (a ++ "\n" ++ b).toList
      = (da ++ ·) <$> definitionsAt (Position.start.below (linesOf a)) b.toList := by
    rw [htext, definitionsAt_append ha, after_advance]
  change (definitionsAt .start (a ++ "\n" ++ b).toList).mapError _
    = match (definitionsAt .start b.toList).mapError (SyntaxError.ofFault b) with
      | .ok db => .ok (da ++ db.map (·.below (linesOf a)))
      | .error e => .error (e.below (linesOf a))
  rw [hjoined, definitionsAt_below]
  cases hb : definitionsAt .start b.toList with
  | ok db => rfl
  | error fault => exact congrArg Except.error (ofFault_below a b (one_le_line hb))

/-- Below a line that ends in a comment, a definition is read one line further down, and so is a
fault reported. -/
theorem what_stands_below_a_comment_is_read :
    parseDefinitions "A = u8 // B" = .ok [⟨some "A", [], .named "u8" [], 1⟩] ∧
    parseDefinitions "A = u8 // B\nB = A"
      = .ok [⟨some "A", [], .named "u8" [], 1⟩, ⟨some "B", [], .named "A" [], 2⟩] ∧
    parseDefinitions "A = u8 // B\n<T> = T"
      = .error ⟨⟨⟨2, 1⟩, .definedNotName⟩, "<T> = T"⟩ := by
  have ha : parseDefinitions "A = u8 // B" = .ok [⟨some "A", [], .named "u8" [], 1⟩] := by
    with_unfolding_all rfl
  have hb : parseDefinitions "B = A" = .ok [⟨some "B", [], .named "A" [], 1⟩] := by
    with_unfolding_all rfl
  have hfault : parseDefinitions "<T> = T" = .error ⟨⟨⟨1, 1⟩, .definedNotName⟩, "<T> = T"⟩ := by
    with_unfolding_all rfl
  have hjoined := a_text_below_another_is_read_as_it_is_alone "A = u8 // B" "B = A" _ ha
  have hfails := a_text_below_another_is_read_as_it_is_alone "A = u8 // B" "<T> = T" _ ha
  rw [hb] at hjoined
  rw [hfault] at hfails
  exact ⟨ha, hjoined, hfails⟩

end Typewire.Language
