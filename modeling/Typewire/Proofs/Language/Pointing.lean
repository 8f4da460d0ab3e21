-- Where the errors of a text point. A reader that fails blames a token that it was given or what
-- ended the tokens, so an error stands at a token, at refused characters or at the end of the
-- text, and shows the line that this is on.
import Typewire.Proofs.Language.Tiled

namespace Typewire.Language

open Typewire.Text

/-! ## Faults of readers -/

/-- The fault stands at one of the tokens or at their end, or it is what ended them. -/
def PointsAt (e : Ending) (ts : List Placed) (fault : Fault) : Prop :=
  (∃ t ∈ ts, fault.position = t.position) ∨ e = .finished fault.position ∨ e = .broken fault

theorem PointsAt.mono {e : Ending} {ts us : List Placed} {fault : Fault} (h : PointsAt e ts fault)
    (hsub : ts ⊆ us) : PointsAt e us fault := by
  rcases h with ⟨t, ht, hposition⟩ | h
  · exact Or.inl ⟨t, hsub ht, hposition⟩
  · exact Or.inr h

/-- The tokens end as `e` says, and reading stays within them: what is left is an end of them, and
a fault points at them. -/
inductive Within {α : Type} (e : Ending) (all : List Placed) {ts : List Placed} :
    Outcome α ts → Prop where
  | read {x : α} {rest : List Placed} {hr : rest.length < ts.length} (hrest : rest <:+ all) :
      Within e all (.ok ⟨x, rest, hr⟩)
  | failed {fault : Fault} (h : PointsAt e all fault) : Within e all (.error fault)

section

variable {α β : Type} {e : Ending} {all ts us : List Placed}

theorem Within.bind {r : Outcome α ts} {next : Reading α ts → Outcome β us}
    (h : Within e all r)
    (hnext : ∀ x rest hr, rest <:+ all → Within e all (next ⟨x, rest, hr⟩)) :
    Within e all (r >>= next) := by
  cases h with
  | read hrest => exact hnext _ _ _ hrest
  | failed h => exact .failed h

theorem Within.of_ok {x : α} {rest : List Placed} {hr : rest.length < ts.length}
    (h : Within e all (.ok ⟨x, rest, hr⟩ : Outcome α ts)) : rest <:+ all := by
  cases h with
  | read hrest => exact hrest

theorem Within.of_error {fault : Fault} (h : Within e all (.error fault : Outcome α ts)) :
    PointsAt e all fault := by
  cases h with
  | failed h => exact h

theorem pointsAt_faultAt (problem : Option Token → Problem) (h : us <:+ all) :
    PointsAt e all (e.faultAt problem us) := by
  cases us with
  | cons t us => exact Or.inl ⟨t, h.subset List.mem_cons_self, rfl⟩
  | nil =>
    cases e with
    | finished p => exact Or.inr (Or.inl rfl)
    | broken fault => exact Or.inr (Or.inr rfl)

theorem pointsAt_unexpected (wanted : Wanted) (h : us <:+ all) :
    PointsAt e all (e.unexpected wanted us) := pointsAt_faultAt _ h

theorem suffix_of_cons {t : Placed} (h : t :: us <:+ all) : us <:+ all :=
  (List.suffix_cons t us).trans h

theorem within_readSymbol (s : Symbol) (wanted : Wanted) (h : ts <:+ all) :
    Within e all (readSymbol e s wanted ts) := by
  cases ts with
  | nil => exact .failed (pointsAt_unexpected wanted h)
  | cons t ts =>
    dsimp only [readSymbol]
    split
    · exact .read (suffix_of_cons h)
    · exact .failed (pointsAt_unexpected wanted h)

theorem within_readName (wanted : Wanted) (h : ts <:+ all) :
    Within e all (readName e wanted ts) := by
  cases ts with
  | nil => exact .failed (pointsAt_unexpected wanted h)
  | cons t ts =>
    dsimp only [readName]
    split
    · exact .read (suffix_of_cons h)
    · exact .failed (pointsAt_unexpected wanted h)

theorem within_readNumber (wanted : Wanted) (h : ts <:+ all) :
    Within e all (readNumber e wanted ts) := by
  cases ts with
  | nil => exact .failed (pointsAt_unexpected wanted h)
  | cons t ts =>
    dsimp only [readNumber]
    split
    · exact .read (suffix_of_cons h)
    · exact .failed (pointsAt_unexpected wanted h)

/-! ## Lists -/

/-- A reader that stays within the tokens. -/
def StaysWithin (e : Ending) (all : List Placed) {bound : Nat} (reader : ReaderBelow bound α) :
    Prop :=
  ∀ us h, us <:+ all → Within e all (reader us h)

variable {bound : Nat}

theorem within_readItems {item : ReaderBelow bound α} (hitem : StaysWithin e all item)
    (style : ListStyle) : StaysWithin e all (readItems e style bound item) := by
  intro ts h hts
  fun_induction readItems e style bound item ts h with
  | case1 h => exact .failed (pointsAt_unexpected _ hts)
  | case2 t ts h hclose => exact .read (suffix_of_cons hts)
  | case3 t ts h hclose fault hx => exact .failed (hx ▸ hitem _ _ hts).of_error
  | case4 t ts h hclose x _ _ _ hx =>
    exact .failed (pointsAt_unexpected _ (hx ▸ hitem _ _ hts).of_ok)
  | case5 t ts h hclose x s later _ hs fault hxs _ _ hx ih =>
    have hlater := suffix_of_cons (hx ▸ hitem _ _ hts).of_ok
    exact .failed (hxs ▸ ih hlater).of_error
  | case6 t ts h hclose x s later _ hs xs last _ hxs _ _ hx ih =>
    have hlater := suffix_of_cons (hx ▸ hitem _ _ hts).of_ok
    exact .read (hxs ▸ ih hlater).of_ok
  | case7 t ts h hclose x s later _ hs hend _ _ hx =>
    exact .read (suffix_of_cons (hx ▸ hitem _ _ hts).of_ok)
  | case8 t ts h hclose x s later _ hs hend _ _ hx =>
    exact .failed (pointsAt_unexpected _ (hx ▸ hitem _ _ hts).of_ok)

/-! ## Variants, fields and types -/

theorem within_readVariant {type : TypeReader bound} (htype : StaysWithin e all type) :
    StaysWithin e all (fun ts h => readVariant e type ts h) := by
  intro ts h hts
  refine (within_readName _ hts).bind fun name ts₁ _ h₁ => ?_
  dsimp only
  split
  · refine (within_readSymbol _ _ h₁).bind fun _ ts₂ _ h₂ => ?_
    dsimp only
    split
    · refine (within_readSymbol _ _ h₂).bind fun _ ts₃ _ h₃ => ?_
      exact (within_readNumber _ h₃).bind fun _ _ _ h₄ => .read h₄
    · refine (htype ts₂ _ h₂).bind fun _ ts₃ _ h₃ => ?_
      dsimp only
      split
      · refine (within_readSymbol _ _ h₃).bind fun _ ts₄ _ h₄ => ?_
        exact (within_readNumber _ h₄).bind fun _ _ _ h₅ => .read h₅
      · exact .read h₃
  · exact .read h₁

theorem within_readField {type : TypeReader bound} (htype : StaysWithin e all type) :
    StaysWithin e all (fun ts h => readField e type ts h) := by
  intro ts h hts
  refine (within_readName _ hts).bind fun name ts₁ _ h₁ => ?_
  refine (within_readSymbol _ _ h₁).bind fun _ ts₂ _ h₂ => ?_
  exact (htype ts₂ _ h₂).bind fun _ _ _ h₃ => .read h₃

theorem within_readTypeWith {type : TypeReader ts.length} (htype : StaysWithin e all type)
    (hts : ts <:+ all) : Within e all (readTypeWith e ts type) := by
  cases ts with
  | nil => exact .failed (pointsAt_unexpected _ hts)
  | cons t ts =>
    have hrest := suffix_of_cons hts
    obtain ⟨token, position⟩ := t
    cases token with
    | number i => exact .read hrest
    | newline => exact .failed (pointsAt_unexpected _ hts)
    | name name =>
      cases ts with
      | nil => exact .read hrest
      | cons s ts =>
        dsimp only [readTypeWith]
        split
        · refine (within_readItems htype .arguments _ _ (suffix_of_cons hrest)).bind
            fun args rest _ h => ?_
          dsimp only
          split
          · exact .failed (pointsAt_faultAt _ h)
          · exact .read h
        · exact .read hrest
    | symbol s =>
      cases s with
      | hash => exact (within_readName _ hrest).bind fun _ _ _ h => .read h
      | atSign => exact (htype ts _ hrest).bind fun _ _ _ h => .read h
      | leftBracket =>
        refine (htype ts _ hrest).bind fun element ts₁ _ h₁ => ?_
        dsimp only
        split
        · refine (within_readSymbol _ _ h₁).bind fun _ ts₂ _ h₂ => ?_
          refine (within_readNumber _ h₂).bind fun _ ts₃ _ h₃ => ?_
          exact (within_readSymbol _ _ h₃).bind fun _ _ _ h₄ => .read h₄
        · exact (within_readSymbol _ _ h₁).bind fun _ _ _ h₂ => .read h₂
      | leftParen =>
        exact (within_readItems htype .tuple _ _ hrest).bind fun _ _ _ h => .read h
      | leftAngle =>
        refine (within_readItems (within_readVariant htype) .variants _ _ hrest).bind
          fun variants rest _ h => ?_
        dsimp only
        -- An enum without variants is blamed at its bracket, unless the text breaks off behind it.
        split
        · split
          · exact .failed (Or.inr (Or.inr rfl))
          · exact .failed (Or.inl ⟨_, hts.subset List.mem_cons_self, rfl⟩)
        · exact .read h
      | leftBrace =>
        exact (within_readItems (within_readField htype) .fields _ _ hrest).bind
          fun _ _ _ h => .read h
      | _ => exact .failed (pointsAt_unexpected _ hts)

/-- Reading a type stays within the tokens. -/
theorem within_readType (hts : ts <:+ all) : Within e all (readType e ts) := by
  induction hlength : ts.length using Nat.strongRecOn generalizing ts with
  | ind length ih =>
    subst hlength
    rw [readType]
    exact within_readTypeWith (fun inner h hinner => ih inner.length h hinner rfl) hts

/-! ## Definitions -/

theorem within_readDefinition {first : Placed} (hts : first :: ts <:+ all) :
    Within e all (readDefinition e first.position (first :: ts)) := by
  refine (within_readType hts).bind fun head ts₁ _ h₁ => ?_
  dsimp only
  split
  · cases hhead : headOf head with
    | error problem => exact .failed (Or.inl ⟨first, hts.subset List.mem_cons_self, rfl⟩)
    | ok names =>
      refine (within_readSymbol _ _ h₁).bind fun _ ts₂ _ h₂ => ?_
      have h₃ := (List.dropWhile_suffix (·.token == .newline)).trans h₂
      exact (within_readType h₃).bind fun _ _ _ h₄ => .read h₄
  · exact .read h₁

/-- A fault of definitions points at the tokens. -/
theorem pointsAt_of_readDefinitions {fault : Fault} (hts : ts <:+ all)
    (h : readDefinitions e ts = .error fault) : PointsAt e all fault := by
  induction hlength : ts.length using Nat.strongRecOn generalizing ts with
  | ind length ih =>
    have hskip := (List.dropWhile_suffix isSeparator).trans hts
    cases hcons : ts.dropWhile isSeparator with
    | nil =>
      rw [readDefinitions_of_nil hcons] at h
      cases e with
      | finished p => cases h
      | broken fault =>
        cases h
        exact Or.inr (Or.inr rfl)
    | cons t rest =>
      rw [hcons] at hskip
      rw [readDefinitions_of_cons hcons] at h
      have hread : Within e all (readDefinition e t.position (t :: rest)) :=
        within_readDefinition hskip
      cases hd : readDefinition e t.position (t :: rest) with
      | error fault =>
        rw [hd] at h hread
        cases h
        exact hread.of_error
      | ok r =>
        obtain ⟨d, after, hr⟩ := r
        rw [hd] at h hread
        have hafter := hread.of_ok
        dsimp only at h
        split at h
        · cases hmore : readDefinitions e after with
          | error fault =>
            rw [hmore] at h
            cases h
            have hle := (List.dropWhile_suffix isSeparator (l := ts)).length_le
            rw [hcons] at hle
            exact ih after.length (by omega) hafter hmore rfl
          | ok ds =>
            rw [hmore] at h
            cases h
        · cases h
          exact pointsAt_unexpected _ hafter

/-- A fault of a type alone points at the tokens. -/
theorem pointsAt_of_readOnlyType {fault : Fault} (h : readOnlyType e all = .error fault) :
    PointsAt e all fault := by
  have hread : Within e all (readType e (all.dropWhile isSeparator)) :=
    within_readType (List.dropWhile_suffix isSeparator)
  cases ht : readType e (all.dropWhile isSeparator) with
  | error fault =>
    rw [readOnlyType, ht] at h
    rw [ht] at hread
    cases h
    exact hread.of_error
  | ok r =>
    obtain ⟨t, after, hr⟩ := r
    have hafter := (reading_bind_eq ht _).symm.trans h
    rw [ht] at hread
    have hrest := (List.dropWhile_suffix isSeparator).trans hread.of_ok
    dsimp only at hafter
    split at hafter
    · cases hafter
    · cases hafter
      exact pointsAt_unexpected _ hrest

/-- What is left of the tokens inside brackets are tokens of the text. -/
theorem significant_subset (depth : Nat) (ts : List Placed) : Tokens.significant depth ts ⊆ ts := by
  rw [significant_eq]
  intro t ht
  obtain ⟨⟨t, n⟩, hmem, rfl⟩ := List.mem_map.mp ht
  exact List.fst_mem_of_mem_zipIdx (List.mem_of_mem_filter hmem)

end

/-! ## Lines -/

/-- A line of a text, counted from one, without the white space at its end. Past the last line it
is empty. -/
def lineOf (text : String) (n : Nat) : String :=
  String.ofList (((text.toList.splitOn '\n').getD (n - 1) []).rdropWhile isBlank)

theorem takeWhile_dropLines (n : Nat) (cs : List Char) :
    (dropLines n cs).takeWhile (· != '\n') = (cs.splitOn '\n').getD n [] := by
  induction cs generalizing n with
  | nil => cases n <;> rfl
  | cons c cs ih =>
    rw [List.splitOn, List.splitOnP_cons_eq_if_modifyHead]
    by_cases hc : c = '\n'
    · subst hc
      cases n with
      | zero => rfl
      | succ n => exact ih n
    · have hstop : ¬ (c == '\n') = true := fun h => hc (beq_iff_eq.mp h)
      have hgoes : (c != '\n') = true := bne_iff_ne.mpr hc
      rw [if_neg hstop]
      change _ = (List.modifyHead (c :: ·) (cs.splitOn '\n')).getD n []
      obtain ⟨line, lines, hlines⟩ := List.exists_cons_of_ne_nil (List.splitOn_ne_nil '\n' cs)
      cases n with
      | zero =>
        have hline := ih 0
        rw [dropLines, hlines] at hline
        rw [dropLines, hlines, List.takeWhile_cons, if_pos hgoes, hline]
        rfl
      | succ n =>
        have hline := ih (n + 1)
        rw [hlines] at hline ⊢
        rw [dropLines, if_neg hstop]
        exact hline

/-- An error shows the line that its fault stands on. -/
theorem sourceLine_ofFault (text : String) (fault : Fault) :
    (SyntaxError.ofFault text fault).sourceLine = lineOf text fault.position.line := by
  change String.ofList (nthLine _ _) = _
  rw [nthLine, takeWhile_dropLines]
  rfl

/-! ## Errors -/

theorem mapError_eq_error_iff {α β γ : Type} {f : α → β} {x : Except α γ} {y : β} :
    x.mapError f = .error y ↔ ∃ problem, x = .error problem ∧ f problem = y := by
  cases x with
  | error problem => simp [Except.mapError]
  | ok value => simp [Except.mapError]

/-- An error of a text is a fault that points at its tokens, with the line that it is on. -/
theorem error_points {text : String} {error : SyntaxError}
    (h : parseDefinitions text = .error error ∨ parseTypeExpr text = .error error) :
    PointsAt (Tokens.ofText text).ending (Tokens.ofText text).placed error.fault ∧
      error.sourceLine = lineOf text error.fault.position.line := by
  have hsubset := significant_subset 0 (Tokens.ofText text).placed
  rcases h with h | h
  · obtain ⟨fault, hfault, rfl⟩ := mapError_eq_error_iff.mp h
    have hpoints := pointsAt_of_readDefinitions (List.suffix_refl _) hfault
    exact ⟨hpoints.mono hsubset, sourceLine_ofFault text fault⟩
  · obtain ⟨fault, hfault, rfl⟩ := mapError_eq_error_iff.mp h
    have hpoints := pointsAt_of_readOnlyType hfault
    exact ⟨hpoints.mono hsubset, sourceLine_ofFault text fault⟩

/-- Asking for one token after another ends, behind all tokens of a text. Whatever was asked for
by then, the tokens in order and the gaps in front of them make up what was read, each token has
the line and the column of its first character, and where the tokens end there is only a gap left
or something that is refused. Every error of a text stands at one of these tokens, at what is
refused or at the end of the text, and shows the line that this is on. -/
theorem tokens_tile_the_text_and_errors_point_into_it (text : String) :
    (∃ s, Asked text (Tokens.ofText text).placed s ∧
      s.next = .ending (Tokens.ofText text).ending) ∧
    (∀ ts s, Asked text ts s → ts <+: (Tokens.ofText text).placed ∧
      ∃ read, text.toList = read ++ s.rest ∧ Tiles read ts s.rest ∧
        ∀ e, s.next = .ending e → EndsAt read s.rest e) ∧
    ∀ error, parseDefinitions text = .error error ∨ parseTypeExpr text = .error error →
      PointsAt (Tokens.ofText text).ending (Tokens.ofText text).placed error.fault ∧
      error.sourceLine = lineOf text error.fault.position.line := by
  refine ⟨Asked.nothing.ends, fun ts s h => ?_, fun error => error_points⟩
  obtain ⟨read, htext, hplace, htiles⟩ := h.tiles
  refine ⟨?_, read, htext, htiles, fun e => Scanner.next_ending hplace⟩
  rw [h.tokens_eq]
  exact List.prefix_append ts _

/-- A malformed number on the line below a comment is pointed at, and its line is shown without
the blank at the end. -/
theorem a_malformed_number_is_pointed_at :
    parseDefinitions "A = u8 // B\n  A = 3x " = .error ⟨⟨⟨2, 7⟩, .malformedNumber⟩, "  A = 3x"⟩ ∧
    (∃ read rest, "A = u8 // B\n  A = 3x ".toList = read ++ rest ∧
      Tiles read (Tokens.ofText "A = u8 // B\n  A = 3x ").placed rest ∧
      EndsAt read rest (.broken ⟨⟨2, 7⟩, .malformedNumber⟩)) ∧
    lineOf "A = u8 // B\n  A = 3x " 2 = "  A = 3x" := by
  have herror : parseDefinitions "A = u8 // B\n  A = 3x "
      = .error ⟨⟨⟨2, 7⟩, .malformedNumber⟩, "  A = 3x"⟩ := by
    with_unfolding_all rfl
  have hending : (Tokens.ofText "A = u8 // B\n  A = 3x ").ending
      = .broken ⟨⟨2, 7⟩, .malformedNumber⟩ := by
    with_unfolding_all rfl
  obtain ⟨⟨s, hasked, hnext⟩, htiles, herrors⟩ :=
    tokens_tile_the_text_and_errors_point_into_it "A = u8 // B\n  A = 3x "
  obtain ⟨-, read, htext, htiles, hends⟩ := htiles _ s hasked
  obtain ⟨-, hline⟩ := herrors _ (Or.inl herror)
  rw [hending] at hnext
  exact ⟨herror, ⟨read, s.rest, htext, htiles, hends _ hnext⟩, hline.symm⟩

end Typewire.Language
