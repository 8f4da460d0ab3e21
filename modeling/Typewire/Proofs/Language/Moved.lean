-- Texts that stand some lines further down. Scanning and reading look at positions only to report
-- them, so what is found further down is what was found before, at later lines.
import Typewire.Proofs.Language.Accepted
import Typewire.Proofs.Language.Spelling

namespace Typewire.Language

open Typewire.Text

/-! ## Further down -/

/-- The place that many lines further down. -/
def Position.below (p : Position) (lines : Nat) : Position := ⟨p.line + lines, p.column⟩

/-- The token that many lines further down. -/
def Placed.below (t : Placed) (lines : Nat) : Placed := ⟨t.token, t.position.below lines⟩

/-- The fault that many lines further down. -/
def Fault.below (f : Fault) (lines : Nat) : Fault := ⟨f.position.below lines, f.problem⟩

/-- The end of tokens that many lines further down. -/
def Ending.below (lines : Nat) : Ending → Ending
  | .finished p => .finished (p.below lines)
  | .broken fault => .broken (fault.below lines)

/-- Tokens that many lines further down. -/
def Placed.allBelow (lines : Nat) (ts : List Placed) : List Placed := ts.map (·.below lines)

/-- The tokens of a text that many lines further down. -/
def Tokens.below (ts : Tokens) (lines : Nat) : Tokens :=
  ⟨Placed.allBelow lines ts.placed, ts.ending.below lines⟩

/-- The definition that many lines further down. -/
def Definition.below (d : Definition) (lines : Nat) : Definition :=
  { d with line := d.line + lines }

/-- The error that many lines further down, with the line that it points into. -/
def SyntaxError.below (e : SyntaxError) (lines : Nat) : SyntaxError :=
  { e with fault := e.fault.below lines }

variable {n : Nat}

theorem allBelow_nil : Placed.allBelow n [] = [] := rfl

theorem allBelow_cons (t : Placed) (ts : List Placed) :
    Placed.allBelow n (t :: ts) = t.below n :: Placed.allBelow n ts := rfl

theorem Position.after_below (p : Position) (n : Nat) (c : Char) :
    (p.below n).after c = (p.after c).below n := by
  unfold Position.after
  split
  · simp only [Position.below, Nat.add_right_comm]
  · rfl

theorem Position.advance_below (p : Position) (n : Nat) (cs : List Char) :
    (p.below n).advance cs = (p.advance cs).below n := by
  induction cs generalizing p with
  | nil => rfl
  | cons c cs ih =>
    change ((p.below n).after c).advance cs = _
    rw [p.after_below, ih]
    rfl

/-- A text is scanned further down as it is where it stands. -/
theorem scan_below (p : Position) (n : Nat) (cs : List Char) :
    Tokens.scan (p.below n) cs = (Tokens.scan p cs).below n := by
  fun_induction Tokens.scan p cs with
  | case1 p cs p' hafter =>
    rw [scan_of_nil _ hafter, p.advance_below]
    rfl
  | case2 p cs p' c rest hafter problem hlexeme =>
    rw [scan_of_cons _ hafter, hlexeme, p.advance_below]
    rfl
  | case3 p cs p' c rest hafter lexeme hlexeme more ih =>
    rw [scan_of_cons _ hafter, hlexeme, p.advance_below]
    dsimp only
    rw [Position.advance_below, ih]
    rfl

theorem significant_below (n depth : Nat) (ts : List Placed) :
    Tokens.significant depth (Placed.allBelow n ts)
      = Placed.allBelow n (Tokens.significant depth ts) := by
  induction ts generalizing depth with
  | nil => rfl
  | cons t ts ih =>
    obtain ⟨token, position⟩ := t
    cases token with
    | newline =>
      change (if depth = 0 then _ :: Tokens.significant depth (Placed.allBelow n ts)
        else Tokens.significant depth (Placed.allBelow n ts)) = _
      rw [ih, Tokens.significant, apply_ite (Placed.allBelow n)]
      rfl
    | symbol s => exact congrArg (_ :: ·) (ih _)
    | name text => exact congrArg (_ :: ·) (ih _)
    | number value => exact congrArg (_ :: ·) (ih _)

/-! ## Readings further down -/

/-- What is read further down: the value as `change` has it there, with the same tokens after it,
or the same fault. -/
inductive Moves {α β : Type} (n : Nat) (change : α → β) {ts us : List Placed} :
    Outcome α ts → Outcome β us → Prop where
  | read {x rest hr hr'} :
    Moves n change (.ok ⟨x, rest, hr⟩) (.ok ⟨change x, Placed.allBelow n rest, hr'⟩)
  | failed {fault} : Moves n change (.error fault) (.error (fault.below n))

section

variable {α β γ δ : Type} {e : Ending} {ts us vs ws : List Placed}

theorem Moves.bind {f : α → β} {g : γ → δ} {r : Outcome α ts} {r' : Outcome β us}
    {next : Reading α ts → Outcome γ vs} {next' : Reading β us → Outcome δ ws}
    (h : Moves n f r r')
    (hnext : ∀ x rest hr hr', Moves n g (next ⟨x, rest, hr⟩)
      (next' ⟨f x, Placed.allBelow n rest, hr'⟩)) :
    Moves n g (r >>= next) (r' >>= next') := by
  cases h with
  | read => exact hnext _ _ _ _
  | failed => exact .failed

theorem faultAt_below (e : Ending) (problem : Option Token → Problem) (ts : List Placed) :
    (e.below n).faultAt problem (Placed.allBelow n ts) = (e.faultAt problem ts).below n := by
  cases ts with
  | cons t ts => rfl
  | nil => cases e <;> rfl

theorem unexpected_below (e : Ending) (wanted : Wanted) (ts : List Placed) :
    (e.below n).unexpected wanted (Placed.allBelow n ts) = (e.unexpected wanted ts).below n :=
  faultAt_below e _ ts

theorem moves_unexpected (f : α → β) (e : Ending) (wanted : Wanted) (ts : List Placed) :
    Moves n f (.error (e.unexpected wanted ts) : Outcome α vs)
      (.error ((e.below n).unexpected wanted (Placed.allBelow n ts)) : Outcome β ws) := by
  rw [unexpected_below]
  exact .failed

theorem startsWith_below (s : Symbol) (ts : List Placed) :
    startsWith s (Placed.allBelow n ts) = startsWith s ts := by
  cases ts <;> rfl

theorem moves_readSymbol (e : Ending) (s : Symbol) (wanted : Wanted) (ts : List Placed) :
    Moves n id (readSymbol e s wanted ts)
      (readSymbol (e.below n) s wanted (Placed.allBelow n ts)) := by
  cases ts with
  | nil => exact moves_unexpected id e wanted []
  | cons t ts =>
    by_cases ht : t.token = .symbol s
    · have ht' : (t.below n).token = .symbol s := ht
      rw [allBelow_cons, readSymbol_cons ht, readSymbol_cons ht']
      exact .read
    · have ht' : ¬ (t.below n).token = .symbol s := ht
      rw [allBelow_cons, readSymbol, if_neg ht, readSymbol, if_neg ht']
      exact moves_unexpected id e wanted (t :: ts)

theorem moves_readName (e : Ending) (wanted : Wanted) (ts : List Placed) :
    Moves n id (readName e wanted ts) (readName (e.below n) wanted (Placed.allBelow n ts)) := by
  cases ts with
  | nil => exact moves_unexpected id e wanted []
  | cons t ts =>
    obtain ⟨token, position⟩ := t
    cases token with
    | name text => exact .read
    | _ => exact moves_unexpected id e wanted _

theorem moves_readNumber (e : Ending) (wanted : Wanted) (ts : List Placed) :
    Moves n id (readNumber e wanted ts) (readNumber (e.below n) wanted (Placed.allBelow n ts)) := by
  cases ts with
  | nil => exact moves_unexpected id e wanted []
  | cons t ts =>
    obtain ⟨token, position⟩ := t
    cases token with
    | number value => exact .read
    | _ => exact moves_unexpected id e wanted _

/-! ## Lists -/

theorem Moves.of_ok {f : α → β} {r' : Outcome β us} {x : α} {rest : List Placed}
    {hr : rest.length < ts.length} (h : Moves n f (.ok ⟨x, rest, hr⟩ : Outcome α ts) r') :
    ∃ hr', r' = .ok ⟨f x, Placed.allBelow n rest, hr'⟩ := by
  cases h with
  | read => exact ⟨_, rfl⟩

theorem Moves.of_error {f : α → β} {r' : Outcome β us} {fault : Fault}
    (h : Moves n f (.error fault : Outcome α ts) r') : r' = .error (fault.below n) := by
  cases h with
  | failed => rfl

/-- Two readers read the same tokens alike, where they stand and further down. -/
def ReadsBelow {bound bound' : Nat} (n : Nat) (item : ReaderBelow bound α)
    (item' : ReaderBelow bound' α) : Prop :=
  ∀ ts us h h', us = Placed.allBelow n ts → Moves n id (item ts h) (item' us h')

variable {bound bound' : Nat}

theorem moves_readItems {item : ReaderBelow bound α} {item' : ReaderBelow bound' α}
    (hitem : ReadsBelow n item item') (style : ListStyle) {ts us : List Placed}
    (h : ts.length < bound) (h' : us.length < bound') (hus : us = Placed.allBelow n ts) :
    Moves n id (readItems e style bound item ts h)
      (readItems (e.below n) style bound' item' us h') := by
  fun_induction readItems e style bound item ts h generalizing us with
  | case1 h =>
    rw [allBelow_nil] at hus
    subst hus
    rw [readItems]
    exact moves_unexpected id e _ []
  | case2 t ts h hclose =>
    rw [allBelow_cons] at hus
    subst hus
    have hclose' : (t.below n).token = .symbol style.close := hclose
    rw [readItems, if_pos hclose']
    exact .read
  | case3 t ts h hclose fault hx =>
    rw [allBelow_cons] at hus
    subst hus
    have hclose' : ¬ (t.below n).token = .symbol style.close := hclose
    have hx' := (hx ▸ hitem _ _ h h' rfl).of_error
    rw [readItems, if_neg hclose', hx']
    exact .failed
  | case4 t ts h hclose x _ _ _ hx =>
    rw [allBelow_cons] at hus
    subst hus
    have hclose' : ¬ (t.below n).token = .symbol style.close := hclose
    obtain ⟨hr', hx'⟩ := (hx ▸ hitem _ _ h h' rfl).of_ok
    rw [readItems, if_neg hclose', hx']
    exact moves_unexpected id e _ []
  | case5 t ts h hclose x s later _ hs fault hxs _ _ hx ih =>
    rw [allBelow_cons] at hus
    subst hus
    have hclose' : ¬ (t.below n).token = .symbol style.close := hclose
    have hs' : style.separates (s.below n).token = true := hs
    obtain ⟨hr', hx'⟩ := (hx ▸ hitem _ _ h h' rfl).of_ok
    have hlater : (Placed.allBelow n later).length < bound' := by
      simp only [allBelow_cons, List.length_cons] at hr' h'
      omega
    have hxs' := (hxs ▸ ih hlater rfl).of_error
    rw [readItems, if_neg hclose', hx']
    simp only [allBelow_cons, id, if_pos hs', hxs']
    exact .failed
  | case6 t ts h hclose x s later _ hs xs last _ hxs _ _ hx ih =>
    rw [allBelow_cons] at hus
    subst hus
    have hclose' : ¬ (t.below n).token = .symbol style.close := hclose
    have hs' : style.separates (s.below n).token = true := hs
    obtain ⟨hr', hx'⟩ := (hx ▸ hitem _ _ h h' rfl).of_ok
    have hlater : (Placed.allBelow n later).length < bound' := by
      simp only [allBelow_cons, List.length_cons] at hr' h'
      omega
    obtain ⟨hl', hxs'⟩ := (hxs ▸ ih hlater rfl).of_ok
    rw [readItems, if_neg hclose', hx']
    simp only [allBelow_cons, id, if_pos hs', hxs']
    exact .read
  | case7 t ts h hclose x s later _ hs hend _ _ hx =>
    rw [allBelow_cons] at hus
    subst hus
    have hclose' : ¬ (t.below n).token = .symbol style.close := hclose
    have hs' : ¬ style.separates (s.below n).token = true := hs
    have hend' : (s.below n).token = .symbol style.close := hend
    obtain ⟨hr', hx'⟩ := (hx ▸ hitem _ _ h h' rfl).of_ok
    rw [readItems, if_neg hclose', hx']
    simp only [allBelow_cons, if_neg hs', if_pos hend']
    exact .read
  | case8 t ts h hclose x s later _ hs hend _ _ hx =>
    rw [allBelow_cons] at hus
    subst hus
    have hclose' : ¬ (t.below n).token = .symbol style.close := hclose
    have hs' : ¬ style.separates (s.below n).token = true := hs
    have hend' : ¬ (s.below n).token = .symbol style.close := hend
    obtain ⟨hr', hx'⟩ := (hx ▸ hitem _ _ h h' rfl).of_ok
    rw [readItems, if_neg hclose', hx']
    simp only [allBelow_cons, if_neg hs', if_neg hend']
    exact moves_unexpected id e _ (s :: later)

/-! ## Variants, fields and types -/

theorem moves_readVariant {type : TypeReader bound} {type' : TypeReader bound'}
    (htype : ReadsBelow n type type') :
    ReadsBelow n (fun ts h => readVariant e type ts h)
      (fun ts h => readVariant (e.below n) type' ts h) := by
  rintro ts us h h' rfl
  refine (moves_readName e _ ts).bind fun name ts₁ _ _ => ?_
  simp only [startsWith_below]
  split
  · refine (moves_readSymbol e _ _ ts₁).bind fun _ ts₂ _ _ => ?_
    simp only [startsWith_below]
    split
    · refine (moves_readSymbol e _ _ ts₂).bind fun _ ts₃ _ _ => ?_
      exact (moves_readNumber e _ ts₃).bind fun _ _ _ _ => .read
    · refine (htype ts₂ _ _ _ rfl).bind fun _ ts₃ _ _ => ?_
      simp only [startsWith_below]
      split
      · refine (moves_readSymbol e _ _ ts₃).bind fun _ ts₄ _ _ => ?_
        exact (moves_readNumber e _ ts₄).bind fun _ _ _ _ => .read
      · exact .read
  · exact .read

theorem moves_readField {type : TypeReader bound} {type' : TypeReader bound'}
    (htype : ReadsBelow n type type') :
    ReadsBelow n (fun ts h => readField e type ts h)
      (fun ts h => readField (e.below n) type' ts h) := by
  rintro ts us h h' rfl
  refine (moves_readName e _ ts).bind fun name ts₁ _ _ => ?_
  refine (moves_readSymbol e _ _ ts₁).bind fun _ ts₂ _ _ => ?_
  exact (htype ts₂ _ _ _ rfl).bind fun _ _ _ _ => .read

theorem moves_readTypeWith {ts us : List Placed} (hus : us = Placed.allBelow n ts)
    {type : TypeReader ts.length} {type' : TypeReader us.length} (htype : ReadsBelow n type type') :
    Moves n id (readTypeWith e ts type) (readTypeWith (e.below n) us type') := by
  cases ts with
  | nil =>
    rw [allBelow_nil] at hus
    subst hus
    exact moves_unexpected id e _ []
  | cons t ts =>
    rw [allBelow_cons] at hus
    subst hus
    obtain ⟨token, position⟩ := t
    cases token with
    | number i => exact .read
    | newline => exact moves_unexpected id e _ _
    | name name =>
      cases ts with
      | nil => exact .read
      | cons s ts =>
        simp only [readTypeWith, Placed.below, allBelow_cons]
        split
        · refine (moves_readItems htype .arguments _ _ rfl).bind fun args rest _ _ => ?_
          dsimp only [id]
          split
          · rw [faultAt_below]
            exact .failed
          · exact .read
        · exact .read
    | symbol s =>
      cases s with
      | hash => exact (moves_readName e _ ts).bind fun _ _ _ _ => .read
      | atSign => exact (htype ts _ _ _ rfl).bind fun _ _ _ _ => .read
      | leftBracket =>
        refine (htype ts _ _ _ rfl).bind fun element ts₁ _ _ => ?_
        simp only [startsWith_below]
        split
        · refine (moves_readSymbol e _ _ ts₁).bind fun _ ts₂ _ _ => ?_
          refine (moves_readNumber e _ ts₂).bind fun _ ts₃ _ _ => ?_
          exact (moves_readSymbol e _ _ ts₃).bind fun _ _ _ _ => .read
        · exact (moves_readSymbol e _ _ ts₁).bind fun _ _ _ _ => .read
      | leftParen => exact (moves_readItems htype .tuple _ _ rfl).bind fun _ _ _ _ => .read
      | leftAngle =>
        refine (moves_readItems (moves_readVariant htype) .variants _ _ rfl).bind
          fun variants rest _ _ => ?_
        dsimp only [id]
        split
        · cases rest with
          | nil => cases e <;> exact .failed
          | cons s rest => exact .failed
        · exact .read
      | leftBrace =>
        exact (moves_readItems (moves_readField htype) .fields _ _ rfl).bind fun _ _ _ _ => .read
      | _ => exact moves_unexpected id e _ _

/-- A type is read further down as it is where it stands. -/
theorem moves_readType (e : Ending) (ts : List Placed) :
    Moves n id (readType e ts) (readType (e.below n) (Placed.allBelow n ts)) := by
  induction hlength : ts.length using Nat.strongRecOn generalizing ts with
  | ind length ih =>
    subst hlength
    rw [readType, readType]
    refine moves_readTypeWith rfl ?_
    rintro inner us h - rfl
    exact ih inner.length h inner rfl

/-! ## Definitions -/

theorem dropWhile_below (skip : Placed → Bool) (hskip : ∀ t, skip (t.below n) = skip t)
    (ts : List Placed) :
    (Placed.allBelow n ts).dropWhile skip = Placed.allBelow n (ts.dropWhile skip) := by
  induction ts with
  | nil => rfl
  | cons t ts ih =>
    rw [allBelow_cons, List.dropWhile_cons, List.dropWhile_cons, hskip, ih]
    split <;> rfl

theorem moves_readDefinition (e : Ending) (start : Position) (ts : List Placed) :
    Moves n (·.below n) (readDefinition e start ts)
      (readDefinition (e.below n) (start.below n) (Placed.allBelow n ts)) := by
  refine (moves_readType e ts).bind fun head ts₁ _ _ => ?_
  simp only [id, startsWith_below]
  split
  · cases hhead : headOf head with
    | error problem => exact .failed
    | ok names =>
      refine (moves_readSymbol e _ _ ts₁).bind fun _ ts₂ _ _ => ?_
      have hbody := moves_readType (n := n) e (ts₂.dropWhile (·.token == .newline))
      rw [← dropWhile_below (·.token == .newline) fun _ => rfl] at hbody
      exact hbody.bind fun _ _ _ _ => .read
  · exact .read

/-- Definitions are read further down as they are where they stand, and a fault is reported further
down. -/
theorem readDefinitions_below (n : Nat) (e : Ending) (ts : List Placed) :
    readDefinitions (e.below n) (Placed.allBelow n ts)
      = match readDefinitions e ts with
        | .ok ds => .ok (ds.map (·.below n))
        | .error fault => .error (fault.below n) := by
  induction hlength : ts.length using Nat.strongRecOn generalizing ts with
  | ind length ih =>
    have hskip := dropWhile_below (n := n) isSeparator (fun _ => rfl) ts
    cases hts : ts.dropWhile isSeparator with
    | nil =>
      rw [readDefinitions_of_nil hts, readDefinitions_of_nil (hskip.trans (congrArg _ hts))]
      cases e <;> rfl
    | cons t rest =>
      have hbelow : (Placed.allBelow n ts).dropWhile isSeparator
          = t.below n :: Placed.allBelow n rest := hskip.trans (congrArg _ hts)
      have hread : Moves n (·.below n) (readDefinition e t.position (t :: rest))
          (readDefinition (e.below n) (t.below n).position (t.below n :: Placed.allBelow n rest)) :=
        moves_readDefinition e t.position (t :: rest)
      rw [readDefinitions_of_cons hts, readDefinitions_of_cons hbelow]
      cases hd : readDefinition e t.position (t :: rest) with
      | error fault =>
        have hd' := (hd ▸ hread).of_error
        rw [hd']
      | ok r =>
        obtain ⟨d, after, hr⟩ := r
        obtain ⟨hr', hd'⟩ := (hd ▸ hread).of_ok
        have hafter : after.length < ts.length := by
          have h := (List.dropWhile_sublist isSeparator (l := ts)).length_le
          rw [hts] at h
          omega
        have hends : (Placed.allBelow n after).head?.all isSeparator
            = after.head?.all isSeparator := by
          cases after <;> rfl
        rw [hd']
        dsimp only
        rw [hends]
        split
        · rw [ih after.length (hlength ▸ hafter) after rfl]
          cases readDefinitions e after <;> rfl
        · rw [unexpected_below]

end

end Typewire.Language
