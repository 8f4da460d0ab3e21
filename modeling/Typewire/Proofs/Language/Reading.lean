-- The readers of the grammar and the grammar itself agree. What a reader takes from the front of
-- the tokens writes the value that it gives, and tokens that write a value are read as that
-- value, unless the tokens after them could go on with it.
import Typewire.Proofs.Language.Written

namespace Typewire.Language

variable {α β : Type} {e : Ending}

/-! ## Steps -/

theorem reading_bind_ok {ts : List Placed} {r : Outcome α ts} {f : Reading α ts → Except Fault β}
    {b : β} (h : (r >>= f) = .ok b) :
    ∃ x rest hr, r = .ok ⟨x, rest, hr⟩ ∧ f ⟨x, rest, hr⟩ = .ok b := by
  cases r with
  | error fault => cases h
  | ok reading => exact ⟨reading.value, reading.rest, reading.shorter, rfl, h⟩

theorem reading_bind_eq {ts rest : List Placed} {r : Outcome α ts} {x : α}
    {hr : rest.length < ts.length} (h : r = .ok ⟨x, rest, hr⟩) (f : Reading α ts → Except Fault β) :
    (r >>= f) = f ⟨x, rest, hr⟩ := by
  rw [h]
  rfl

theorem readSymbol_ok {s : Symbol} {wanted : Wanted} {ts rest : List Placed} {u : Unit}
    {hr : rest.length < ts.length} (h : readSymbol e s wanted ts = .ok ⟨u, rest, hr⟩) :
    ∃ t, ts = t :: rest ∧ t.token = .symbol s := by
  cases ts with
  | nil => cases h
  | cons t ts =>
    by_cases ht : t.token = .symbol s
    · rw [readSymbol, if_pos ht] at h
      cases h
      exact ⟨t, rfl, ht⟩
    · rw [readSymbol, if_neg ht] at h
      cases h

theorem readSymbol_cons {s : Symbol} {wanted : Wanted} {t : Placed} {rest : List Placed}
    (ht : t.token = .symbol s) :
    readSymbol e s wanted (t :: rest) = .ok ⟨(), rest, Nat.lt_add_one _⟩ := by
  simp [readSymbol, ht]

theorem readName_ok {wanted : Wanted} {ts rest : List Placed} {name : String}
    {hr : rest.length < ts.length} (h : readName e wanted ts = .ok ⟨name, rest, hr⟩) :
    ∃ t, ts = t :: rest ∧ t.token = .name name := by
  cases ts with
  | nil => cases h
  | cons t ts =>
    obtain ⟨token, position⟩ := t
    cases token with
    | name =>
      cases h
      exact ⟨_, rfl, rfl⟩
    | _ => cases h

theorem readName_cons {wanted : Wanted} {t : Placed} {rest : List Placed} {name : String}
    (ht : t.token = .name name) :
    readName e wanted (t :: rest) = .ok ⟨name, rest, Nat.lt_add_one _⟩ := by
  obtain ⟨token, position⟩ := t
  cases ht
  rfl

theorem readNumber_ok {wanted : Wanted} {ts rest : List Placed} {n : Nat}
    {hr : rest.length < ts.length} (h : readNumber e wanted ts = .ok ⟨n, rest, hr⟩) :
    ∃ t, ts = t :: rest ∧ t.token = .number n := by
  cases ts with
  | nil => cases h
  | cons t ts =>
    obtain ⟨token, position⟩ := t
    cases token with
    | number =>
      cases h
      exact ⟨_, rfl, rfl⟩
    | _ => cases h

theorem readNumber_cons {wanted : Wanted} {t : Placed} {rest : List Placed} {n : Nat}
    (ht : t.token = .number n) :
    readNumber e wanted (t :: rest) = .ok ⟨n, rest, Nat.lt_add_one _⟩ := by
  obtain ⟨token, position⟩ := t
  cases ht
  rfl

theorem startsWith_iff {s : Symbol} {ts : List Placed} :
    startsWith s ts = true ↔ ∃ t rest, ts = t :: rest ∧ t.token = .symbol s := by
  cases ts with
  | nil => simp [startsWith]
  | cons t rest => simp [startsWith]

/-! ## Readers and the grammar -/

/-- A reader of fewer than `bound` tokens. -/
abbrev ReaderBelow (bound : Nat) (α : Type) :=
  (ts : List Placed) → ts.length < bound → Outcome α ts

/-- What the reader takes writes what it gives, and what writes a value is read as that value
where the tokens after it do not go on with it. -/
structure Exact {bound : Nat} (reader : ReaderBelow bound α) (written : α → List Token → Prop)
    (goesOn : List Placed → Prop) : Prop where
  sound : ∀ {ts rest : List Placed} {x : α} {h : ts.length < bound} {hr : rest.length < ts.length},
    reader ts h = .ok ⟨x, rest, hr⟩ → ∃ front, ts = front ++ rest ∧ written x (tokensOf front)
  complete : ∀ {ts front rest : List Placed} {x : α} (h : ts.length < bound), ts = front ++ rest →
    written x (tokensOf front) → ¬ goesOn rest → ∃ hr, reader ts h = .ok ⟨x, rest, hr⟩

/-- A bracket of type arguments stands in front. -/
def OpensArguments (ts : List Placed) : Prop := startsWith .leftAngle ts = true

/-- What can follow a variant's name stands in front. -/
def GoesOnVariant (ts : List Placed) : Prop := OpensArguments ts ∨ startsWith .colon ts = true

theorem shorter_of_cons {t : Placed} {front rest : List Placed} :
    rest.length < (t :: front ++ rest).length := by
  rw [List.length_append, List.length_cons]
  omega

/-! ## Lists -/

theorem tokensOf_append (as bs : List Placed) : tokensOf (as ++ bs) = tokensOf as ++ tokensOf bs :=
  List.map_append

theorem tokensOf_cons (t : Placed) (ts : List Placed) :
    tokensOf (t :: ts) = t.token :: tokensOf ts :=
  rfl

/-- Lists of the style are separated by `separator`, which does not close them; their items do not
start with what closes them, and neither a separator nor what closes them goes on with an item. -/
structure ListedBy (style : ListStyle) (separator : Token → Prop) (written : α → List Token → Prop)
    (goesOn : List Placed → Prop) : Prop where
  separates : ∀ t, style.separates t = true ↔ separator t
  closed : ¬ separator (.symbol style.close)
  first : ∀ x ts, written x ts → ∃ t rest, ts = t :: rest ∧ t ≠ .symbol style.close
  ends : ∀ t rest, separator t.token ∨ t.token = .symbol style.close → ¬ goesOn (t :: rest)

section Lists

variable {bound : Nat} {style : ListStyle} {item : ReaderBelow bound α}
  {written : α → List Token → Prop} {goesOn : List Placed → Prop} {separator : Token → Prop}

theorem readItems_sound (hitem : Exact item written goesOn)
    (hlist : ListedBy style separator written goesOn) {ts rest : List Placed} {xs : List α}
    {h : ts.length < bound} {hr : rest.length < ts.length}
    (hread : readItems e style bound item ts h = .ok ⟨xs, rest, hr⟩) :
    ∃ front close, ts = front ++ close :: rest ∧ close.token = .symbol style.close ∧
      Listed written separator xs (tokensOf front) := by
  fun_induction readItems e style bound item ts h generalizing xs with
  | case2 t ts h hclose =>
    cases hread
    exact ⟨[], t, rfl, hclose, .none⟩
  | case6 t ts h _ x s later _ hs xs last _ _ _ _ hx ih =>
    cases hread
    obtain ⟨front, hfront, hwritten⟩ := hitem.sound hx
    obtain ⟨others, close, rfl, hclose, hlisted⟩ := ih (by assumption)
    refine ⟨front ++ s :: others, close, by simp [hfront], hclose, ?_⟩
    rw [tokensOf_append, tokensOf_cons]
    exact .more hwritten ((hlist.separates _).mp hs) hlisted
  | case7 t ts h _ x s later _ _ hclose _ _ hx =>
    cases hread
    obtain ⟨front, hfront, hwritten⟩ := hitem.sound hx
    exact ⟨front, s, hfront, hclose, .last hwritten⟩
  | _ => cases hread

theorem readItems_last {t s : Placed} {ts later : List Placed} {x : α}
    (h : (t :: ts).length < bound) (ht : t.token ≠ .symbol style.close)
    (hx : ∃ hr, item (t :: ts) h = .ok ⟨x, s :: later, hr⟩)
    (hnot : ¬ style.separates s.token = true) (hs : s.token = .symbol style.close) :
    ∃ hr, readItems e style bound item (t :: ts) h = .ok ⟨[x], later, hr⟩ := by
  obtain ⟨hr, hx⟩ := hx
  refine ⟨by simp only [List.length_cons] at hr ⊢; omega, ?_⟩
  rw [readItems, if_neg ht, hx]
  simp only [if_neg hnot, if_pos hs]

theorem readItems_more {t s : Placed} {ts later last : List Placed} {x : α} {xs : List α}
    (h : (t :: ts).length < bound) (ht : t.token ≠ .symbol style.close)
    (hx : ∃ hr, item (t :: ts) h = .ok ⟨x, s :: later, hr⟩) (hs : style.separates s.token = true)
    (hxs : ∀ hl, ∃ hr, readItems e style bound item later hl = .ok ⟨xs, last, hr⟩) :
    ∃ hr, readItems e style bound item (t :: ts) h = .ok ⟨x :: xs, last, hr⟩ := by
  obtain ⟨hr, hx⟩ := hx
  have hlater : later.length < bound := by simp only [List.length_cons] at hr h; omega
  obtain ⟨hl, hxs⟩ := hxs hlater
  refine ⟨by simp only [List.length_cons] at hr ⊢; omega, ?_⟩
  rw [readItems, if_neg ht, hx]
  simp only [if_pos hs, hxs]

theorem readItems_complete (rest : List Placed) (hitem : Exact item written goesOn)
    (hlist : ListedBy style separator written goesOn) {xs : List α} {ts front : List Placed}
    {close : Placed} (hclose : close.token = .symbol style.close) (h : ts.length < bound)
    (hts : ts = front ++ close :: rest) (hlisted : Listed written separator xs (tokensOf front)) :
    ∃ hr, readItems e style bound item ts h = .ok ⟨xs, rest, hr⟩ := by
  generalize htokens : tokensOf front = tokens at hlisted
  induction hlisted generalizing ts front with
  | none =>
    cases List.map_eq_nil_iff.mp htokens
    subst hts
    exact ⟨by simp, by simp only [List.nil_append, readItems, if_pos hclose]⟩
  | @last x ts hx =>
    subst htokens
    obtain ⟨t, others, hfront, ht⟩ := hlist.first x _ hx
    obtain ⟨t, front, rfl, rfl, -⟩ := List.map_eq_cons_iff.mp hfront
    subst hts
    refine readItems_last h ht (hitem.complete h rfl hx (hlist.ends _ _ (Or.inr hclose))) ?_ hclose
    rw [hclose, hlist.separates]
    exact hlist.closed
  | @more x xs s ts others hx hs hxs ih =>
    obtain ⟨front, later, rfl, rfl, hlater⟩ := List.map_eq_append_iff.mp htokens
    obtain ⟨s, later, rfl, rfl, rfl⟩ := List.map_eq_cons_iff.mp hlater
    obtain ⟨t, others, hfront, ht⟩ := hlist.first x _ hx
    obtain ⟨t, front, rfl, rfl, -⟩ := List.map_eq_cons_iff.mp hfront
    subst hts
    refine readItems_more h ht (hitem.complete h (by simp) hx (hlist.ends _ _ (Or.inl hs)))
      ((hlist.separates _).mpr hs) fun hl => ih hl rfl rfl

end Lists

/-! ## Variants and fields -/

section Parts

variable {bound : Nat} {type : TypeReader bound}

theorem exact_readField (htype : Exact type Written OpensArguments) :
    Exact (readField e type) (FieldWritten Written) OpensArguments where
  sound := by
    intro ts rest f h hr hread
    obtain ⟨name, ts₁, h₁, hname, hread⟩ := reading_bind_ok hread
    obtain ⟨u, ts₂, h₂, hcolon, hread⟩ := reading_bind_ok hread
    obtain ⟨t, ts₃, h₃, ht, hread⟩ := reading_bind_ok hread
    cases hread
    obtain ⟨first, rfl, hfirst⟩ := readName_ok hname
    obtain ⟨colon, rfl, hc⟩ := readSymbol_ok hcolon
    obtain ⟨front, rfl, hwritten⟩ := htype.sound ht
    refine ⟨first :: colon :: front, rfl, ?_⟩
    rw [tokensOf_cons, tokensOf_cons, hfirst, hc]
    exact .field hwritten
  complete := by
    intro ts front rest f h hts hwritten hrest
    generalize htokens : tokensOf front = tokens at hwritten
    cases hwritten with
    | @field name t others ht =>
      obtain ⟨first, front, rfl, hfirst, htokens⟩ := List.map_eq_cons_iff.mp htokens
      obtain ⟨colon, front, rfl, hc, rfl⟩ := List.map_eq_cons_iff.mp htokens
      subst hts
      simp only [List.cons_append, List.length_cons] at h
      obtain ⟨hr, ht⟩ := htype.complete (by omega) rfl ht hrest
      refine ⟨shorter_of_cons, ?_⟩
      refine (reading_bind_eq (readName_cons hfirst) _).trans ?_
      refine (reading_bind_eq (readSymbol_cons hc) _).trans ?_
      exact reading_bind_eq ht _

theorem startsWith_cons {s : Symbol} {t : Placed} {rest : List Placed} (ht : t.token = .symbol s) :
    startsWith s (t :: rest) = true := startsWith_iff.mpr ⟨t, rest, rfl, ht⟩

theorem not_goesOnVariant {rest : List Placed} (h : ¬ GoesOnVariant rest) :
    ¬ OpensArguments rest ∧ ¬ startsWith .colon rest = true := not_or.mp h

/-- A token with which a type can start. -/
def StartsType : Token → Prop
  | .name _ | .number _ | .symbol .hash | .symbol .atSign | .symbol .leftBracket
  | .symbol .leftParen | .symbol .leftAngle | .symbol .leftBrace => True
  | _ => False

theorem Written.first {t : TypeExpr} {ts : List Token} (h : Written t ts) :
    ∃ first rest, ts = first :: rest ∧ StartsType first := by
  cases h <;> exact ⟨_, _, rfl, trivial⟩

theorem Written.not_startsWith_colon {t : TypeExpr} {ts rest : List Placed}
    (h : Written t (tokensOf ts)) : ¬ startsWith .colon (ts ++ rest) = true := by
  intro hcolon
  obtain ⟨first, others, hts, hfirst⟩ := h.first
  obtain ⟨first, others, rfl, rfl, -⟩ := List.map_eq_cons_iff.mp hts
  obtain ⟨colon, later, heq, hc⟩ := startsWith_iff.mp hcolon
  cases heq
  rw [hc] at hfirst
  exact hfirst

theorem readVariant_sound (htype : Exact type Written OpensArguments) {ts rest : List Placed}
    {v : String × Option TypeExpr × Option Nat} {h : ts.length < bound}
    {hr : rest.length < ts.length} (hread : readVariant e type ts h = .ok ⟨v, rest, hr⟩) :
    ∃ front, ts = front ++ rest ∧ VariantWritten Written v (tokensOf front) := by
  obtain ⟨name, ts₁, h₁, hname, hread⟩ := reading_bind_ok hread
  obtain ⟨first, rfl, hfirst⟩ := readName_ok hname
  dsimp only at hread
  split at hread
  · obtain ⟨u, ts₂, h₂, hcolon, hread⟩ := reading_bind_ok hread
    obtain ⟨colon, rfl, hc⟩ := readSymbol_ok hcolon
    dsimp only at hread
    split at hread
    · obtain ⟨u', ts₃, h₃, hcolon', hread⟩ := reading_bind_ok hread
      obtain ⟨tag, ts₄, h₄, htag, hread⟩ := reading_bind_ok hread
      cases hread
      obtain ⟨colon', rfl, hc'⟩ := readSymbol_ok hcolon'
      obtain ⟨number, rfl, hn⟩ := readNumber_ok htag
      refine ⟨[first, colon, colon', number], rfl, ?_⟩
      simp only [tokensOf_cons, hfirst, hc, hc', hn]
      exact .tagged
    · obtain ⟨t, ts₃, h₃, ht, hread⟩ := reading_bind_ok hread
      obtain ⟨front, rfl, hwritten⟩ := htype.sound ht
      dsimp only at hread
      split at hread
      · obtain ⟨u', ts₄, h₄, hcolon', hread⟩ := reading_bind_ok hread
        obtain ⟨tag, ts₅, h₅, htag, hread⟩ := reading_bind_ok hread
        cases hread
        obtain ⟨colon', rfl, hc'⟩ := readSymbol_ok hcolon'
        obtain ⟨number, rfl, hn⟩ := readNumber_ok htag
        refine ⟨first :: colon :: (front ++ [colon', number]), by simp, ?_⟩
        simp only [tokensOf_cons, tokensOf_append, hfirst, hc, hc', hn]
        exact .payloadTagged hwritten
      · cases hread
        refine ⟨first :: colon :: front, rfl, ?_⟩
        simp only [tokensOf_cons, hfirst, hc]
        exact .payload hwritten
  · cases hread
    refine ⟨[first], rfl, ?_⟩
    simp only [tokensOf_cons, hfirst]
    exact .plain

theorem readVariant_complete (htype : Exact type Written OpensArguments)
    {ts front rest : List Placed} {v : String × Option TypeExpr × Option Nat}
    (h : ts.length < bound) (hts : ts = front ++ rest)
    (hwritten : VariantWritten Written v (tokensOf front)) (hrest : ¬ GoesOnVariant rest) :
    ∃ hr, readVariant e type ts h = .ok ⟨v, rest, hr⟩ := by
  obtain ⟨hangle, hcolon⟩ := not_goesOnVariant hrest
  generalize htokens : tokensOf front = tokens at hwritten
  cases hwritten with
  | @plain name =>
    obtain ⟨first, front, rfl, hfirst, htokens⟩ := List.map_eq_cons_iff.mp htokens
    cases List.map_eq_nil_iff.mp htokens
    subst hts
    refine ⟨shorter_of_cons, ?_⟩
    refine (reading_bind_eq (readName_cons hfirst) _).trans ?_
    exact if_neg hcolon
  | @tagged name tag =>
    obtain ⟨first, front, rfl, hfirst, htokens⟩ := List.map_eq_cons_iff.mp htokens
    obtain ⟨colon, front, rfl, hc, htokens⟩ := List.map_eq_cons_iff.mp htokens
    obtain ⟨colon', front, rfl, hc', htokens⟩ := List.map_eq_cons_iff.mp htokens
    obtain ⟨number, front, rfl, hn, htokens⟩ := List.map_eq_cons_iff.mp htokens
    cases List.map_eq_nil_iff.mp htokens
    subst hts
    refine ⟨shorter_of_cons, ?_⟩
    refine (reading_bind_eq (readName_cons hfirst) _).trans ?_
    refine (if_pos (startsWith_cons hc)).trans ?_
    refine (reading_bind_eq (readSymbol_cons hc) _).trans ?_
    refine (if_pos (startsWith_cons hc')).trans ?_
    refine (reading_bind_eq (readSymbol_cons hc') _).trans ?_
    exact reading_bind_eq (readNumber_cons hn) _
  | @payload name t others ht =>
    obtain ⟨first, front, rfl, hfirst, htokens⟩ := List.map_eq_cons_iff.mp htokens
    obtain ⟨colon, front, rfl, hc, rfl⟩ := List.map_eq_cons_iff.mp htokens
    subst hts
    simp only [List.cons_append, List.length_cons] at h
    obtain ⟨hr, hread⟩ := htype.complete (by omega) rfl ht hangle
    refine ⟨shorter_of_cons, ?_⟩
    refine (reading_bind_eq (readName_cons hfirst) _).trans ?_
    refine (if_pos (startsWith_cons hc)).trans ?_
    refine (reading_bind_eq (readSymbol_cons hc) _).trans ?_
    refine (if_neg ht.not_startsWith_colon).trans ?_
    refine (reading_bind_eq hread _).trans ?_
    exact if_neg hcolon
  | @payloadTagged name t tag others ht =>
    obtain ⟨first, front, rfl, hfirst, htokens⟩ := List.map_eq_cons_iff.mp htokens
    obtain ⟨colon, front, rfl, hc, htokens⟩ := List.map_eq_cons_iff.mp htokens
    obtain ⟨front, later, rfl, rfl, hlater⟩ := List.map_eq_append_iff.mp htokens
    obtain ⟨colon', later, rfl, hc', hlater⟩ := List.map_eq_cons_iff.mp hlater
    obtain ⟨number, later, rfl, hn, hlater⟩ := List.map_eq_cons_iff.mp hlater
    cases List.map_eq_nil_iff.mp hlater
    have hshort : rest.length < ts.length := hts ▸ shorter_of_cons
    obtain rfl : ts = first :: colon :: (front ++ colon' :: number :: rest) := by simp [hts]
    simp only [List.length_cons] at h
    have hangle' : ¬ OpensArguments (colon' :: number :: rest) := by
      simp [OpensArguments, startsWith, hc']
    obtain ⟨hr, hread⟩ := htype.complete (by omega) rfl ht hangle'
    refine ⟨hshort, ?_⟩
    refine (reading_bind_eq (readName_cons hfirst) _).trans ?_
    refine (if_pos (startsWith_cons hc)).trans ?_
    refine (reading_bind_eq (readSymbol_cons hc) _).trans ?_
    refine (if_neg ht.not_startsWith_colon).trans ?_
    refine (reading_bind_eq hread _).trans ?_
    refine (if_pos (startsWith_cons hc')).trans ?_
    refine (reading_bind_eq (readSymbol_cons hc') _).trans ?_
    exact reading_bind_eq (readNumber_cons hn) _

theorem exact_readVariant (htype : Exact type Written OpensArguments) :
    Exact (readVariant e type) (VariantWritten Written) GoesOnVariant where
  sound := readVariant_sound htype
  complete := readVariant_complete htype

end Parts

/-! ## Types -/

theorem listedBy_types {style : ListStyle} (hpipe : style.allowsPipe = false)
    (hclose : style.close = .rightAngle ∨ style.close = .rightParen) :
    ListedBy style IsComma Written OpensArguments where
  separates t := by simp [ListStyle.separates, hpipe, IsComma]
  closed := by rcases hclose with h | h <;> simp [h, IsComma]
  first t ts h := by
    obtain ⟨first, rest, rfl, hfirst⟩ := h.first
    refine ⟨first, rest, rfl, fun heq => ?_⟩
    subst heq
    rcases hclose with h | h <;> simp [h, StartsType] at hfirst
  ends t rest h := by
    rcases h with h | h
    · rw [IsComma] at h
      simp [OpensArguments, startsWith, h]
    · rcases hclose with h' | h' <;> simp [OpensArguments, startsWith, h, h']

theorem listedBy_arguments : ListedBy .arguments IsComma Written OpensArguments :=
  listedBy_types rfl (Or.inl rfl)

theorem listedBy_tuple : ListedBy .tuple IsComma Written OpensArguments :=
  listedBy_types rfl (Or.inr rfl)

theorem listedBy_fields : ListedBy .fields IsComma (FieldWritten Written) OpensArguments where
  separates t := by simp [ListStyle.separates, ListStyle.fields, IsComma]
  closed := by simp [ListStyle.fields, IsComma]
  first f ts h := by
    cases h
    exact ⟨_, _, rfl, by simp⟩
  ends t rest h := by
    rcases h with h | h
    · rw [IsComma] at h
      simp [OpensArguments, startsWith, h]
    · simp [OpensArguments, startsWith, h, ListStyle.fields]

theorem listedBy_variants :
    ListedBy .variants IsCommaOrBar (VariantWritten Written) GoesOnVariant where
  separates t := by simp [ListStyle.separates, ListStyle.variants, IsCommaOrBar]
  closed := by simp [ListStyle.variants, IsCommaOrBar]
  first v ts h := by
    cases h <;> exact ⟨_, _, rfl, by simp⟩
  ends t rest h := by
    rcases h with (h | h) | h <;>
      simp [GoesOnVariant, OpensArguments, startsWith, h, ListStyle.variants]

theorem around_append (first : Placed) (front back rest : List Placed) :
    first :: (front ++ (back ++ rest)) = (first :: (front ++ back)) ++ rest := by
  rw [List.cons_append, List.append_assoc]

theorem readTypeWith_sound {ts rest : List Placed} {type : TypeReader ts.length} {t : TypeExpr}
    {hr : rest.length < ts.length} (htype : Exact type Written OpensArguments)
    (hread : readTypeWith e ts type = .ok ⟨t, rest, hr⟩) :
    ∃ front, ts = front ++ rest ∧ Written t (tokensOf front) := by
  cases ts with
  | nil => cases hread
  | cons first ts =>
    obtain ⟨token, position⟩ := first
    cases token with
    | newline => cases hread
    | number n =>
      cases hread
      exact ⟨[_], rfl, .index⟩
    | name name =>
      cases ts with
      | nil =>
        cases hread
        exact ⟨[_], rfl, .name⟩
      | cons s after =>
        by_cases hs : s.token = .symbol .leftAngle
        · replace hread := (if_pos hs).symm.trans hread
          obtain ⟨args, rest', h, hargs, hread⟩ := reading_bind_ok hread
          obtain ⟨front, close, rfl, hclose, hlisted⟩ :=
            readItems_sound htype listedBy_arguments hargs
          dsimp only at hread
          split at hread
          · cases hread
          · rename_i hne
            cases hread
            refine ⟨_, around_append _ (s :: front) [close] _, ?_⟩
            simp only [tokensOf_cons, tokensOf_append, List.cons_append, hs, hclose]
            exact .applied (fun h => hne (by rw [h]; rfl)) hlisted
        · replace hread := (if_neg hs).symm.trans hread
          cases hread
          exact ⟨[_], rfl, .name⟩
    | symbol s =>
      cases s with
      | hash =>
        obtain ⟨name, rest', h, hname, hread⟩ := reading_bind_ok hread
        cases hread
        obtain ⟨second, rfl, hsecond⟩ := readName_ok hname
        refine ⟨[_, second], rfl, ?_⟩
        simp only [tokensOf_cons, hsecond]
        exact .primitive
      | atSign =>
        obtain ⟨inner, rest', h, hinner, hread⟩ := reading_bind_ok hread
        cases hread
        obtain ⟨front, rfl, hwritten⟩ := htype.sound hinner
        exact ⟨_ :: front, rfl, .compact hwritten⟩
      | leftBracket =>
        obtain ⟨element, ts₁, h₁, helement, hread⟩ := reading_bind_ok hread
        obtain ⟨front, rfl, hwritten⟩ := htype.sound helement
        dsimp only at hread
        split at hread
        · obtain ⟨u, ts₂, h₂, hsemicolon, hread⟩ := reading_bind_ok hread
          obtain ⟨length, ts₃, h₃, hlength, hread⟩ := reading_bind_ok hread
          obtain ⟨u', ts₄, h₄, hclose, hread⟩ := reading_bind_ok hread
          cases hread
          obtain ⟨semicolon, rfl, hs⟩ := readSymbol_ok hsemicolon
          obtain ⟨number, rfl, hn⟩ := readNumber_ok hlength
          obtain ⟨close, rfl, hc⟩ := readSymbol_ok hclose
          refine ⟨_, around_append _ front [semicolon, number, close] _, ?_⟩
          simp only [tokensOf_cons, tokensOf_append, hs, hn, hc]
          exact .array hwritten
        · obtain ⟨u, ts₂, h₂, hclose, hread⟩ := reading_bind_ok hread
          cases hread
          obtain ⟨close, rfl, hc⟩ := readSymbol_ok hclose
          refine ⟨_, around_append _ front [close] _, ?_⟩
          simp only [tokensOf_cons, tokensOf_append, hc]
          exact .sequence hwritten
      | leftParen =>
        obtain ⟨members, rest', h, hmembers, hread⟩ := reading_bind_ok hread
        cases hread
        obtain ⟨front, close, rfl, hclose, hlisted⟩ :=
          readItems_sound htype listedBy_tuple hmembers
        refine ⟨_, around_append _ front [close] _, ?_⟩
        simp only [tokensOf_cons, tokensOf_append, hclose]
        exact .tuple hlisted
      | leftAngle =>
        obtain ⟨variants, rest', h, hvariants, hread⟩ := reading_bind_ok hread
        obtain ⟨front, close, rfl, hclose, hlisted⟩ :=
          readItems_sound (exact_readVariant htype) listedBy_variants hvariants
        dsimp only at hread
        split at hread
        · split at hread <;> cases hread
        · rename_i hne
          cases hread
          refine ⟨_, around_append _ front [close] _, ?_⟩
          simp only [tokensOf_cons, tokensOf_append, hclose]
          exact .enum (fun h => hne (by rw [h]; rfl)) hlisted
      | leftBrace =>
        obtain ⟨fields, rest', h, hfields, hread⟩ := reading_bind_ok hread
        cases hread
        obtain ⟨front, close, rfl, hclose, hlisted⟩ :=
          readItems_sound (exact_readField htype) listedBy_fields hfields
        refine ⟨_, around_append _ front [close] _, ?_⟩
        simp only [tokensOf_cons, tokensOf_append, hclose]
        exact .struct hlisted
      | _ => cases hread

theorem tokensOf_eq_concat {ts : List Placed} {others : List Token} {s : Symbol}
    (h : tokensOf ts = others ++ [.symbol s]) :
    ∃ front close, ts = front ++ [close] ∧ tokensOf front = others ∧ close.token = .symbol s := by
  obtain ⟨front, back, rfl, hfront, hback⟩ := List.map_eq_append_iff.mp h
  obtain ⟨close, back, rfl, hclose, hback⟩ := List.map_eq_cons_iff.mp hback
  cases List.map_eq_nil_iff.mp hback
  exact ⟨front, close, rfl, hfront, hclose⟩

theorem readTypeWith_complete {ts front rest : List Placed} {type : TypeReader ts.length}
    {t : TypeExpr} (htype : Exact type Written OpensArguments) (hts : ts = front ++ rest)
    (hwritten : Written t (tokensOf front)) (hrest : ¬ OpensArguments rest) :
    ∃ hr, readTypeWith e ts type = .ok ⟨t, rest, hr⟩ := by
  generalize htokens : tokensOf front = tokens at hwritten
  obtain ⟨first, others, rfl, -⟩ := hwritten.first
  obtain ⟨⟨token, position⟩, front, rfl, hfirst, hothers⟩ := List.map_eq_cons_iff.mp htokens
  have hshort : rest.length < ts.length := hts ▸ shorter_of_cons
  refine ⟨hshort, ?_⟩
  cases hwritten with
  | @primitive name =>
    cases hfirst
    obtain ⟨second, front, rfl, hsecond, hothers⟩ := List.map_eq_cons_iff.mp hothers
    cases List.map_eq_nil_iff.mp hothers
    subst hts
    exact reading_bind_eq (readName_cons hsecond) _
  | @index n =>
    cases hfirst
    cases List.map_eq_nil_iff.mp hothers
    subst hts
    rfl
  | @name name =>
    cases hfirst
    cases List.map_eq_nil_iff.mp hothers
    subst hts
    cases rest with
    | nil => rfl
    | cons s rest =>
      refine if_neg fun hs => hrest (startsWith_cons hs)
  | @applied name args others hne hargs =>
    cases hfirst
    obtain ⟨s, front, rfl, hs, hothers⟩ := List.map_eq_cons_iff.mp hothers
    obtain ⟨front, close, rfl, rfl, hclose⟩ := tokensOf_eq_concat hothers
    obtain rfl : ts = ⟨.name name, position⟩ :: s :: (front ++ close :: rest) := by simp [hts]
    obtain ⟨hr, hread⟩ := readItems_complete rest htype listedBy_arguments hclose
      (by simp only [List.length_cons]; omega) rfl hargs
    refine (if_pos hs).trans ?_
    refine (reading_bind_eq hread _).trans ?_
    exact if_neg fun h => hne (List.isEmpty_iff.mp h)
  | @compact inner others hinner =>
    cases hfirst
    subst hothers hts
    obtain ⟨hr, hread⟩ := htype.complete (by simp) rfl hinner hrest
    exact reading_bind_eq hread _
  | @sequence element others helement =>
    cases hfirst
    obtain ⟨front, close, rfl, rfl, hclose⟩ := tokensOf_eq_concat hothers
    obtain rfl : ts = ⟨.symbol .leftBracket, position⟩ :: (front ++ close :: rest) := by simp [hts]
    have hangle : ¬ OpensArguments (close :: rest) := by simp [OpensArguments, startsWith, hclose]
    obtain ⟨hr, hread⟩ := htype.complete (by simp) rfl helement hangle
    refine (reading_bind_eq hread _).trans ?_
    refine (if_neg (by simp [startsWith, hclose])).trans ?_
    exact reading_bind_eq (readSymbol_cons hclose) _
  | @array element length others helement =>
    cases hfirst
    obtain ⟨front, back, rfl, rfl, hback⟩ := List.map_eq_append_iff.mp hothers
    obtain ⟨semicolon, back, rfl, hs, hback⟩ := List.map_eq_cons_iff.mp hback
    obtain ⟨number, back, rfl, hn, hback⟩ := List.map_eq_cons_iff.mp hback
    obtain ⟨close, back, rfl, hclose, hback⟩ := List.map_eq_cons_iff.mp hback
    cases List.map_eq_nil_iff.mp hback
    obtain rfl : ts = ⟨.symbol .leftBracket, position⟩ ::
        (front ++ semicolon :: number :: close :: rest) := by simp [hts]
    have hangle : ¬ OpensArguments (semicolon :: number :: close :: rest) := by
      simp [OpensArguments, startsWith, hs]
    obtain ⟨hr, hread⟩ := htype.complete (by simp) rfl helement hangle
    refine (reading_bind_eq hread _).trans ?_
    refine (if_pos (startsWith_cons hs)).trans ?_
    refine (reading_bind_eq (readSymbol_cons hs) _).trans ?_
    refine (reading_bind_eq (readNumber_cons hn) _).trans ?_
    exact reading_bind_eq (readSymbol_cons hclose) _
  | @tuple members others hmembers =>
    cases hfirst
    obtain ⟨front, close, rfl, rfl, hclose⟩ := tokensOf_eq_concat hothers
    obtain rfl : ts = ⟨.symbol .leftParen, position⟩ :: (front ++ close :: rest) := by simp [hts]
    obtain ⟨hr, hread⟩ := readItems_complete rest htype listedBy_tuple hclose
      (by simp) rfl hmembers
    exact reading_bind_eq hread _
  | @enum variants others hne hvariants =>
    cases hfirst
    obtain ⟨front, close, rfl, rfl, hclose⟩ := tokensOf_eq_concat hothers
    obtain rfl : ts = ⟨.symbol .leftAngle, position⟩ :: (front ++ close :: rest) := by simp [hts]
    obtain ⟨hr, hread⟩ := readItems_complete rest (exact_readVariant htype) listedBy_variants hclose
      (by simp) rfl hvariants
    refine (reading_bind_eq hread _).trans ?_
    exact if_neg fun h => hne (List.isEmpty_iff.mp h)
  | @struct fields others hfields =>
    cases hfirst
    obtain ⟨front, close, rfl, rfl, hclose⟩ := tokensOf_eq_concat hothers
    obtain rfl : ts = ⟨.symbol .leftBrace, position⟩ :: (front ++ close :: rest) := by simp [hts]
    obtain ⟨hr, hread⟩ := readItems_complete rest (exact_readField htype) listedBy_fields hclose
      (by simp) rfl hfields
    exact reading_bind_eq hread _

/-- Reading a type agrees with the grammar, however many tokens there are. -/
theorem exact_readType (e : Ending) (bound : Nat) :
    Exact (fun ts (_ : ts.length < bound) => readType e ts) Written OpensArguments := by
  induction bound using Nat.strongRecOn with
  | ind bound ih =>
    refine ⟨fun {ts rest t h hr} hread => ?_, fun {ts front rest t} h hts hwritten hrest => ?_⟩
    · rw [readType] at hread
      exact readTypeWith_sound (ih ts.length h) hread
    · rw [readType]
      exact readTypeWith_complete (ih ts.length h) hts hwritten hrest

theorem readType_sound {ts rest : List Placed} {t : TypeExpr} {hr : rest.length < ts.length}
    (h : readType e ts = .ok ⟨t, rest, hr⟩) :
    ∃ front, ts = front ++ rest ∧ Written t (tokensOf front) :=
  (exact_readType e (ts.length + 1)).sound (h := Nat.lt_succ_self _) h

theorem readType_complete {front rest : List Placed} {t : TypeExpr}
    (h : Written t (tokensOf front)) (hrest : ¬ OpensArguments rest) :
    ∃ hr, readType e (front ++ rest) = .ok ⟨t, rest, hr⟩ :=
  (exact_readType e ((front ++ rest).length + 1)).complete (Nat.lt_succ_self _) rfl h hrest

end Typewire.Language
