-- The written form of a type. It reads back as the type, for every type that the language can
-- write, and a type that was read is one of these.
import Typewire.Proofs.Language.Accepted
import Typewire.Proofs.Language.Spelling

namespace Typewire.Language

/-! ## Types that can be written -/

/-- The type holds only names and numbers of the language, and every enum in it has a variant. -/
inductive Writable : TypeExpr → Prop where
  | primitive {name : String} (hname : IsName name) : Writable (.primitive name)
  | index {position : Nat} (hposition : position < numberBound) : Writable (.index position)
  | named {name : String} {args : List TypeExpr} (hname : IsName name)
      (hargs : ∀ t ∈ args, Writable t) : Writable (.named name args)
  | compact {inner : TypeExpr} (hinner : Writable inner) : Writable (.compact inner)
  | sequence {element : TypeExpr} (helement : Writable element) : Writable (.sequence element)
  | array {element : TypeExpr} {length : Nat} (helement : Writable element)
      (hlength : length < numberBound) : Writable (.array element length)
  | tuple {members : List TypeExpr} (hmembers : ∀ t ∈ members, Writable t) :
      Writable (.tuple members)
  | enum {variants : List (String × Option TypeExpr × Option Nat)} (hne : variants ≠ [])
      (hnames : ∀ v ∈ variants, IsName v.1) (hpayloads : ∀ v ∈ variants, ∀ t ∈ v.2.1, Writable t)
      (htags : ∀ v ∈ variants, ∀ n ∈ v.2.2, n < numberBound) : Writable (.enum variants)
  | struct {fields : List (String × TypeExpr)} (hnames : ∀ f ∈ fields, IsName f.1)
      (htypes : ∀ f ∈ fields, Writable f.2) : Writable (.struct fields)

/-! ## Spelled tokens -/

/-- The characters spell the tokens: words with a symbol between any two. -/
inductive Spells : List Char → List Token → Prop where
  | nil : Spells [] []
  | word {t : Token} (hs : Spellable t) (hword : IsWord t) : Spells t.spelling [t]
  | join {s : Symbol} {front back : List Char} {ts us : List Token} (hfront : Spells front ts)
      (hback : Spells back us) : Spells (front ++ s.char :: back) (ts ++ .symbol s :: us)

theorem Spells.sound {cs : List Char} {ts : List Token} (h : Spells cs ts) :
    cs = ts.flatMap Token.spelling ∧ (∀ t ∈ ts, Spellable t ∧ t ≠ .newline) ∧
      ts.IsChain Apart := by
  induction h with
  | nil => exact ⟨rfl, by simp, .nil⟩
  | @word t hs hword =>
    refine ⟨(List.flatMap_singleton _ _).symm, ?_, .singleton t⟩
    rintro u hu
    cases List.mem_singleton.mp hu
    exact ⟨hs, fun h => by rw [h] at hword; exact hword⟩
  | @join s front back ts us _ _ ihfront ihback =>
    obtain ⟨rfl, hts, htsApart⟩ := ihfront
    obtain ⟨rfl, hus, husApart⟩ := ihback
    have hsymbol (t : Token) : Apart (.symbol s) t := fun h => h.1
    have hsymbol' (t : Token) : Apart t (.symbol s) := fun h => h.2
    refine ⟨by simp [Token.spelling], ?_, ?_⟩
    · exact List.forall_mem_append.mpr ⟨hts, List.forall_mem_cons.mpr ⟨⟨trivial, by simp⟩, hus⟩⟩
    · refine htsApart.append (husApart.cons fun u _ => hsymbol u) ?_
      rintro t - u hu
      cases hu
      exact hsymbol' t

/-! ## Spelled types -/

theorem texts_eq_map (ts : List TypeExpr) : TypeExpr.texts ts = ts.map TypeExpr.text := by
  induction ts with
  | nil => rfl
  | cons t ts ih => rw [TypeExpr.texts, ih, List.map_cons]

/-- The written form of one variant. -/
def variantText : String × Option TypeExpr × Option Nat → String
  | (name, none, none) => name
  | (name, none, some tag) => name ++ "::" ++ toString tag
  | (name, some t, none) => name ++ ":" ++ t.text
  | (name, some t, some tag) => name ++ ":" ++ t.text ++ ":" ++ toString tag

theorem variantTexts_eq_map (vs : List (String × Option TypeExpr × Option Nat)) :
    TypeExpr.variantTexts vs = vs.map variantText := by
  induction vs with
  | nil => rfl
  | cons v vs ih =>
    obtain ⟨name, payload, tag⟩ := v
    rw [List.map_cons, ← ih]
    cases payload <;> cases tag <;> rfl

theorem fieldTexts_eq_map (fs : List (String × TypeExpr)) :
    TypeExpr.fieldTexts fs = fs.map fun f => f.1 ++ ":" ++ f.2.text := by
  induction fs with
  | nil => rfl
  | cons f fs ih => rw [TypeExpr.fieldTexts, ih, List.map_cons]

/-- Tokens write the thing, and the text is their spelling. -/
def SpelledAs (written : List Token → Prop) (text : String) : Prop :=
  ∃ ts, written ts ∧ Spells text.toList ts

theorem spells_symbol (s : Symbol) {cs : List Char} {ts : List Token} (h : Spells cs ts) :
    Spells (s.char :: cs) (.symbol s :: ts) := .join .nil h

theorem spells_name {name : String} (h : IsName name) : Spells name.toList [.name name] :=
  Spells.word (t := .name name) h trivial

theorem spells_number {n : Nat} (h : n < numberBound) :
    Spells (toString n).toList [.number n] := by
  rw [show (toString n).toList = Nat.toDigits 10 n from Nat.toList_repr]
  exact Spells.word (t := .number n) h trivial

/-- Items with a comma between them, none after the last. -/
theorem spelledAs_list {α : Type} {item : α → List Token → Prop} (separator : Token → Prop)
    {text : α → String} (hcomma : separator (.symbol .comma)) {xs : List α}
    (h : ∀ x ∈ xs, SpelledAs (item x) (text x)) :
    SpelledAs (Listed item separator xs) (commaJoined (xs.map text)) := by
  induction xs with
  | nil => exact ⟨[], .none, .nil⟩
  | cons x xs ih =>
    obtain ⟨hx, hxs⟩ := List.forall_mem_cons.mp h
    obtain ⟨ts, hts, hspells⟩ := hx
    cases xs with
    | nil => exact ⟨ts, .last hts, by simpa [commaJoined] using hspells⟩
    | cons y ys =>
      obtain ⟨us, hus, hrest⟩ := ih hxs
      refine ⟨ts ++ .symbol .comma :: us, .more hts hcomma hus, ?_⟩
      have htext : (commaJoined ((x :: y :: ys).map text)).toList
          = (text x).toList ++ Symbol.comma.char :: (commaJoined ((y :: ys).map text)).toList := by
        simp [commaJoined, String.intercalate_cons_cons, Symbol.char]
      rw [htext]
      exact .join hspells hrest

theorem spelledAs_variant {v : String × Option TypeExpr × Option Nat} (hname : IsName v.1)
    (hpayload : ∀ t ∈ v.2.1, SpelledAs (Written t) t.text)
    (htag : ∀ n ∈ v.2.2, n < numberBound) :
    SpelledAs (VariantWritten Written v) (variantText v) := by
  obtain ⟨name, payload, tag⟩ := v
  have hname := spells_name hname
  cases payload with
  | none =>
    cases tag with
    | none => exact ⟨_, .plain, hname⟩
    | some n =>
      have hspells := hname.join (s := .colon) (spells_symbol .colon (spells_number (htag n rfl)))
      exact ⟨_, .tagged, by simpa [variantText, Symbol.char] using hspells⟩
  | some t =>
    obtain ⟨ts, hts, ht⟩ := hpayload t rfl
    cases tag with
    | none =>
      have hspells := hname.join (s := .colon) ht
      exact ⟨_, .payload hts, by simpa [variantText, Symbol.char] using hspells⟩
    | some n =>
      have hspells := hname.join (s := .colon) (ht.join (s := .colon) (spells_number (htag n rfl)))
      exact ⟨_, .payloadTagged hts, by simpa [variantText, Symbol.char] using hspells⟩

theorem spelledAs_field {f : String × TypeExpr} (hname : IsName f.1)
    (htype : SpelledAs (Written f.2) f.2.text) :
    SpelledAs (FieldWritten Written f) (f.1 ++ ":" ++ f.2.text) := by
  obtain ⟨name, t⟩ := f
  obtain ⟨ts, hts, ht⟩ := htype
  have hspells := (spells_name hname).join (s := .colon) ht
  exact ⟨_, .field hts, by simpa [Symbol.char] using hspells⟩

/-- What stands inside brackets. -/
theorem Spells.enclosed (l r : Symbol) {cs : List Char} {ts : List Token} (h : Spells cs ts) :
    Spells (l.char :: (cs ++ [r.char])) (.symbol l :: (ts ++ [.symbol r])) :=
  spells_symbol l (h.join .nil)

theorem spelledAs_text {t : TypeExpr} (h : Writable t) : SpelledAs (Written t) t.text := by
  induction h with
  | primitive hname =>
    exact ⟨_, .primitive, by
      simpa [TypeExpr.text, Symbol.char] using spells_symbol .hash (spells_name hname)⟩
  | index hposition => exact ⟨_, .index, spells_number hposition⟩
  | @named name args hname hargs ih =>
    cases args with
    | nil => exact ⟨_, .name, spells_name hname⟩
    | cons arg args =>
      obtain ⟨ts, hts, hlist⟩ := spelledAs_list IsComma rfl ih
      have hspells :=
        (spells_name hname).join (s := .leftAngle) (hlist.join (s := .rightAngle) .nil)
      exact ⟨_, .applied (List.cons_ne_nil _ _) hts, by
        simpa [TypeExpr.text, texts_eq_map, Symbol.char] using hspells⟩
  | compact hinner ih =>
    obtain ⟨ts, hts, hspells⟩ := ih
    exact ⟨_, .compact hts, by
      simpa [TypeExpr.text, Symbol.char] using spells_symbol .atSign hspells⟩
  | sequence helement ih =>
    obtain ⟨ts, hts, hspells⟩ := ih
    exact ⟨_, .sequence hts, by
      simpa [TypeExpr.text, Symbol.char] using hspells.enclosed .leftBracket .rightBracket⟩
  | array helement hlength ih =>
    obtain ⟨ts, hts, helement⟩ := ih
    have hspells := spells_symbol .leftBracket (helement.join (s := .semicolon)
      ((spells_number hlength).join (s := .rightBracket) .nil))
    exact ⟨_, .array hts, by simpa [TypeExpr.text, Symbol.char] using hspells⟩
  | tuple hmembers ih =>
    obtain ⟨ts, hts, hspells⟩ := spelledAs_list IsComma rfl ih
    exact ⟨_, .tuple hts, by
      simpa [TypeExpr.text, texts_eq_map, Symbol.char] using
        hspells.enclosed .leftParen .rightParen⟩
  | enum hne hnames hpayloads htags ih =>
    obtain ⟨ts, hts, hspells⟩ := spelledAs_list IsCommaOrBar (Or.inl rfl)
      fun v hv => spelledAs_variant (hnames v hv) (ih v hv) (htags v hv)
    exact ⟨_, .enum hne hts, by
      simpa [TypeExpr.text, variantTexts_eq_map, Symbol.char] using
        hspells.enclosed .leftAngle .rightAngle⟩
  | struct hnames htypes ih =>
    obtain ⟨ts, hts, hspells⟩ := spelledAs_list IsComma rfl
      fun f hf => spelledAs_field (hnames f hf) (ih f hf)
    exact ⟨_, .struct hts, by
      simpa [TypeExpr.text, fieldTexts_eq_map, Symbol.char] using
        hspells.enclosed .leftBrace .rightBrace⟩

/-! ## Types that were read -/

theorem Listed.sublist {α : Type} {item : α → List Token → Prop} {separator : Token → Prop}
    {xs : List α} {ts : List Token} (h : Listed item separator xs ts) :
    ∀ x ∈ xs, ∃ front, item x front ∧ front.Sublist ts := by
  induction h with
  | none => simp
  | last hx => exact List.forall_mem_singleton.mpr ⟨_, hx, .refl _⟩
  | more hx hs _ ih =>
    refine List.forall_mem_cons.mpr ⟨⟨_, hx, List.sublist_append_left _ _⟩, fun y hy => ?_⟩
    obtain ⟨front, hfront, hsub⟩ := ih y hy
    exact ⟨front, hfront, (hsub.cons _).trans (List.sublist_append_right _ _)⟩

theorem VariantWritten.parts {v : String × Option TypeExpr × Option Nat} {ts : List Token}
    (h : VariantWritten Written v ts) (hs : ∀ u ∈ ts, Spellable u) :
    IsName v.1 ∧ (∀ n ∈ v.2.2, n < numberBound) ∧
      ∀ t ∈ v.2.1, ∃ front, Written t front ∧ front.Sublist ts := by
  cases h with
  | plain => exact ⟨hs _ List.mem_cons_self, by simp, by simp⟩
  | @tagged name tag =>
    refine ⟨hs _ List.mem_cons_self, ?_, by simp⟩
    rintro _ ⟨⟩
    exact hs (.number tag) (by simp)
  | payload ht =>
    refine ⟨hs _ List.mem_cons_self, by simp, ?_⟩
    rintro _ ⟨⟩
    exact ⟨_, ht, by simp⟩
  | @payloadTagged name t tag ts ht =>
    refine ⟨hs _ List.mem_cons_self, ?_, ?_⟩
    · rintro _ ⟨⟩
      exact hs (.number tag) (by simp)
    · rintro _ ⟨⟩
      exact ⟨_, ht, ((List.sublist_append_left _ _).cons _).cons _⟩

theorem FieldWritten.parts {f : String × TypeExpr} {ts : List Token}
    (h : FieldWritten Written f ts) (hs : ∀ u ∈ ts, Spellable u) :
    IsName f.1 ∧ ∃ front, Written f.2 front ∧ front.Sublist ts := by
  cases h with
  | field ht => exact ⟨hs _ List.mem_cons_self, _, ht, by simp⟩

/-- A type can be written if the types in it can, each of which takes fewer of the tokens. -/
theorem Written.writable_of_parts {t : TypeExpr} {ts : List Token} (h : Written t ts)
    (hs : ∀ u ∈ ts, Spellable u)
    (hparts : ∀ p us s, Written p us → (s :: us).Sublist ts → Writable p) : Writable t := by
  have hinside {s : Token} {us front back : List Token} (hsub : us.Sublist front) :
      (s :: us).Sublist (s :: (front ++ back)) :=
    (hsub.trans (List.sublist_append_left front back)).cons_cons s
  cases h with
  | @primitive name => exact .primitive (hs (.name name) (by simp))
  | @index n => exact .index (hs (.number n) (by simp))
  | @name name => exact .named (hs (.name name) (by simp)) (by simp)
  | @applied name args ts hne hargs =>
    refine .named (hs (.name name) (by simp)) fun x hx => ?_
    obtain ⟨front, hfront, hsub⟩ := hargs.sublist x hx
    exact hparts x front (.symbol .leftAngle) hfront ((hinside hsub).cons _)
  | compact hinner => exact .compact (hparts _ _ _ hinner (.refl _))
  | sequence helement => exact .sequence (hparts _ _ _ helement (hinside (.refl _)))
  | @array element length ts helement =>
    exact .array (hparts _ _ _ helement (hinside (.refl _))) (hs (.number length) (by simp))
  | @tuple members ts hmembers =>
    refine .tuple fun x hx => ?_
    obtain ⟨front, hfront, hsub⟩ := hmembers.sublist x hx
    exact hparts x front _ hfront (hinside hsub)
  | @enum variants ts hne hvariants =>
    have hv : ∀ v ∈ variants, IsName v.1 ∧ (∀ n ∈ v.2.2, n < numberBound) ∧
        ∀ t ∈ v.2.1, Writable t := by
      intro v hv
      obtain ⟨front, hfront, hsub⟩ := hvariants.sublist v hv
      obtain ⟨hname, htag, hpayload⟩ := hfront.parts fun u hu => hs u (by simp [hsub.subset hu])
      refine ⟨hname, htag, fun t ht => ?_⟩
      obtain ⟨payload, hwritten, hinner⟩ := hpayload t ht
      exact hparts t payload _ hwritten (hinside (hinner.trans hsub))
    exact .enum hne (fun v h => (hv v h).1) (fun v h => (hv v h).2.2) (fun v h => (hv v h).2.1)
  | @struct fields ts hfields =>
    have hf : ∀ f ∈ fields, IsName f.1 ∧ Writable f.2 := by
      intro f hf
      obtain ⟨front, hfront, hsub⟩ := hfields.sublist f hf
      obtain ⟨hname, type, hwritten, hinner⟩ :=
        hfront.parts fun u hu => hs u (by simp [hsub.subset hu])
      exact ⟨hname, hparts f.2 type _ hwritten (hinside (hinner.trans hsub))⟩
    exact .struct (fun f h => (hf f h).1) (fun f h => (hf f h).2)

/-- Types whose tokens stand in a text can be written. -/
theorem Written.writable {t : TypeExpr} {ts : List Token} (h : Written t ts)
    (hs : ∀ u ∈ ts, Spellable u) : Writable t := by
  induction hn : ts.length using Nat.strong_induction_on generalizing t ts with
  | _ n ih =>
    subst hn
    refine h.writable_of_parts hs fun p us s hp hsub => ?_
    have hshorter : us.length < ts.length := hsub.length_le
    exact ih us.length hshorter hp (fun u hu => hs u (hsub.subset (List.mem_cons_of_mem s hu))) rfl

/-! ## Texts -/

theorem withoutInnerLineEnds_of_ne (ts : List Placed) (h : ∀ t ∈ ts, t.token ≠ .newline) :
    withoutInnerLineEnds ts = ts := by
  have hall : ∀ t ∈ ts.zipIdx, countsAt 0 ts t = true := by
    rintro ⟨t, n⟩ ht
    exact countsAt_of_ne (h t (List.fst_mem_of_mem_zipIdx ht))
  rw [withoutInnerLineEnds, List.filter_eq_self.mpr hall]
  exact List.zipIdx_map_fst 0 ts

theorem spellable_of_withoutInnerLineEnds (text : String) :
    ∀ t ∈ tokensOf (withoutInnerLineEnds (Tokens.ofText text).placed), Spellable t := by
  intro t ht
  obtain ⟨placed, hplaced, rfl⟩ := List.mem_map.mp ht
  obtain ⟨⟨placed, n⟩, hn, rfl⟩ := List.mem_map.mp hplaced
  exact spellable_of_scan _ (List.fst_mem_of_mem_zipIdx (List.mem_of_mem_filter hn))

/-- The written form of a type that can be written reads as the type. -/
theorem parseTypeExpr_text {t : TypeExpr} (h : Writable t) : parseTypeExpr t.text = .ok t := by
  obtain ⟨ts, hwritten, hspells⟩ := spelledAs_text h
  obtain ⟨htext, hts, hapart⟩ := hspells.sound
  obtain ⟨placed, q, hscan, htokens⟩ := scan_spelling (fun u hu => (hts u hu).1) hapart .start
  have hline : ∀ u ∈ placed, u.token ≠ .newline := fun u hu =>
    (hts u.token (htokens ▸ List.mem_map_of_mem hu)).2
  rw [parseTypeExpr_ok, Tokens.ofText, htext, hscan]
  dsimp only
  rw [withoutInnerLineEnds_of_ne placed hline, ← List.append_nil placed]
  exact readOnlyType_of (List.forall_mem_nil _) (List.forall_mem_nil _) (htokens ▸ hwritten)

theorem writable_of_parseTypeExpr {text : String} {t : TypeExpr} (h : parseTypeExpr text = .ok t) :
    Writable t := by
  obtain ⟨-, before, mid, after, hmid, -, hwritten⟩ := readOnlyType_ok (parseTypeExpr_ok.mp h)
  refine hwritten.writable fun u hu => spellable_of_withoutInnerLineEnds text u ?_
  rw [hmid, tokensOf_append, tokensOf_append]
  exact List.mem_append_right _ (List.mem_append_left _ hu)

/-- Each stated definition is the statement of some of the tokens. -/
theorem StatedAll.stated {ds : List Definition} {ts : List Placed} (h : StatedAll ds ts) :
    ∀ d ∈ ds, ∃ us, Stated d us ∧ us.Sublist ts := by
  induction h with
  | none => simp
  | @last d gap ts hgap hd =>
    exact List.forall_mem_singleton.mpr ⟨ts, hd, List.sublist_append_right _ _⟩
  | @more d ds s gap ts rest hgap hd hs _ ih =>
    refine List.forall_mem_cons.mpr
      ⟨⟨ts, hd, (List.sublist_append_left _ _).trans (List.sublist_append_right _ _)⟩,
        fun e he => ?_⟩
    obtain ⟨us, hus, hsub⟩ := ih e he
    exact ⟨us, hus, ((hsub.cons _).trans (List.sublist_append_right _ _)).trans
      (List.sublist_append_right _ _)⟩

/-- A definition is stated with a name of the language and a body that can be written. -/
theorem Stated.spelled {d : Definition} {ts : List Placed} (h : Stated d ts)
    (hs : ∀ u ∈ tokensOf ts, Spellable u) :
    (∀ name, d.name = some name → IsName name) ∧ Writable d.body := by
  cases h with
  | type hbody => exact ⟨fun name hname => (by cases hname), hbody.writable hs⟩
  | @named name params body first equals head lineEnds ts hhead hequals hlineEnds hbody =>
    constructor
    · rintro _ ⟨⟩
      have hfirst : first.token = .name name := by
        generalize htokens : tokensOf (first :: head) = tokens at hhead
        cases hhead with
        | plain | generic => exact (List.cons.inj htokens).1
      have hspellable := hs first.token (List.mem_map_of_mem List.mem_cons_self)
      rwa [hfirst] at hspellable
    · refine hbody.writable fun u hu => hs u ?_
      rw [tokensOf_append]
      refine List.mem_append_right _ (List.mem_cons_of_mem _ ?_)
      change u ∈ tokensOf (lineEnds ++ ts)
      rw [tokensOf_append]
      exact List.mem_append_right _ hu

theorem spelled_of_parseDefinitions {text : String} {ds : List Definition}
    (h : parseDefinitions text = .ok ds) :
    ∀ d ∈ ds, (∀ name, d.name = some name → IsName name) ∧ Writable d.body := by
  intro d hd
  obtain ⟨-, hstated⟩ := readDefinitions_sound (parseDefinitions_ok.mp h)
  obtain ⟨us, hus, hsub⟩ := hstated.stated d hd
  exact hus.spelled fun u hu =>
    spellable_of_withoutInnerLineEnds text u ((hsub.map _).subset hu)

/-- Writing a type and reading it are inverse: the written form of every type that can be written
reads as that type, and every type that was read, alone or in a definition, is one of these. -/
theorem the_written_form_reads_as_the_type :
    (∀ t, Writable t → parseTypeExpr t.text = .ok t) ∧
    (∀ text t, parseTypeExpr text = .ok t → Writable t ∧ parseTypeExpr t.text = .ok t) ∧
    ∀ text ds, parseDefinitions text = .ok ds →
      ∀ d ∈ ds, Writable d.body ∧ parseTypeExpr d.body.text = .ok d.body := by
  refine ⟨fun t h => parseTypeExpr_text h, fun text t h => ?_, fun text ds h d hd => ?_⟩
  · have ht := writable_of_parseTypeExpr h
    exact ⟨ht, parseTypeExpr_text ht⟩
  · have hbody := (spelled_of_parseDefinitions h d hd).2
    exact ⟨hbody, parseTypeExpr_text hbody⟩

/-- An enum of a variant with a list and of a bare variant with a tag reads as it is written. -/
theorem an_enum_reads_as_it_is_written :
    parseTypeExpr "<A:[T],b_1::7>"
      = .ok (.enum [("A", some (.sequence (.named "T" [])), none), ("b_1", none, some 7)]) := by
  have hA : IsName "A" := ⟨'A', [], by simp, by decide, List.forall_mem_nil _⟩
  have hT : IsName "T" := ⟨'T', [], by simp, by decide, List.forall_mem_nil _⟩
  have hb : IsName "b_1" := ⟨'b', ['_', '1'], by simp, by decide,
    List.forall_mem_cons.mpr ⟨by decide, List.forall_mem_singleton.mpr (by decide)⟩⟩
  have htext : TypeExpr.text (.enum [("A", some (.sequence (.named "T" [])), none),
      ("b_1", none, some 7)]) = "<A:[T],b_1::7>" := by
    have hseven : Nat.repr 7 = "7" := by decide
    simp [TypeExpr.text, variantTexts_eq_map, variantText, commaJoined, hseven]
  rw [← htext]
  refine the_written_form_reads_as_the_type.1 _ (.enum (by simp) ?_ ?_ ?_)
  · exact List.forall_mem_cons.mpr ⟨hA, List.forall_mem_singleton.mpr hb⟩
  · refine List.forall_mem_cons.mpr ⟨?_, List.forall_mem_singleton.mpr (by simp)⟩
    rintro _ ⟨⟩
    exact .sequence (.named hT (List.forall_mem_nil _))
  · refine List.forall_mem_cons.mpr ⟨by simp, List.forall_mem_singleton.mpr ?_⟩
    rintro _ ⟨⟩
    decide

end Typewire.Language
