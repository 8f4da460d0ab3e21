-- Which texts the type language accepts, and as what. A text is accepted exactly if it is made of
-- tokens to its end and they state definitions, or write a type, as the grammar says.
import Mathlib.Data.List.TakeWhile
import Typewire.Proofs.Language.Reading
import Typewire.Proofs.Shape.Distinct

namespace Typewire.Language

variable {e : Ending}

/-! ## Heads -/

theorem parametersOf_ok {seen names : List String} {args : List TypeExpr}
    (h : parametersOf seen args = .ok names) :
    ∃ params, args = params.map (.named · []) ∧ names = seen.reverse ++ params ∧
      params.Nodup ∧ ∀ p ∈ params, p ∉ seen := by
  fun_induction parametersOf seen args with
  | case1 seen =>
    cases h
    exact ⟨[], rfl, (List.append_nil _).symm, .nil, by simp⟩
  | case2 seen name rest hmem => cases h
  | case3 seen name rest hmem ih =>
    obtain ⟨params, rfl, rfl, hnodup, hnew⟩ := ih h
    refine ⟨name :: params, rfl, by simp, ?_, ?_⟩
    · exact List.nodup_cons.mpr ⟨fun hin => hnew name hin List.mem_cons_self, hnodup⟩
    · intro p hp
      rcases List.mem_cons.mp hp with rfl | hp
      · exact hmem
      · exact fun hin => hnew p hp (List.mem_cons_of_mem _ hin)
  | case4 seen other rest hother => cases h

theorem parametersOf_map {seen params : List String} (hnodup : params.Nodup)
    (hnew : ∀ p ∈ params, p ∉ seen) :
    parametersOf seen (params.map (.named · [])) = .ok (seen.reverse ++ params) := by
  induction params generalizing seen with
  | nil => simp [parametersOf]
  | cons p params ih =>
    obtain ⟨hp, hnodup⟩ := List.nodup_cons.mp hnodup
    rw [List.map_cons, parametersOf, if_neg (hnew p List.mem_cons_self), ih hnodup]
    · simp
    · intro q hq hin
      rcases List.mem_cons.mp hin with rfl | hin
      · exact hp hq
      · exact hnew q (List.mem_cons_of_mem _ hq) hin

theorem Listed.map_iff {α β : Type} {item : α → List Token → Prop} {item' : β → List Token → Prop}
    {separator : Token → Prop} {f : α → β} (h : ∀ x ts, item x ts ↔ item' (f x) ts) {xs : List α}
    {ts : List Token} : Listed item separator xs ts ↔ Listed item' separator (xs.map f) ts := by
  constructor
  · intro hlisted
    induction hlisted with
    | none => exact .none
    | last hx => exact .last ((h _ _).mp hx)
    | more hx hs _ ih => exact .more ((h _ _).mp hx) hs ih
  · intro hlisted
    generalize hys : xs.map f = ys at hlisted
    induction hlisted generalizing xs with
    | none =>
      cases List.map_eq_nil_iff.mp hys
      exact .none
    | last hx =>
      obtain ⟨x, rest, rfl, rfl, hrest⟩ := List.map_eq_cons_iff.mp hys
      cases List.map_eq_nil_iff.mp hrest
      exact .last ((h _ _).mpr hx)
    | more hx hs _ ih =>
      obtain ⟨x, rest, rfl, rfl, hrest⟩ := List.map_eq_cons_iff.mp hys
      exact .more ((h _ _).mpr hx) hs (ih hrest)

theorem parameterWritten_iff (name : String) (ts : List Token) :
    ParameterWritten name ts ↔ Written (.named name []) ts := by
  constructor
  · rintro rfl
    exact .name
  · intro h
    cases h with
    | name => rfl
    | applied hne _ => exact absurd rfl hne

/-- A type that stands before an equals sign is read as a head exactly if it is written as one. -/
theorem headWritten_iff {name : String} {params : List String} {ts : List Token} :
    HeadWritten name params ts ↔ ∃ head, Written head ts ∧ headOf head = .ok (name, params) := by
  constructor
  · rintro (_ | ⟨hne, hdistinct, hparams⟩)
    · exact ⟨.named name [], .name, rfl⟩
    · refine ⟨.named name (params.map (.named · [])), .applied (by simpa using hne)
        ((Listed.map_iff parameterWritten_iff).mp hparams), ?_⟩
      rw [headOf, parametersOf_map hdistinct (by simp)]
      rfl
  · rintro ⟨head, hwritten, hhead⟩
    cases head with
    | named other args =>
      rw [headOf] at hhead
      cases hparams : parametersOf [] args with
      | error problem =>
        rw [hparams] at hhead
        cases hhead
      | ok names =>
        rw [hparams] at hhead
        cases hhead
        obtain ⟨params, rfl, rfl, hnodup, -⟩ := parametersOf_ok hparams
        generalize hargs : params.map (TypeExpr.named · []) = args at hwritten
        cases hwritten with
        | name =>
          cases List.map_eq_nil_iff.mp hargs
          exact .plain
        | applied hne hlisted =>
          subst hargs
          exact .generic (by simpa using hne) hnodup
            ((Listed.map_iff parameterWritten_iff).mpr hlisted)
    | _ => cases hhead

/-! ## Statements -/

theorem isSeparator_iff {t : Placed} : isSeparator t = true ↔ EndsStatement t := by
  simp [isSeparator, EndsStatement]

/-- Nothing stands in front, or what ends a statement. -/
def AtEnd (rest : List Placed) : Prop := ∀ t others, rest = t :: others → EndsStatement t

theorem atEnd_nil : AtEnd [] := by
  intro t others h
  cases h

theorem atEnd_cons {s : Placed} {rest : List Placed} (hs : EndsStatement s) :
    AtEnd (s :: rest) := by
  intro t others h
  cases h
  exact hs

theorem AtEnd.not_startsWith {rest : List Placed} {s : Symbol} (h : AtEnd rest)
    (hs : s ≠ .semicolon) : ¬ startsWith s rest = true := by
  intro hstarts
  obtain ⟨t, others, rfl, ht⟩ := startsWith_iff.mp hstarts
  rcases h t others rfl with h | h
  · rw [ht] at h
    cases h
  · rw [ht] at h
    cases h
    exact hs rfl

theorem Written.eq_cons {t : TypeExpr} {ts : List Placed} (h : Written t (tokensOf ts)) :
    ∃ first others, ts = first :: others ∧ StartsType first.token := by
  obtain ⟨_, _, hcons, hfirst⟩ := h.first
  obtain ⟨first, others, rfl, rfl, -⟩ := List.map_eq_cons_iff.mp hcons
  exact ⟨first, others, rfl, hfirst⟩

/-- A reader that skips tokens comes to the first that it does not skip. -/
theorem dropWhile_append_cons {skip : Placed → Bool} {gap : List Placed} {t : Placed}
    {ts : List Placed} (hgap : ∀ t ∈ gap, skip t = true) (ht : ¬ skip t = true) :
    (gap ++ t :: ts).dropWhile skip = t :: ts := by
  rw [List.dropWhile_append_of_pos hgap, List.dropWhile_cons_of_neg ht]

theorem readDefinition_sound {first : Placed} {ts rest : List Placed} {d : Definition}
    {hr : rest.length < (first :: ts).length}
    (h : readDefinition e first.position (first :: ts) = .ok ⟨d, rest, hr⟩) :
    ∃ front, first :: ts = front ++ rest ∧ Stated d front := by
  obtain ⟨head, ts₁, h₁, hhead, h⟩ := reading_bind_ok h
  obtain ⟨front, hfront, hwritten⟩ := readType_sound hhead
  obtain ⟨_, front, rfl, -⟩ := hwritten.eq_cons
  cases hfront
  dsimp only at h
  split at h
  · cases hnames : headOf head with
    | error problem =>
      rw [hnames] at h
      cases h
    | ok names =>
      obtain ⟨name, params⟩ := names
      rw [hnames] at h
      obtain ⟨u, ts₂, h₂, hequals, h⟩ := reading_bind_ok h
      obtain ⟨body, ts₃, h₃, hbody, h⟩ := reading_bind_ok h
      cases h
      obtain ⟨equals, rfl, ht⟩ := readSymbol_ok hequals
      obtain ⟨bodyFront, hsplit, hbodyWritten⟩ := readType_sound hbody
      dsimp only at hsplit ⊢
      have hlineEnds : ∀ t ∈ ts₂.takeWhile (·.token == .newline), t.token = .newline :=
        fun t ht => by simpa using List.mem_takeWhile_imp ht
      have hhead : HeadWritten name params (tokensOf (first :: front)) :=
        headWritten_iff.mpr ⟨head, hwritten, hnames⟩
      refine ⟨_, ?_, .named hhead ht hlineEnds hbodyWritten⟩
      calc first :: (front ++ equals :: ts₂)
          = first :: (front ++ equals :: (ts₂.takeWhile (·.token == .newline)
              ++ ts₂.dropWhile (·.token == .newline))) := by
            rw [List.takeWhile_append_dropWhile]
        _ = _ := by rw [hsplit]; simp
  · cases h
    exact ⟨first :: front, rfl, .type hwritten⟩

/-- What starts a type does not end a statement. -/
theorem StartsType.not_endsStatement {t : Placed} (h : StartsType t.token) :
    ¬ EndsStatement t := by
  rintro (ht | ht) <;> rw [ht] at h <;> exact h

theorem readDefinition_complete {first : Placed} {ts rest : List Placed} {d : Definition}
    (h : Stated d (first :: ts)) (hrest : AtEnd rest) :
    ∃ hr, readDefinition e first.position (first :: (ts ++ rest)) = .ok ⟨d, rest, hr⟩ := by
  generalize hts : first :: ts = front at h
  have hshort : rest.length < (first :: (ts ++ rest)).length := shorter_of_cons
  refine ⟨hshort, ?_⟩
  have hangle : ¬ OpensArguments rest := hrest.not_startsWith (by decide)
  cases h with
  | @type body first' ts' hbody =>
    cases hts
    obtain ⟨hr, hread⟩ := readType_complete (e := e) hbody hangle
    refine (reading_bind_eq hread _).trans ?_
    exact if_neg (hrest.not_startsWith (by decide))
  | @named name params body first' equals head lineEnds body' hhead hequals hlineEnds hbody =>
    cases hts
    obtain ⟨type, hwritten, hnames⟩ := headWritten_iff.mp hhead
    obtain ⟨start, body', rfl, hstart⟩ := hbody.eq_cons
    have hequalsAngle : ¬ OpensArguments (equals :: (lineEnds ++ start :: (body' ++ rest))) := by
      simp [OpensArguments, startsWith, hequals]
    obtain ⟨hr, hread⟩ := readType_complete (e := e) hwritten hequalsAngle
    obtain ⟨hr', hbodyRead⟩ : ∃ hr, readType e ((lineEnds ++ start :: (body' ++ rest)).dropWhile
        (·.token == .newline)) = .ok ⟨body, rest, hr⟩ := by
      rw [dropWhile_append_cons (fun t ht => beq_iff_eq.mpr (hlineEnds t ht))
        (fun h => hstart.not_endsStatement (Or.inl (beq_iff_eq.mp h)))]
      exact readType_complete hbody hangle
    have htokens : first :: (head.append (equals :: (lineEnds ++ start :: body')) ++ rest)
        = first :: head ++ equals :: (lineEnds ++ start :: (body' ++ rest)) := by simp
    revert hshort
    rw [htokens]
    intro hshort
    refine (reading_bind_eq hread _).trans ?_
    refine (if_pos (startsWith_cons hequals)).trans ?_
    dsimp only
    rw [hnames]
    refine (reading_bind_eq (readSymbol_cons hequals) _).trans ?_
    exact reading_bind_eq hbodyRead _

/-! ## Statements in a row -/

theorem Stated.eq_cons {d : Definition} {ts : List Placed} (h : Stated d ts) :
    ∃ first others, ts = first :: others ∧ ¬ EndsStatement first := by
  cases h with
  | type hbody =>
    obtain ⟨first, others, hcons, hfirst⟩ := hbody.eq_cons
    exact ⟨first, others, hcons, hfirst.not_endsStatement⟩
  | named hhead hequals hlineEnds hbody =>
    obtain ⟨head, hwritten, -⟩ := headWritten_iff.mp hhead
    obtain ⟨first, others, hcons, hfirst⟩ := hwritten.eq_cons
    cases hcons
    exact ⟨_, _, rfl, hfirst.not_endsStatement⟩

/-- Statements go on being statements without the first token of the gap before them. -/
theorem StatedAll.tail {ds : List Definition} {s : Placed} {ts : List Placed}
    (h : StatedAll ds (s :: ts)) (hs : EndsStatement s) : StatedAll ds ts := by
  generalize hall : s :: ts = all at h
  cases h with
  | none hgap =>
    subst hall
    exact .none fun t ht => hgap t (List.mem_cons_of_mem _ ht)
  | @last d gap stated hgap hd =>
    cases gap with
    | nil =>
      obtain ⟨first, others, rfl, hfirst⟩ := hd.eq_cons
      cases hall
      exact absurd hs hfirst
    | cons t gap =>
      cases hall
      exact .last (fun t ht => hgap t (List.mem_cons_of_mem _ ht)) hd
  | @more d ds s' gap stated rest hgap hd hs' hds =>
    cases gap with
    | nil =>
      obtain ⟨first, others, rfl, hfirst⟩ := hd.eq_cons
      cases hall
      exact absurd hs hfirst
    | cons t gap =>
      cases hall
      exact .more (fun t ht => hgap t (List.mem_cons_of_mem _ ht)) hd hs' hds

/-- The tokens that end statements at the front, and what stands after them. -/
theorem exists_gap (ts : List Placed) :
    ∃ gap, (∀ t ∈ gap, EndsStatement t) ∧ ts = gap ++ ts.dropWhile isSeparator :=
  ⟨ts.takeWhile isSeparator, fun _ ht => isSeparator_iff.mp (List.mem_takeWhile_imp ht),
    (List.takeWhile_append_dropWhile).symm⟩

theorem dropWhile_gap {gap : List Placed} (hgap : ∀ t ∈ gap, EndsStatement t) :
    gap.dropWhile isSeparator = [] :=
  List.dropWhile_eq_nil_iff.mpr fun t ht => isSeparator_iff.mpr (hgap t ht)

theorem dropWhile_gap_append {gap ts : List Placed} {d : Definition}
    (hgap : ∀ t ∈ gap, EndsStatement t) (hd : Stated d ts) (rest : List Placed) :
    ∃ first others, ts = first :: others ∧
      (gap ++ (ts ++ rest)).dropWhile isSeparator = first :: (others ++ rest) := by
  obtain ⟨first, others, rfl, hfirst⟩ := hd.eq_cons
  exact ⟨first, others, rfl, dropWhile_append_cons (fun t ht => isSeparator_iff.mpr (hgap t ht))
    (fun h => hfirst (isSeparator_iff.mp h))⟩

theorem readDefinitions_nil {ds : List Definition} (h : readDefinitions e [] = .ok ds) :
    (∃ p, e = .finished p) ∧ ds = [] := by
  unfold readDefinitions at h
  cases e with
  | finished p =>
    cases h
    exact ⟨⟨p, rfl⟩, rfl⟩
  | broken fault => cases h

theorem readDefinitions_sound {ts : List Placed} {ds : List Definition}
    (h : readDefinitions e ts = .ok ds) : (∃ p, e = .finished p) ∧ StatedAll ds ts := by
  fun_induction readDefinitions e ts generalizing ds with
  | case1 ts hskip p he =>
    cases h
    obtain ⟨gap, hgap, hts⟩ := exists_gap ts
    rw [hskip, List.append_nil] at hts
    exact ⟨⟨p, he⟩, .none (hts ▸ hgap)⟩
  | case2 ts hskip fault he => cases h
  | case3 ts t rest hskip ih =>
    obtain ⟨gap, hgap, hts⟩ := exists_gap ts
    rw [hskip] at hts
    obtain ⟨d, after, hr, hd, h⟩ := reading_bind_ok h
    obtain ⟨front, hfront, hstated⟩ := readDefinition_sound hd
    rw [hfront] at hts
    subst hts
    have hafter : AtEnd after ∧ ∃ later, readDefinitions e after = .ok later ∧ ds = d :: later := by
      cases after with
      | nil =>
        obtain ⟨later, hlater, hds⟩ := except_bind_ok h
        cases hds
        exact ⟨atEnd_nil, later, hlater, rfl⟩
      | cons s after =>
        dsimp only at h
        split at h
        · rename_i hs
          obtain ⟨later, hlater, hds⟩ := except_bind_ok h
          cases hds
          exact ⟨atEnd_cons (isSeparator_iff.mp hs), later, hlater, rfl⟩
        · cases h
    obtain ⟨hatEnd, later, hlater, rfl⟩ := hafter
    obtain ⟨hp, hstatedAll⟩ := ih _ hr hlater
    cases after with
    | nil =>
      cases (readDefinitions_nil hlater).2
      rw [List.append_nil]
      exact ⟨hp, .last hgap hstated⟩
    | cons s after =>
      have hs := hatEnd s after rfl
      exact ⟨hp, .more hgap hstated hs (hstatedAll.tail hs)⟩

theorem readDefinitions_of_nil {ts : List Placed} (hskip : ts.dropWhile isSeparator = []) :
    readDefinitions e ts = match e with
      | .finished _ => .ok []
      | .broken fault => .error fault := by
  rw [readDefinitions.eq_def]
  split
  · rfl
  · rename_i h
    rw [hskip] at h
    cases h

theorem readDefinitions_of_cons {ts rest : List Placed} {t : Placed}
    (hskip : ts.dropWhile isSeparator = t :: rest) :
    readDefinitions e ts = match readDefinition e t.position (t :: rest) with
      | .error fault => .error fault
      | .ok ⟨d, after, _⟩ =>
        if after.head?.all isSeparator then (d :: ·) <$> readDefinitions e after
        else .error (e.unexpected .endOfDefinition after) := by
  rw [readDefinitions.eq_def]
  split
  · rename_i h
    rw [hskip] at h
    cases h
  · rename_i h
    rw [hskip] at h
    cases h
    cases readDefinition e t.position (t :: rest) with
    | error fault => rfl
    | ok r =>
      obtain ⟨d, after, hr⟩ := r
      cases after with
      | nil => rfl
      | cons s after =>
        by_cases hs : isSeparator s
        · exact (if_pos hs).trans (if_pos hs).symm
        · exact (if_neg hs).trans (if_neg hs).symm

/-- What ends statements at the front makes no difference. -/
theorem readDefinitions_skip {gap ts : List Placed} (hgap : ∀ t ∈ gap, EndsStatement t) :
    readDefinitions e (gap ++ ts) = readDefinitions e ts := by
  have hskip : (gap ++ ts).dropWhile isSeparator = ts.dropWhile isSeparator :=
    List.dropWhile_append_of_pos fun t ht => isSeparator_iff.mpr (hgap t ht)
  cases hts : ts.dropWhile isSeparator with
  | nil => rw [readDefinitions_of_nil hts, readDefinitions_of_nil (hskip.trans hts)]
  | cons t rest => rw [readDefinitions_of_cons hts, readDefinitions_of_cons (hskip.trans hts)]

theorem readDefinitions_stated {d : Definition} {gap ts rest : List Placed}
    (hgap : ∀ t ∈ gap, EndsStatement t) (hd : Stated d ts) (hrest : AtEnd rest) :
    readDefinitions e (gap ++ (ts ++ rest)) = (d :: ·) <$> readDefinitions e rest := by
  obtain ⟨first, others, rfl, hskip⟩ := dropWhile_gap_append hgap hd rest
  obtain ⟨hr, hread⟩ := readDefinition_complete (e := e) hd hrest
  rw [readDefinitions_of_cons hskip, hread]
  refine if_pos ?_
  cases rest with
  | nil => rfl
  | cons s rest => exact isSeparator_iff.mpr (hrest s rest rfl)

/-- Statements are read before what stands after them, whatever that is. -/
theorem readDefinitions_append {ds : List Definition} {ts rest : List Placed}
    (h : StatedAll ds ts) (hrest : AtEnd rest) :
    readDefinitions e (ts ++ rest) = (ds ++ ·) <$> readDefinitions e rest := by
  induction h with
  | none hgap =>
    rw [readDefinitions_skip hgap]
    exact (id_map _).symm
  | last hgap hd =>
    rw [List.append_assoc]
    exact readDefinitions_stated hgap hd hrest
  | @more d ds s gap ts others hgap hd hs hds ih =>
    have hlater : readDefinitions e (s :: (others ++ rest)) = readDefinitions e (others ++ rest) :=
      readDefinitions_skip (List.forall_mem_singleton.mpr hs)
    rw [List.append_assoc, List.append_assoc, List.cons_append,
      readDefinitions_stated hgap hd (atEnd_cons hs), hlater, ih, ← comp_map]
    rfl

theorem readDefinitions_complete {p : Position} {ds : List Definition} {gap ts : List Placed}
    (hgap : ∀ t ∈ gap, EndsStatement t) (h : StatedAll ds ts) :
    readDefinitions (.finished p) (gap ++ ts) = .ok ds := by
  have hend : readDefinitions (.finished p) [] = .ok [] := readDefinitions_of_nil rfl
  have hall := readDefinitions_append (e := .finished p) h atEnd_nil
  rw [List.append_nil, hend] at hall
  rw [readDefinitions_skip hgap, hall]
  exact congrArg Except.ok (List.append_nil ds)

/-! ## Line ends inside brackets -/

/-- A token that is no line end counts everywhere. -/
theorem countsAt_of_ne {depth n : Nat} {ts : List Placed} {t : Placed} (h : t.token ≠ .newline) :
    countsAt depth ts (t, n) = true := by
  rw [countsAt, bne_iff_ne.mpr h]
  rfl

theorem significant_eq (depth : Nat) (ts : List Placed) :
    Tokens.significant depth ts = (ts.zipIdx.filter (countsAt depth ts)).map (·.1) := by
  induction ts generalizing depth with
  | nil => rfl
  | cons t ts ih =>
    have hothers :
        ((ts.zipIdx.map (Prod.map id (· + 1))).filter (countsAt depth (t :: ts))).map (·.1)
        = Tokens.significant (openBrackets depth [t]) ts := by
      rw [ih, List.filter_map, List.map_map]
      rfl
    rw [List.zipIdx_cons', List.filter_cons]
    by_cases hnewline : t.token = .newline
    · have hdepth : countsAt depth (t :: ts) (t, 0) = (depth == 0) := by
        simp [countsAt, hnewline, openBrackets]
      have hopen : openBrackets depth [t] = depth := by simp [openBrackets, hnewline]
      rw [hopen] at hothers
      rw [Tokens.significant, hnewline, hdepth, apply_ite (List.map _), List.map_cons, hothers]
      simp only [beq_iff_eq]
    · rw [if_pos (countsAt_of_ne hnewline), List.map_cons, hothers]
      obtain ⟨token, position⟩ := t
      cases token with
      | newline => exact absurd rfl hnewline
      | symbol s => rfl
      | name name => rfl
      | number n => rfl

theorem significant_eq_withoutInnerLineEnds (ts : List Placed) :
    Tokens.significant 0 ts = withoutInnerLineEnds ts := significant_eq 0 ts

/-! ## Types alone -/

theorem readOnlyType_ok {ts : List Placed} {t : TypeExpr} (h : readOnlyType e ts = .ok t) :
    (∃ p, e = .finished p) ∧ ∃ before mid after,
      ts = before ++ (mid ++ after) ∧ (∀ s ∈ before ++ after, EndsStatement s) ∧
        Written t (tokensOf mid) := by
  obtain ⟨before, hbefore, hts⟩ := exists_gap ts
  obtain ⟨t, after, hr, ht, h⟩ := reading_bind_ok h
  obtain ⟨mid, hmid, hwritten⟩ := readType_sound ht
  obtain ⟨gap, hgap, hafter⟩ := exists_gap after
  dsimp only at h
  split at h
  · rename_i p hskip _
    cases h
    rw [hskip, List.append_nil] at hafter
    rw [hmid, hafter] at hts
    exact ⟨⟨_, rfl⟩, before, mid, gap, hts, List.forall_mem_append.mpr ⟨hbefore, hgap⟩, hwritten⟩
  · cases h

theorem readOnlyType_of {p : Position} {before mid after : List Placed} {t : TypeExpr}
    (hbefore : ∀ s ∈ before, EndsStatement s) (hafter : ∀ s ∈ after, EndsStatement s)
    (h : Written t (tokensOf mid)) :
    readOnlyType (.finished p) (before ++ (mid ++ after)) = .ok t := by
  obtain ⟨first, mid, rfl, hfirst⟩ := h.eq_cons
  have hskip : (before ++ (first :: mid ++ after)).dropWhile isSeparator = first :: mid ++ after :=
    dropWhile_append_cons (fun t ht => isSeparator_iff.mpr (hbefore t ht))
      (fun hs => hfirst.not_endsStatement (isSeparator_iff.mp hs))
  have hangle : ¬ OpensArguments after := by
    cases after with
    | nil => exact atEnd_nil.not_startsWith (by decide)
    | cons s after => exact (atEnd_cons (hafter s List.mem_cons_self)).not_startsWith (by decide)
  obtain ⟨hr, hread⟩ : ∃ hr, readType (.finished p)
      ((before ++ (first :: mid ++ after)).dropWhile isSeparator) = .ok ⟨t, after, hr⟩ := by
    rw [hskip]
    exact readType_complete h hangle
  refine (reading_bind_eq hread _).trans ?_
  dsimp only
  rw [dropWhile_gap hafter]
  rfl

/-! ## The accepted texts -/

theorem mapError_eq_ok_iff {α β γ : Type} {f : α → β} {x : Except α γ} {y : γ} :
    x.mapError f = .ok y ↔ x = .ok y := by
  cases x with
  | error problem => simp [Except.mapError]
  | ok value => simp [Except.mapError]

theorem parseDefinitions_ok {text : String} {ds : List Definition} :
    parseDefinitions text = .ok ds ↔
      readDefinitions (Tokens.ofText text).ending (withoutInnerLineEnds (Tokens.ofText text).placed)
        = .ok ds := by
  rw [parseDefinitions, significant_eq_withoutInnerLineEnds]
  exact mapError_eq_ok_iff

theorem parseTypeExpr_ok {text : String} {t : TypeExpr} :
    parseTypeExpr text = .ok t ↔
      readOnlyType (Tokens.ofText text).ending (withoutInnerLineEnds (Tokens.ofText text).placed)
        = .ok t := by
  rw [parseTypeExpr, significant_eq_withoutInnerLineEnds]
  exact mapError_eq_ok_iff

/-- A text is accepted as definitions exactly if it is all tokens and they state those
definitions, and as a type exactly if they write that type with nothing but line ends and
semicolons around it. Line ends inside brackets are left out in both. -/
theorem the_accepted_texts_are_those_of_the_grammar (text : String) :
    (∀ ds, parseDefinitions text = .ok ds ↔ ∃ placed p, Tokens.ofText text = ⟨placed, .finished p⟩ ∧
      StatedAll ds (withoutInnerLineEnds placed)) ∧
    ∀ t, parseTypeExpr text = .ok t ↔ ∃ placed p, Tokens.ofText text = ⟨placed, .finished p⟩ ∧
      ∃ before mid after, withoutInnerLineEnds placed = before ++ (mid ++ after) ∧
        (∀ s ∈ before ++ after, EndsStatement s) ∧ Written t (tokensOf mid) := by
  constructor
  · intro ds
    rw [parseDefinitions_ok]
    constructor
    · intro h
      obtain ⟨⟨p, hp⟩, hstated⟩ := readDefinitions_sound h
      exact ⟨_, p, congrArg (Tokens.mk _) hp, hstated⟩
    · rintro ⟨placed, p, htokens, hstated⟩
      rw [htokens]
      exact readDefinitions_complete (List.forall_mem_nil _) hstated
  · intro t
    rw [parseTypeExpr_ok]
    constructor
    · intro h
      obtain ⟨⟨p, hp⟩, hwritten⟩ := readOnlyType_ok h
      exact ⟨_, p, congrArg (Tokens.mk _) hp, hwritten⟩
    · rintro ⟨placed, p, htokens, before, mid, after, hmid, hends, hwritten⟩
      obtain ⟨hbefore, hafter⟩ := List.forall_mem_append.mp hends
      rw [htokens]
      dsimp only
      rw [hmid]
      exact readOnlyType_of hbefore hafter hwritten

end Typewire.Language
