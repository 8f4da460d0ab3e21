-- What is published stays so. A registry is asked again and again, and each time it only learns:
-- a type that was given out means the same for ever, and what came to it comes to it again.
import Typewire.Proofs.Registry.Failure
import Typewire.Proofs.Registry.World
import Typewire.Proofs.Shape.Recall

namespace Typewire

open Typewire.Language Wire

/-! ## Known texts -/

/-- Each text that the table remembers is of a type that it finds where the text leads. -/
def Table.Remembers (t : Table) : Prop := ∀ text id, t.expressions.lookup text = some id →
  ∃ e, parseTypeExpr text = .ok e ∧ t.Recalls (.type e []) [id]

namespace Table

variable {t t' : Table}

theorem Remembers.of_nil (h : t.expressions = []) : t.Remembers := by
  intro text id hid
  rw [h] at hid
  cases hid

theorem Drafted.expressions (h : t.Drafted) : t.expressions = [] :=
  h.keeps (P := fun t => t.expressions = []) rfl
    (fun _ _ ht => (SameNotes.intern _).expressions.trans ht) (fun _ ht => ht) (fun _ _ _ ht => ht)
    (fun _ _ _ ht => (expressions_bindName _ _).trans ht) fun _ _ _ _ _ ht => ht

theorem expressions_ofDefinitions {ds : List Definition} (h : Table.ofDefinitions ds = .ok t) :
    t.expressions = [] := by
  obtain ⟨known, w, hall, -, hrun, hfill, -⟩ := ofDefinitions_ok h
  have hof := Declared.of_all hall
  obtain ⟨hnone, -, -⟩ := resolveAll_keeps (P := fun w => w.table.expressions = [])
    (fun _ _ _ _ hw _ hdef => hdef.expressions.trans hw)
    (waiting_start hof) (idle_start hof) rfl hrun
  exact (sameNotes_fillAll hfill).expressions.trans hnone

/-! ## Steps -/

/-- What the table finds it finds again after a step. -/
theorem Step.finds (h : t.Step t') (ht : t.ClosedWorld) : t.Finds t' := by
  cases h with
  | same => exact .refl t
  | extended e => exact ht.finds_extend e
  | remembered => exact (ht.finds_extend _).trans (.of_eq rfl rfl)
  | tuple => exact .intern t _

/-- A text that is known stays so. -/
theorem Step.expressions (h : t.Step t') (ht : t.ClosedWorld) {text : String} {id : TypeId}
    (hid : t.expressions.lookup text = some id) : t'.expressions.lookup text = some id := by
  cases h with
  | same => exact hid
  | extended e => rwa [ht.expressions_extend e]
  | @remembered other e _ hnew =>
    rw [List.lookup_cons, ht.expressions_extend e]
    split
    · rename_i hsame
      rw [eq_of_beq hsame, hnew] at hid
      cases hid
    · exact hid
  | tuple => exact (congrArg _ (SameNotes.intern _).expressions).trans hid

theorem Remembers.step (h : t.Remembers) (ht : t.ClosedWorld) (hstep : t.Step t') :
    t'.Remembers := by
  have hkeep {e : TypeExpr} {id : TypeId} (hid : t.Recalls (.type e []) [id]) :=
    hid.keep_extends (hstep.finds ht) (hstep.extends ht.closed)
  intro text id hid
  cases hstep with
  | same => exact h text id hid
  | extended e =>
    rw [ht.expressions_extend e] at hid
    obtain ⟨e', hparse, hrecall⟩ := h text id hid
    exact ⟨e', hparse, hkeep hrecall⟩
  | @remembered other e new hnew hread hok =>
    rw [List.lookup_cons, ht.expressions_extend e] at hid
    split at hid
    · rename_i hsame
      cases hid
      refine ⟨e, eq_of_beq hsame ▸ hread, ?_⟩
      have hrecall := ht.recalls_extend (e := e) (Prod.ext hok rfl)
      exact hrecall.keep (.of_eq rfl rfl) rfl rfl rfl
    · obtain ⟨e', hparse, hrecall⟩ := h text id hid
      exact ⟨e', hparse, hkeep hrecall⟩
  | tuple =>
    obtain ⟨e', hparse, hrecall⟩ := h text id
      ((congrArg _ (SameNotes.intern _).expressions).symm.trans hid)
    exact ⟨e', hparse, hkeep hrecall⟩

end Table

namespace Registry

variable {r r' r'' : Registry}

theorem Reachable.remembers (h : r.Reachable) : r.table.Remembers := by
  induction h with
  | made h =>
    rcases h.table_cases with ⟨ds, ht⟩ | ⟨hdraft, -⟩
    · exact .of_nil (Table.expressions_ofDefinitions ht)
    · exact .of_nil hdraft.expressions
  | asked q hr ih => exact ih.step hr.world.table (step_of_question q _)

/-! ## Runs -/

/-- The registry after some questions, one after another. -/
def afterAll (qs : List Question) (r : Registry) : Registry := qs.foldl (fun r q => q.after r) r

theorem Reachable.afterAll (h : r.Reachable) (qs : List Question) : (afterAll qs r).Reachable := by
  induction qs generalizing r with
  | nil => exact h
  | cons q qs ih => exact ih (h.asked q)

/-- All that one registry has published the other has too, and it means the same there. -/
structure Keeps (r r' : Registry) : Prop where
  holds : r.table.Extends r'.table
  finds : r.table.Finds r'.table
  texts : ∀ text id, r.table.expressions.lookup text = some id →
    r'.table.expressions.lookup text = some id

theorem Keeps.refl (r : Registry) : Keeps r r := ⟨.refl _, .refl _, fun _ _ h => h⟩

theorem Keeps.trans (h : Keeps r r') (h' : Keeps r' r'') : Keeps r r'' :=
  ⟨h.holds.trans h'.holds, h.finds.trans h'.finds,
    fun text id hid => h'.texts text id (h.texts text id hid)⟩

/-- One question more takes nothing back. -/
theorem World.keeps_after (h : r.World) (q : Question) : Keeps r (q.after r) := by
  have hstep := step_of_question q r
  exact ⟨hstep.extends h.table.closed, hstep.finds h.table,
    fun _ _ hid => hstep.expressions h.table hid⟩

/-- No run of questions takes anything back. -/
theorem World.keeps_afterAll (h : r.World) (qs : List Question) : Keeps r (afterAll qs r) := by
  induction qs generalizing r with
  | nil => exact .refl r
  | cons q qs ih => exact (h.keeps_after q).trans (ih (h.after q))

/-! ## Requests -/

namespace Request

/-- The request as a question. -/
def question : Request → Question
  | text s => .resolve s
  | written e => .resolveExpr e
  | ref r => .typeId r

theorem after_question (q : Request) (r : Registry) : q.question.after r = (outcome q.ask r).2 := by
  cases q <;> rfl

/-- The registry has an answer to the request at hand. -/
def Settled (q : Request) (r : Registry) (id : TypeId) : Prop :=
  match q with
  | text s | ref (.expr s) => r.table.expressions.lookup s = some id
  | written e => r.table.Recalls (.type e []) [id]
  | ref (.position i) => r.table.typeAt i = .ok id
  | ref (.tuple positions) => ∃ members, positions.mapM r.table.typeAt = .ok members ∧
      r.table.interned.lookup (.tuple members) = some id
  | ref (.id i) => i = id ∧ id < r.size

variable {q q' : Request} {id : TypeId}

theorem Settled.keep (h : q.Settled r id) (hkeeps : Keeps r r') : q.Settled r' id := by
  have htypeAt := Table.typeAt_congr hkeeps.holds.positions
  cases q with
  | text s => exact hkeeps.texts s id h
  | written e => exact h.keep_extends hkeeps.finds hkeeps.holds
  | ref ref =>
    cases ref with
    | expr s => exact hkeeps.texts s id h
    | position i => exact (congrFun htypeAt i).trans h
    | tuple positions =>
      obtain ⟨members, hmembers, hid⟩ := h
      exact ⟨members, htypeAt ▸ hmembers, hkeeps.finds.shapes _ _ hid⟩
    | id i => exact ⟨h.1, Nat.lt_of_lt_of_le h.2 hkeeps.holds.size⟩

/-- A request with an answer at hand has that answer, and the registry stays as it is. -/
theorem Settled.ask (h : q.Settled r id) : outcome q.ask r = (.ok id, r) := by
  have htext {s : String} (hs : r.table.expressions.lookup s = some id) :
      outcome (resolve s) r = (.ok id, r) := by
    rw [outcome_resolve, hs]
  cases q with
  | text s => exact htext h
  | written e =>
    change outcome (resolveExpr e) r = _
    rw [outcome_resolveExpr, h.extend]
    rfl
  | ref ref =>
    cases ref with
    | expr s => exact htext h
    | position i =>
      change outcome (typeId (.position i)) r = _
      rw [outcome_position, h]
      rfl
    | tuple positions =>
      obtain ⟨members, hmembers, hid⟩ := h
      change outcome (resolveTuple positions) r = _
      rw [outcome_resolveTuple, hmembers]
      simp only [Table.intern_of_lookup hid]
    | id i =>
      obtain ⟨rfl, hlt⟩ := h
      change outcome (typeId (.id i)) r = _
      rw [outcome_id, if_pos hlt]

theorem settled_of_resolve {s : String} (h : outcome (resolve s) r = (.ok id, r')) :
    r'.table.expressions.lookup s = some id := by
  rw [outcome_resolve] at h
  split at h
  · cases h
    assumption
  split at h
  · cases h
  split at h
  · cases h
  · cases h
    exact List.lookup_cons_self

/-- A request that was answered has its answer at hand from then on. -/
theorem settled_of_ask (hr : r.World) (h : outcome q.ask r = (.ok id, r')) : q.Settled r' id := by
  cases q with
  | text s => exact settled_of_resolve h
  | written e =>
    have hrun := (outcome_resolveExpr e r).symm.trans h
    rcases hext : r.table.extend e with ⟨x | other, t⟩
    · rw [hext] at hrun
      cases hrun
    · rw [hext] at hrun
      cases hrun
      exact hr.table.recalls_extend hext
  | ref ref =>
    cases ref with
    | expr s => exact settled_of_resolve h
    | position i =>
      have hrun := (outcome_position i r).symm.trans h
      cases hplace : r.table.typeAt i with
      | error x =>
        rw [hplace] at hrun
        cases hrun
      | ok other =>
        rw [hplace] at hrun
        cases hrun
        exact hplace
    | tuple positions =>
      have hrun := (outcome_resolveTuple positions r).symm.trans h
      split at hrun
      · cases hrun
      · rename_i members hmembers
        cases hrun
        refine ⟨members, ?_, Table.lookup_intern_self _ _⟩
        have htypeAt := Table.typeAt_congr
          (Table.SameNotes.intern (t := r.table) (.tuple members)).positions
        exact htypeAt ▸ hmembers
    | id i =>
      have hrun := (outcome_id i r).symm.trans h
      split at hrun
      · cases hrun
        exact ⟨rfl, by assumption⟩
      · cases hrun

theorem eq_ok_of_read? {s : String} {e : TypeExpr} (h : read? s = some e) :
    parseTypeExpr s = .ok e := by
  unfold read? at h
  cases hparse : parseTypeExpr s with
  | error x =>
    rw [hparse] at h
    cases h
  | ok e' =>
    rw [hparse] at h
    cases h
    rfl

/-- The answer at hand to a text is what the type that it writes comes to. -/
theorem Settled.recalls (h : q.Settled r id) (hr : r.table.Remembers) {e : TypeExpr}
    (he : q.expr? = some e) : r.table.Recalls (.type e []) [id] := by
  have htext {s : String} (hs : r.table.expressions.lookup s = some id) (he : read? s = some e) :
      r.table.Recalls (.type e []) [id] := by
    obtain ⟨e', hparse, hrecall⟩ := hr s id hs
    cases (eq_ok_of_read? he).symm.trans hparse
    exact hrecall
  cases q with
  | text s => exact htext h he
  | written e' =>
    cases he
    exact h
  | ref ref =>
    cases ref with
    | expr s => exact htext h he
    | position | tuple | id => cases he

/-- However a type that the registry finds is asked for, it comes to its place and no place is
added. -/
theorem ask_of_recalls (hr : r.table.Remembers) {e : TypeExpr} (he : q.expr? = some e)
    (h : r.table.Recalls (.type e []) [id]) :
    ∃ r', outcome q.ask r = (.ok id, r') ∧ r'.size = r.size := by
  have htext {s : String} (he : read? s = some e) :
      ∃ r', outcome (resolve s) r = (.ok id, r') ∧ r'.size = r.size := by
    rw [outcome_resolve]
    cases hknown : r.table.expressions.lookup s with
    | some other =>
      obtain ⟨e', hparse, hrecall⟩ := hr s other hknown
      cases (eq_ok_of_read? he).symm.trans hparse
      cases hrecall.extend.symm.trans h.extend
      exact ⟨r, rfl, rfl⟩
    | none =>
      simp only [eq_ok_of_read? he, h.extend]
      exact ⟨_, rfl, rfl⟩
  cases q with
  | text s => exact htext he
  | written e' =>
    cases he
    exact ⟨r, Settled.ask (q := .written e) h, rfl⟩
  | ref ref =>
    cases ref with
    | expr s => exact htext he
    | position | tuple | id => cases he

end Request

/-! ## Encoding and decoding -/

theorem World.form_keeps (h : r.World) (h' : r'.World) (hkeeps : Keeps r r') {id : TypeId}
    (hid : id < r.size) : r'.form id = r.form id := by
  rw [h'.form, h.form]
  exact h.table.form_extends hkeeps.holds hid

/-- Under a place of the registry the answer is that of the forms alone. -/
theorem World.outcome_ask (h : r.World) {α : Type} (f : Forms → TypeId → Except CodecError α)
    {id : TypeId} (hid : id < r.size) :
    (outcome (do
      let id ← Registry.codec (.id id)
      ofExcept .codec (f (← get).form id) : Asking α) r).1 = (f r.form id).mapError .codec := by
  have hnamed : outcome (typeId (.id id)) r = (.ok id, r) := by rw [outcome_id, if_pos hid]
  obtain ⟨r', hcodec, -, -⟩ := h.codec hnamed
  have halike := (outcome_codec (.id id) r).1
  rw [hnamed, hcodec] at halike
  rw [outcome_bind_ok hcodec, outcome_get, halike.form]
  cases f r.form id <;> rfl

/-- Whatever a registry is asked, and whether it has an answer or not, it grows or stays as large
as it is, and what it has published keeps its meaning: the shapes of its types, the definitions and
the names, and how values are written and read. A type that was given out once is given out again,
however it is asked for, and no place is added for it. -/
theorem published_types_keep_their_meaning (hr : r.Reachable) (qs : List Question) :
    r.size ≤ (afterAll qs r).size ∧
    (∀ id, id < r.size → (afterAll qs r).table.shape? id = r.table.shape? id) ∧
    ((afterAll qs r).table.positions = r.table.positions ∧
      (afterAll qs r).table.positionNames = r.table.positionNames ∧
      (afterAll qs r).table.names = r.table.names ∧
      (afterAll qs r).table.generics = r.table.generics) ∧
    (∀ id, id < r.size → ∀ v bytes,
      Wire.encode (afterAll qs r).form v id = Wire.encode r.form v id ∧
      (afterAll qs r).form.decodePrefix id bytes = r.form.decodePrefix id bytes ∧
      (afterAll qs r).form.decode id bytes = r.form.decode id bytes ∧
      (outcome (encode (.id id) v) (afterAll qs r)).1 = (outcome (encode (.id id) v) r).1 ∧
      (outcome (decode (.id id) bytes) (afterAll qs r)).1
        = (outcome (decode (.id id) bytes) r).1) ∧
    (∀ (q : Request) id r', outcome q.ask r = (.ok id, r') →
      outcome q.ask (afterAll qs r') = (.ok id, afterAll qs r') ∧
      ∀ (e : TypeExpr) (q' : Request), q.expr? = some e → q'.expr? = some e →
        ∃ r'', outcome q'.ask (afterAll qs r') = (.ok id, r'') ∧
          r''.size = (afterAll qs r').size) := by
  have hworld := hr.world
  have hkeeps := hworld.keeps_afterAll qs
  have hworld' := (hr.afterAll qs).world
  refine ⟨hkeeps.holds.size, hkeeps.holds.shape?, ⟨hkeeps.holds.positions,
    hkeeps.holds.positionNames, hkeeps.holds.names, hkeeps.holds.generics⟩,
    fun id hid v bytes => ?_, fun q id r' hid => ?_⟩
  · have hforms (other : TypeId) (hother : other < r.size) :=
      hworld.form_keeps hworld' hkeeps hother
    have hencode := encode_congr hworld.within_form hforms v hid
    have hdecode : Wire.decode (afterAll qs r).form id = Wire.decode r.form id :=
      decodeWithin_congr hworld.within_form hforms maxLevels hid
    have hprefix : (afterAll qs r).form.decodePrefix id bytes = r.form.decodePrefix id bytes := by
      rw [Forms.decodePrefix, hdecode, ← Forms.decodePrefix]
    have hwhole : (afterAll qs r).form.decode id bytes = r.form.decode id bytes := by
      rw [Forms.decode, hprefix, ← Forms.decode]
    have hid' := Nat.lt_of_lt_of_le hid hkeeps.holds.size
    refine ⟨hencode, hprefix, hwhole, ?_, ?_⟩
    · have hasked := hworld.outcome_ask (fun forms id => forms.encode id v) hid
      have hasked' := hworld'.outcome_ask (fun forms id => forms.encode id v) hid'
      have hresult : (afterAll qs r).form.encode id v = r.form.encode id v :=
        congrArg Encoding.result hencode
      exact hasked'.trans ((congrArg (·.mapError Error.codec) hresult).trans hasked.symm)
    · have hasked := hworld.outcome_ask (fun forms id => forms.decode id bytes) hid
      have hasked' := hworld'.outcome_ask (fun forms id => forms.decode id bytes) hid'
      exact hasked'.trans ((congrArg (·.mapError Error.codec) hwhole).trans hasked.symm)
  · have hr' : r'.Reachable := by
      have hasked := hr.asked q.question
      rwa [q.after_question r, hid] at hasked
    have hsettled := (Request.settled_of_ask hworld hid).keep (hr'.world.keeps_afterAll qs)
    have hremembers := (hr'.afterAll qs).remembers
    exact ⟨hsettled.ask, fun e q' he he' =>
      Request.ask_of_recalls hremembers he' (hsettled.recalls hremembers he)⟩

/-- A question that fails behind a new place, and one that adds places. -/
def laterQuestions : List Question :=
  [.resolveExpr (.tuple [.named "str" [], .named "Missing" []]),
    .resolve "[u32]"]

theorem a_compact_integer_keeps_its_meaning :
    compactRegistry.Reachable ∧ compactRegistry.size = 2 ∧
      (afterAll laterQuestions compactRegistry).size = 4 ∧
      (afterAll laterQuestions compactRegistry).table.shape? 1 = some (.compact 0) ∧
      ∃ r', outcome (resolve "@u16") compactRegistry = (.ok 1, r') ∧
        outcome (resolve "@u16") (afterAll laterQuestions r')
          = (.ok 1, afterAll laterQuestions r') := by
  have hreachable : compactRegistry.Reachable := .asked _ (.made .empty)
  obtain ⟨-, hshapes, -, -, hagain⟩ :=
    published_types_keep_their_meaning hreachable laterQuestions
  have hshape : compactRegistry.table.shape? 1 = some (.compact 0) := by decide +kernel
  have hsize : compactRegistry.size = 2 := by decide +kernel
  have hgrown : (afterAll laterQuestions compactRegistry).size = 4 := by decide +kernel
  have hnamed : (outcome (resolve "@u16") compactRegistry).1.toOption = some 1 := by
    decide +kernel
  rcases hrun : outcome (resolve "@u16") compactRegistry with ⟨x | id, r'⟩
  · rw [hrun] at hnamed
    cases hnamed
  · rw [hrun] at hnamed
    cases hnamed
    exact ⟨hreachable, hsize, hgrown, (hshapes 1 (by rw [hsize]; decide)).trans hshape, r', rfl,
      (hagain (.text "@u16") 1 r' hrun).1⟩

end Registry

end Typewire
