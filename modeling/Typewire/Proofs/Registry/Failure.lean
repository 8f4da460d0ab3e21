-- What a failed request leaves in a registry. All is as before, except that generic instances
-- stay known that came to places known before; so a request that fails can be told from one
-- that was never made.
import Typewire.Proofs.Registry.Rules

namespace Typewire

open Typewire.Language Resolving

/-! ## Finished instances -/

/-- The generic instances that resolving a type in the table finished at places known before, the
latest first. -/
def Table.finishedAtKnown (t : Table) (e : TypeExpr) : List (InstanceKey × TypeId) :=
  let known := (t.resolving e).2.table.instances
  (known.take (known.length - t.instances.length)).filter (·.2 < t.size)

theorem Table.noteAll_eq_self {t : Table} {notes : List Note} :
    t.noteAll notes = t ↔ notes = [] := by
  constructor
  · intro h
    have hinstances := congrArg Table.instances h
    rw [instances_noteAll, List.append_left_eq_self] at hinstances
    exact List.map_eq_nil_iff.mp hinstances
  · rintro rfl
    rfl

/-- A type that fails to be taken up leaves the notes of what it finished at known places. -/
theorem Table.extend_leaves {t t' : Table} (ht : t.Closed) {e : TypeExpr} {x : ResolveError}
    (h : t.extend e = (.error x, t')) :
    ∃ notes : List Note, t' = t.noteAll notes ∧
      notes.map (fun n => (n.key, n.id)) = t.finishedAtKnown e ∧
      ∀ n ∈ notes, n.id < t.size ∧ t.instances.lookup n.key = none := by
  obtain ⟨notes, hinstances, rfl, hnew⟩ := extend_error ht h
  refine ⟨notes.filter (·.id < t.size), rfl, ?_, ?_⟩
  · unfold finishedAtKnown
    simp only [hinstances, List.length_append, Nat.add_sub_cancel, List.take_left,
      List.filter_map]
    rfl
  · intro n hn
    obtain ⟨hmem, hid⟩ := List.mem_filter.mp hn
    exact ⟨by simpa using hid, hnew n hmem⟩

/-! ## Requests -/

namespace Registry

/-- A question for one type: by a text, by a written type or by a reference. -/
inductive Request where
  | text (text : String)
  | written (e : TypeExpr)
  | ref (ref : TypeRef)

namespace Request

/-- What is asked. -/
def ask : Request → Asking TypeId
  | text s => resolve s
  | written e => resolveExpr e
  | ref r => typeId r

/-- The type that a text writes, if it can be read. -/
def read? (s : String) : Option TypeExpr := (parseTypeExpr s).toOption

/-- The type that has to be resolved, if there is one. -/
def expr? : Request → Option TypeExpr
  | text s | ref (.expr s) => read? s
  | written e => some e
  | ref _ => none

/-- The generic instances that the request finishes at places known before. -/
def finished (q : Request) (t : Table) : List (InstanceKey × TypeId) :=
  (q.expr?.map t.finishedAtKnown).getD []

end Request

/-- One registry is the other with notes of the instances that a request finished at known
places. -/
def Leaves (q : Request) (r r' : Registry) : Prop :=
  ∃ notes : List Note, r' = { r with table := r.table.noteAll notes } ∧
    notes.map (fun n => (n.key, n.id)) = q.finished r.table ∧
    ∀ n ∈ notes, n.id < r.table.size ∧ r.table.instances.lookup n.key = none

theorem leaves_self {q : Request} (r : Registry) (h : q.expr? = none) : Leaves q r r :=
  ⟨[], rfl, by simp [Request.finished, h], by simp⟩

theorem leaves_extend {q : Request} {r : Registry} (hr : r.Reachable) {e : TypeExpr}
    (hq : q.expr? = some e) {x : ResolveError} {t : Table}
    (h : r.table.extend e = (.error x, t)) : Leaves q r { r with table := t } := by
  obtain ⟨notes, rfl, hfinished, hnew⟩ := Table.extend_leaves hr.closed_and_sound.1 h
  exact ⟨notes, rfl, by simpa [Request.finished, hq] using hfinished, hnew⟩

theorem leaves_resolve {q : Request} {r r' : Registry} (hr : r.Reachable) {text : String}
    (hq : q.expr? = Request.read? text) {x : Error} (h : outcome (resolve text) r = (.error x, r')) :
    Leaves q r r' := by
  rw [outcome_resolve] at h
  split at h
  · cases h
  unfold Request.read? at hq
  split at h
  · rename_i hparse
    rw [hparse] at hq
    cases h
    exact leaves_self r hq
  · rename_i e hparse
    rw [hparse] at hq
    split at h
    · rename_i hext
      cases h
      exact leaves_extend hr hq hext
    · cases h

/-- A request that fails leaves everything as it was, except for notes of the generic instances
that it finished at known places. So it leaves no trace exactly when it finished none. -/
theorem a_failed_request_leaves_only_instances_at_known_places {r r' : Registry}
    (hr : r.Reachable) (q : Request) {x : Error} (h : outcome q.ask r = (.error x, r')) :
    (∃ notes : List Note, r' = { r with table := r.table.noteAll notes } ∧
      notes.map (fun n => (n.key, n.id)) = q.finished r.table ∧
      ∀ n ∈ notes, n.id < r.table.size ∧ r.table.instances.lookup n.key = none) ∧
    (r' = r ↔ q.finished r.table = []) := by
  have hleaves : Leaves q r r' := by
    cases q with
    | text text => exact leaves_resolve hr rfl h
    | written e =>
      rcases hext : r.table.extend e with ⟨y | id, t⟩
      · have hrun := (outcome_resolveExpr e r).symm.trans h
        rw [hext] at hrun
        cases hrun
        exact leaves_extend hr rfl hext
      · have hrun := (outcome_resolveExpr e r).symm.trans h
        rw [hext] at hrun
        cases hrun
    | ref ref =>
      cases ref with
      | position n =>
        change outcome (get >>= fun r => ofExcept .resolve (r.table.typeAt n)) r = _ at h
        rw [outcome_get] at h
        cases hplace : r.table.typeAt n with
        | error y =>
          rw [hplace] at h
          cases h
          exact leaves_self r rfl
        | ok id =>
          rw [hplace] at h
          cases h
      | expr text => exact leaves_resolve hr rfl h
      | tuple positions =>
        have hrun := (outcome_resolveTuple positions r).symm.trans h
        split at hrun
        · cases hrun
          exact leaves_self r rfl
        · cases hrun
      | id id =>
        change outcome (get >>= fun r => (if r.table.contains id then pure id
          else throw (Error.resolve (.unknownPlace id)) : Asking TypeId)) r = _ at h
        rw [outcome_get] at h
        split at h
        · cases h
        · cases h
          exact leaves_self r rfl
  refine ⟨hleaves, ?_⟩
  obtain ⟨notes, rfl, hfinished, -⟩ := hleaves
  rw [← hfinished, List.map_eq_nil_iff, ← Table.noteAll_eq_self (t := r.table)]
  constructor
  · exact congrArg Registry.table
  · intro hnotes
    rw [hnotes]

/-- Three definitions: `Snd` comes to its second argument, and `F` gives it a compact integer
first. -/
def phantomDefinitions : List Definition :=
  [⟨some "Snd", ["A", "B"], .named "B" [], 1⟩,
    ⟨some "F", ["T"], .named "Snd" [.compact (.named "T" []), .named "u8" []], 2⟩,
    ⟨none, [], .named "u8" [], 3⟩]

/-- The registry of the three definitions. -/
def phantom : Registry := (ofDefinitions phantomDefinitions).toOption.getD empty

/-- A request that finishes `F` over a new place and then fails. -/
def phantomRequest : Request :=
  .written (.tuple [.named "F" [.named "u32" []], .named "Missing" []])

/-- The failed request leaves that `F` over the place after the last comes to `u8`. So a type
that was refused before it, as `str` has no compact form, is taken up after it. -/
theorem a_failed_request_leaves_an_instance_of_a_new_place :
    ∃ r', phantom.Reachable ∧
      (∃ x, outcome phantomRequest.ask phantom = (.error x, r')) ∧
      phantomRequest.finished phantom.table
        = [(⟨"F", [phantom.table.size]⟩, 0), (⟨"Snd", [phantom.table.size + 1, 0]⟩, 0)] ∧
      r' ≠ phantom ∧
      (outcome (resolveExpr (.named "F" [.named "str" []])) phantom).1.isOk = false ∧
      (outcome (resolveExpr (.named "F" [.named "str" []])) r').1.isOk = true := by
  have hmade : phantom.Reachable := by
    cases h : ofDefinitions phantomDefinitions with
    | ok r =>
      rw [phantom, h]
      exact .made (.defined h)
    | error x =>
      rw [phantom, h]
      exact .made .empty
  have hfinished : phantomRequest.finished phantom.table
      = [(⟨"F", [phantom.table.size]⟩, 0), (⟨"Snd", [phantom.table.size + 1, 0]⟩, 0)] := by
    decide +kernel
  have hfails : (outcome phantomRequest.ask phantom).1.isOk = false := by decide +kernel
  have hafter : (outcome (resolveExpr (.named "F" [.named "str" []]))
      (outcome phantomRequest.ask phantom).2).1.isOk = true := by decide +kernel
  rcases h : outcome phantomRequest.ask phantom with ⟨x | id, r'⟩
  · rw [h] at hafter
    refine ⟨r', hmade, ⟨x, rfl⟩, hfinished, ?_, by decide +kernel, hafter⟩
    rw [Ne, (a_failed_request_leaves_only_instances_at_known_places hmade _ h).2, hfinished]
    simp
  · rw [h] at hfails
    cases hfails

end Registry

end Typewire
