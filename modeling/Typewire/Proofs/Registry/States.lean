-- The registries that there can be. A registry is made from text, from definitions or by hand,
-- and then it is asked, again and again. A question changes its table in four ways at most.
import Typewire.Proofs.Registry.Ready
import Typewire.Proofs.Shape.Definitions

namespace Typewire

open Typewire.Language Resolving

/-! ## Making and asking -/

/-- A table that was built by hand, whether it keeps the rules yet or not. -/
inductive Table.Drafted : Table → Prop where
  | empty : Drafted {}
  | interned {t t' s id} : Drafted t → t.internChecked s = .ok (id, t') → Drafted t'
  | added {t t' s id} : Drafted t → t.add s = .ok (id, t') → Drafted t'
  | named {t t' name s id} : Drafted t → t.addNamed name s = .ok (id, t') → Drafted t'
  | reserved {t t' name id} : Drafted t → t.addReserved name = .ok (id, t') → Drafted t'
  | defined {t t' id s} : Drafted t → t.define id s = .ok t' → Drafted t'

namespace Registry

/-- A registry as it is made. -/
inductive Made : Registry → Prop where
  | parsed {text r} : parse text = .ok r → Made r
  | defined {ds r} : ofDefinitions ds = .ok r → Made r
  | built {draft t : Table} : draft.Drafted → draft.build = .ok t → Made { table := t }
  | empty : Made empty

/-- What can be asked of a registry. -/
inductive Question where
  | resolve (text : String)
  | resolveExpr (e : TypeExpr)
  | resolveTuple (positions : List Nat)
  | typeId (ref : TypeRef)
  | codec (ref : TypeRef)
  | encode (ref : TypeRef) (v : Value)
  | decode (ref : TypeRef) (bytes : List UInt8)

/-- The registry after a question, whether it had an answer or not. -/
def Question.after (q : Question) (r : Registry) : Registry :=
  match q with
  | resolve text => (outcome (Registry.resolve text) r).2
  | resolveExpr e => (outcome (Registry.resolveExpr e) r).2
  | resolveTuple positions => (outcome (Registry.resolveTuple positions) r).2
  | typeId ref => (outcome (Registry.typeId ref) r).2
  | codec ref => (outcome (Registry.codec ref) r).2
  | encode ref v => (outcome (Registry.encode ref v) r).2
  | decode ref bytes => (outcome (Registry.decode ref bytes) r).2

/-- A registry as it can be after any questions. -/
inductive Reachable : Registry → Prop where
  | made {r} : Made r → Reachable r
  | asked {r} (q : Question) : Reachable r → Reachable (q.after r)

end Registry

/-! ## What a question changes -/

/-- One question changes the table like this: not at all, by a type that it takes up or fails to
take up, by a text that it remembers for a type, or by a tuple of known types. -/
inductive Table.Step (t : Table) : Table → Prop where
  | same : Step t t
  | extended (e : TypeExpr) : Step t (t.extend e).2
  | remembered {text e id} : t.expressions.lookup text = none → parseTypeExpr text = .ok e →
    (t.extend e).1 = .ok id →
    Step t { (t.extend e).2 with expressions := (text, id) :: (t.extend e).2.expressions }
  | tuple {positions : List Nat} {members : List TypeId} : positions.mapM t.typeAt = .ok members →
    Step t (t.intern (.tuple members)).2

namespace Registry

theorem outcome_resolveExpr (e : TypeExpr) (r : Registry) :
    outcome (resolveExpr e) r
      = ((r.table.extend e).1.mapError .resolve, { r with table := (r.table.extend e).2 }) := by
  unfold resolveExpr
  rw [outcome_get]
  rcases h : r.table.extend e with ⟨x | id, t⟩ <;> rfl

/-- A text is resolved as it was before, or it is read and taken up and remembered. -/
theorem outcome_resolve (text : String) (r : Registry) :
    outcome (resolve text) r
      = match r.table.expressions.lookup text with
        | some id => (.ok id, r)
        | none =>
          match parseTypeExpr text with
          | .error x => (.error (.grammar x), r)
          | .ok e =>
            match r.table.extend e with
            | (.error x, t) => (.error (.resolve x), { r with table := t })
            | (.ok id, t) =>
              (.ok id,
                { r with table := { t with expressions := (text, id) :: t.expressions } }) := by
  unfold resolve
  rw [outcome_get]
  cases hknown : r.table.expressions.lookup text with
  | some id => rfl
  | none =>
    cases hparse : parseTypeExpr text with
    | error x => rfl
    | ok e =>
      have hrun := outcome_resolveExpr e r
      change outcome (resolveExpr e >>= fun id => do
        modify fun r => { r with table :=
          { r.table with expressions := (text, id) :: r.table.expressions } }
        return id) r = _
      rcases hext : r.table.extend e with ⟨x | id, t⟩
      · rw [hext] at hrun
        simp only [hext]
        exact outcome_bind_error hrun _
      · rw [hext] at hrun
        simp only [hext]
        exact outcome_bind_ok hrun _

theorem outcome_resolveTuple (positions : List Nat) (r : Registry) :
    outcome (resolveTuple positions) r
      = match positions.mapM r.table.typeAt with
        | .error x => (.error (.resolve x), r)
        | .ok members =>
          (.ok (r.table.intern (.tuple members)).1,
            { r with table := (r.table.intern (.tuple members)).2 }) := by
  unfold resolveTuple
  rw [outcome_get]
  cases h : positions.mapM r.table.typeAt with
  | error x => rfl
  | ok members => rfl

theorem outcome_position (n : Nat) (r : Registry) :
    outcome (typeId (.position n)) r = ((r.table.typeAt n).mapError .resolve, r) := by
  change outcome (get >>= fun r => ofExcept .resolve (r.table.typeAt n)) r = _
  rw [outcome_get]
  cases r.table.typeAt n <;> rfl

theorem outcome_id (id : TypeId) (r : Registry) :
    outcome (typeId (.id id)) r
      = (if id < r.size then .ok id else .error (.resolve (.unknownPlace id)), r) := by
  change outcome (get >>= fun r => (if r.table.contains id then pure id
    else throw (Error.resolve (.unknownPlace id)) : Asking TypeId)) r = _
  rw [outcome_get]
  by_cases hid : id < r.size
  · have hin : r.table.contains id = true := decide_eq_true hid
    simp only [hid, hin, if_true]
    rfl
  · have hout : r.table.contains id = false := decide_eq_false hid
    simp only [hid, hout, if_false]
    rfl

/-- Naming a type changes no more than the table, and that by one step. -/
theorem outcome_typeId (ref : TypeRef) (r : Registry) :
    ∃ t, r.table.Step t ∧ (outcome (typeId ref) r).2 = { r with table := t } := by
  cases ref with
  | position n =>
    exact ⟨r.table, .same, by rw [outcome_position]⟩
  | expr text =>
    change ∃ t, r.table.Step t ∧ (outcome (resolve text) r).2 = { r with table := t }
    rw [outcome_resolve]
    cases hknown : r.table.expressions.lookup text with
    | some id => exact ⟨r.table, .same, rfl⟩
    | none =>
      cases hparse : parseTypeExpr text with
      | error x => exact ⟨r.table, .same, rfl⟩
      | ok e =>
        have hstep := Table.Step.extended (t := r.table) e
        rcases hext : r.table.extend e with ⟨x | id, t⟩
        · rw [hext] at hstep
          exact ⟨t, hstep, by simp only [hext]⟩
        · have hremember := Table.Step.remembered hknown hparse (by rw [hext])
          rw [hext] at hremember
          exact ⟨_, hremember, by simp only [hext]⟩
  | tuple positions =>
    change ∃ t, r.table.Step t ∧ (outcome (resolveTuple positions) r).2 = { r with table := t }
    rw [outcome_resolveTuple]
    cases hmembers : positions.mapM r.table.typeAt with
    | error x => exact ⟨r.table, .same, rfl⟩
    | ok members => exact ⟨_, .tuple hmembers, rfl⟩
  | id id =>
    exact ⟨r.table, .same, by rw [outcome_id]⟩

/-- After a question the table is one step from the table before, and else only more forms are
kept. -/
theorem after_eq (q : Question) (r : Registry) :
    ∃ t, r.table.Step t ∧ Alike { r with table := t } (q.after r) := by
  have htypeId (ref : TypeRef) :
      ∃ t, r.table.Step t ∧ Alike { r with table := t } (outcome (Registry.typeId ref) r).2 := by
    obtain ⟨t, hstep, ht⟩ := outcome_typeId ref r
    exact ⟨t, hstep, ht ▸ .refl _⟩
  have hcodec (ref : TypeRef) :
      ∃ t, r.table.Step t ∧ Alike { r with table := t } (outcome (Registry.codec ref) r).2 := by
    obtain ⟨t, hstep, ht⟩ := htypeId ref
    exact ⟨t, hstep, ht.trans (outcome_codec ref r).1⟩
  have hafter {α : Type} (ref : TypeRef) (f : Registry → TypeId → Except CodecError α) :
      (outcome (do
        let id ← Registry.codec ref
        ofExcept .codec (f (← get) id) : Asking α) r).2 = (outcome (Registry.codec ref) r).2 := by
    rcases h : outcome (Registry.codec ref) r with ⟨x | id, r'⟩
    · rw [outcome_bind_error h]
    · rw [outcome_bind_ok h, outcome_get]
      cases f r' id <;> rfl
  cases q with
  | resolve text => exact htypeId (.expr text)
  | resolveExpr e =>
    refine ⟨_, .extended e, ?_⟩
    change Alike _ (outcome (Registry.resolveExpr e) r).2
    rw [outcome_resolveExpr]
    exact .refl _
  | resolveTuple positions => exact htypeId (.tuple positions)
  | typeId ref => exact htypeId ref
  | codec ref => exact hcodec ref
  | encode ref v =>
    change ∃ t, _ ∧ Alike _ (outcome (Registry.encode ref v) r).2
    rw [Registry.encode, hafter ref fun r id => r.form.encode id v]
    exact hcodec ref
  | decode ref bytes =>
    change ∃ t, _ ∧ Alike _ (outcome (Registry.decode ref bytes) r).2
    rw [Registry.decode, hafter ref fun r id => r.form.decode id bytes]
    exact hcodec ref

/-- The table after a question is one step from the table before. -/
theorem step_of_question (q : Question) (r : Registry) : r.table.Step (q.after r).table := by
  obtain ⟨t, hstep, halike⟩ := after_eq q r
  rwa [halike.table]

/-- What holds of the table of every registry as it is made, and is kept by every step, holds of
the table of every registry. -/
theorem Reachable.table_induction {P : Table → Prop} (hmade : ∀ r, Made r → P r.table)
    (hstep : ∀ t t', P t → t.Step t' → P t') {r : Registry} (h : r.Reachable) : P r.table := by
  induction h with
  | made h => exact hmade _ h
  | asked q _ ih => exact hstep _ _ ih (step_of_question q _)

end Registry

end Typewire
