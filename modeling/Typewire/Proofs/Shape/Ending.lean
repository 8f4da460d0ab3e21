-- Resolution ends. Whatever the definitions are and whatever type is asked for later, the machine
-- halts with what the table comes to. On its way no more generic bodies are in progress than may
-- be, and no definition is entered twice.
import Typewire.Proofs.Shape.Definitions
import Typewire.Proofs.Shape.Machine

namespace Typewire

open Typewire.Language

namespace Machine

variable {p : Program}

/-! ## Generic bodies in progress -/

/-- Wherever the stack holds a generic type, there was room for its body below it. -/
def Roomy : List Frame → Prop
  | [] => True
  | .apply .. :: k | .generic .. :: k => genericBodies k < maxInstances ∧ Roomy k
  | _ :: k => Roomy k

theorem Roomy.genericBodies_le {k : List Frame} (h : Roomy k) : genericBodies k ≤ maxInstances := by
  induction k with
  | nil => exact Nat.zero_le _
  | cons f k ih =>
    cases f with
    | generic g key label => exact h.1
    | apply g name n => exact Nat.le_of_lt h.1
    | _ => exact ih h

theorem Roomy.tail {f : Frame} {k : List Frame} (h : Roomy (f :: k)) : Roomy k := by
  cases f with
  | generic g key label => exact h.2
  | apply g name n => exact h.2
  | _ => exact h

/-- There is room for what the machine is about to take up. -/
structure State.Bounded (σ : State) : Prop where
  stack : Roomy σ.stack
  next : ∀ g key n, σ.control = .start (.generic g key) n → genericBodies σ.stack < maxInstances

/-- Only a generic type that is to be taken up needs room. -/
theorem bounded_of_ne {σ : State} (h : Roomy σ.stack)
    (hcontrol : ∀ g key n, σ.control ≠ .start (.generic g key) n) : σ.Bounded :=
  ⟨h, fun g key n hgeneric => absurd hgeneric (hcontrol g key n)⟩

theorem bounded_give {w : Workspace} {k : List Frame} (h : Roomy k)
    (r : Except ResolveError (List TypeId)) : State.Bounded ⟨w, k, .give r⟩ :=
  bounded_of_ne h fun _ _ _ hcontrol => by cases hcontrol

theorem bounded_startType {w : Workspace} {k : List Frame} {s : Bindings} {n : Nat}
    (h : Roomy k) (e : TypeExpr) : (startType p w k s n e).Bounded := by
  unfold startType
  split
  · split
    · exact bounded_of_ne h (by simp)
    · exact bounded_give h _
  · refine bounded_of_ne h ?_
    dsimp only
    unfold startName
    split <;> simp
  · split
    · exact bounded_give h _
    · split
      · rename_i hroom
        exact bounded_of_ne ⟨hroom, h⟩ (by simp)
      · exact bounded_give h _
  · exact bounded_of_ne h (by simp)

theorem bounded_start {w : Workspace} {k : List Frame} {n : Nat} {task : Task} (h : Roomy k)
    (hroom : ∀ g key, task = .generic g key → genericBodies k < maxInstances) :
    (start p w k n task).Bounded := by
  unfold start
  split
  · exact bounded_give h _
  · exact bounded_give h _
  · exact bounded_of_ne h (by simp)
  · exact bounded_startType h _
  · unfold startDefinition
    split
    · exact bounded_give h _
    · exact bounded_give h _
    · split <;> exact bounded_give h _
    · exact bounded_of_ne h (by simp)
  · rename_i g key
    unfold startGeneric
    dsimp only
    split
    · exact bounded_give h _
    · split <;> exact bounded_give h _
    · exact bounded_of_ne ⟨hroom g key rfl, h⟩ (by simp)

theorem bounded_resume {w : Workspace} {f : Frame} {k : List Frame} {ids : List TypeId} {σ : State}
    (h : Roomy (f :: k)) (hσ : resume p w k f ids = some σ) : σ.Bounded := by
  unfold resume at hσ
  split at hσ
  · cases hσ
    exact bounded_of_ne h.tail (by simp)
  · cases hσ
    exact bounded_give h.tail _
  · obtain ⟨shape, -, rfl⟩ := Option.map_eq_some_iff.mp hσ
    split <;> exact bounded_give h.tail _
  · cases hσ
    exact ⟨h.tail, fun _ _ _ _ => h.1⟩
  · split at hσ
    · split at hσ <;> cases hσ <;> exact bounded_give h.tail _
    · cases hσ
  · obtain ⟨u, -, rfl⟩ := Option.map_eq_some_iff.mp hσ
    split <;> exact bounded_give h.tail _
  · cases hσ
    exact bounded_of_ne h.tail (by simp)
  · cases hσ

theorem bounded_fail {w : Workspace} {f : Frame} {k : List Frame} {x : ResolveError}
    (h : Roomy (f :: k)) : (fail p w k x f).Bounded := by
  unfold fail
  split <;> exact bounded_give h.tail _

/-- A step takes up a generic body only where there is room for it. -/
theorem State.Bounded.step {σ σ' : State} (h : σ.Bounded) (hσ : step p σ = some σ') :
    σ'.Bounded := by
  obtain ⟨hstack, hnext⟩ := h
  unfold Machine.step at hσ
  split at hσ
  · cases hσ
    refine bounded_start hstack ?_
    rintro g key rfl
    exact hnext g key _ rfl
  · cases hσ
    unfold takeNext
    split
    · exact bounded_give hstack _
    · split <;> exact bounded_of_ne hstack (by simp)
  · exact bounded_resume hstack hσ
  · cases hσ
    exact bounded_fail hstack
  · cases hσ
    exact bounded_of_ne hstack (by simp)
  · cases hσ
    exact bounded_of_ne hstack (by simp)
  · cases hσ
    unfold pass
    split
    · exact bounded_of_ne trivial (by simp)
    · dsimp only
      split <;> exact bounded_of_ne trivial (by simp)
  · cases hσ

theorem State.Bounded.runs {σ σ' : State} (h : σ.Bounded) (hruns : Runs p σ σ') : σ'.Bounded := by
  induction hruns with
  | refl => exact h
  | tail _ hstep ih => exact ih.step hstep

/-! ## Definitions entered -/

/-- No definition comes to wait. -/
def Narrows (w w' : Workspace) : Prop :=
  ∀ i, w'.progressAt i = .waiting → w.progressAt i = .waiting

theorem Narrows.of_eq {w w' : Workspace} (h : w'.progress = w.progress) : Narrows w w' := by
  intro i hi
  rwa [← Workspace.progressAt_of_eq h]

theorem Narrows.setProgress {w w' : Workspace} (h : Narrows w w') (i : Nat) {q : Progress}
    (hq : q ≠ .waiting) : Narrows w (w'.setProgress i q) := by
  intro j hj
  rcases Workspace.of_progressAt_setProgress hj (by simp) with ⟨-, hwaits⟩ | ⟨-, hj⟩
  · exact absurd hwaits hq
  · exact h j hj

theorem narrows_startType (w : Workspace) (k : List Frame) (s : Bindings) (n : Nat)
    (e : TypeExpr) : Narrows w (startType p w k s n e).workspace := by
  unfold startType
  split
  · split <;> exact .of_eq rfl
  · dsimp only
    unfold startName
    split <;> exact .of_eq rfl
  · split
    · exact .of_eq rfl
    · split <;> exact .of_eq rfl
  · exact .of_eq rfl

theorem narrows_start (w : Workspace) (k : List Frame) (n : Nat) (task : Task) :
    Narrows w (start p w k n task).workspace := by
  unfold start
  split
  · exact .of_eq rfl
  · exact .of_eq rfl
  · exact .of_eq rfl
  · exact narrows_startType w k _ n _
  · rename_i i
    unfold startDefinition
    split
    · exact .of_eq rfl
    · exact .of_eq rfl
    · split
      · rename_i hmeet
        exact .of_eq (progress_meetAgain hmeet).1
      · rename_i hmeet
        exact (Narrows.of_eq (progress_meetAgain hmeet).1).setProgress i (by simp)
    · exact (Narrows.of_eq rfl).setProgress i (by simp)
  · unfold startGeneric
    dsimp only
    split
    · exact .of_eq rfl
    · split
      · rename_i hmeet
        exact .of_eq (progress_meetAgain hmeet).1
      · rename_i hmeet
        exact .of_eq (progress_meetAgain hmeet).1
    · exact .of_eq rfl

theorem narrows_resume {w : Workspace} {f : Frame} {k : List Frame} {ids : List TypeId} {σ : State}
    (hσ : resume p w k f ids = some σ) : Narrows w σ.workspace := by
  unfold resume at hσ
  split at hσ
  · cases hσ
    exact .of_eq rfl
  · cases hσ
    exact .of_eq rfl
  · obtain ⟨shape, -, rfl⟩ := Option.map_eq_some_iff.mp hσ
    split <;> exact .of_eq rfl
  · cases hσ
    exact .of_eq rfl
  · split at hσ
    · split at hσ
      · rename_i hsettle
        cases hσ
        exact .of_eq (progress_settle hsettle).1
      · rename_i hsettle
        cases hσ
        exact (Narrows.of_eq (progress_settle hsettle).1).setProgress _ (by simp)
    · cases hσ
  · obtain ⟨u, -, rfl⟩ := Option.map_eq_some_iff.mp hσ
    split
    · rename_i hsettle
      exact .of_eq (progress_settle hsettle).1
    · rename_i hsettle
      exact .of_eq (progress_settle hsettle).1
  · cases hσ
    exact .of_eq rfl
  · cases hσ

theorem narrows_step {σ σ' : State} (hσ : step p σ = some σ') :
    Narrows σ.workspace σ'.workspace := by
  unfold Machine.step at hσ
  split at hσ
  · cases hσ
    exact narrows_start _ _ _ _
  · cases hσ
    unfold takeNext
    split
    · exact .of_eq rfl
    · split <;> exact .of_eq rfl
  · exact narrows_resume hσ
  · cases hσ
    unfold fail
    split <;> exact .of_eq rfl
  · cases hσ
    exact .of_eq rfl
  · cases hσ
    exact .of_eq rfl
  · cases hσ
    unfold pass
    split
    · exact .of_eq rfl
    · dsimp only
      split <;> exact .of_eq rfl
  · cases hσ

theorem narrows_runs {σ σ' : State} (h : Runs p σ σ') : Narrows σ.workspace σ'.workspace := by
  induction h with
  | refl => exact .of_eq rfl
  | tail _ hstep ih => exact fun i hi => ih i (narrows_step hstep i hi)

/-- The machine is about to enter the body of a definition. -/
def State.Enters (σ : State) (i : Nat) : Prop :=
  ∃ n, σ.control = .start (.definition i) n ∧ σ.workspace.progressAt i = .waiting

theorem progressAt_of_enters {σ σ' : State} {i : Nat} (h : σ.Enters i)
    (hσ : step p σ = some σ') : σ'.workspace.progressAt i ≠ .waiting := by
  obtain ⟨w, k, control⟩ := σ
  obtain ⟨n, rfl, hwaits⟩ := h
  have hlt := Workspace.lt_of_progressAt (show w.progressAt i ≠ .generic by rw [hwaits]; simp)
  simp only [step, start, startDefinition, hwaits, Option.some.injEq] at hσ
  subst hσ
  dsimp only
  rw [Workspace.progressAt_setProgress_self hlt]
  simp

/-- A definition that is entered does not wait any more, so it is not entered again. -/
theorem not_enters_again {σ σ' σ'' : State} {i : Nat} (h : σ.Enters i)
    (hσ : step p σ = some σ') (hruns : Runs p σ' σ'') : ¬ σ''.Enters i := by
  rintro ⟨n, -, hwaits⟩
  exact progressAt_of_enters h hσ (narrows_runs hruns i hwaits)

/-! ## Reserved places -/

/-- A pass that fills no place is the last. Each one before it leaves fewer places to fill. -/
theorem runs_fill (w : Workspace) (ids : List TypeId) :
    ∃ w', Runs p ⟨w, [], .fill ids⟩
      ⟨w', [], .halt ((fillAll w.table w.aliases).map (ids, ·))⟩ := by
  induction hlength : w.aliases.length using Nat.strongRecOn generalizing w with
  | ind length ih =>
    cases ha : w.aliases with
    | nil =>
      refine ⟨w, .single ?_⟩
      simp only [step, pass, ha]
      rw [fillAll]
      rfl
    | cons a rest =>
      rw [fillAll]
      by_cases hfull : (fillAliases w.table (a :: rest)).2.length = (a :: rest).length
      · rw [if_pos hfull]
        refine ⟨w, .single ?_⟩
        simp only [step, pass, ha]
        exact congrArg some (if_pos hfull)
      · rw [if_neg hfull]
        let filled := fillAliases w.table (a :: rest)
        have hfewer : filled.2.length < (a :: rest).length :=
          Nat.lt_of_le_of_ne (length_fillAliases_le _ _) hfull
        obtain ⟨w', hruns⟩ := ih filled.2.length (by rwa [← hlength, ha])
          { w with table := filled.1, aliases := filled.2 } rfl
        refine ⟨w', .head ?_ hruns⟩
        simp only [step, pass, ha]
        exact congrArg some (if_neg hfull)

/-! ## Definitions in order -/

/-- The definitions are taken up in order, to the first that fails. -/
theorem runs_order (positions : List Nat) {w : Workspace}
    (hin : ∀ i ∈ positions, i < p.definitions.size) (hw : w.waiting ≤ p.definitions.size) :
    Runs p ⟨w, [], .order positions⟩
      ⟨(outcome (positions.forM p.resolveNext) w).2, [],
        .give ((outcome (positions.forM p.resolveNext) w).1.map fun _ => [])⟩ := by
  induction positions generalizing w with
  | nil => exact .single rfl
  | cons i positions ih =>
    obtain ⟨hi, hin⟩ := List.forall_mem_cons.mp hin
    change Runs p _ ⟨(outcome (p.resolveNext i >>= fun _ => positions.forM p.resolveNext) w).2, [],
      .give ((outcome (p.resolveNext i >>= fun _ => positions.forM p.resolveNext) w).1.map _)⟩
    by_cases hgeneric : w.progressAt i = .generic
    · rw [outcome_bind_ok (outcome_resolveNext_generic hgeneric)]
      refine .head ?_ (ih hin hw)
      simp only [step, takeNext, hgeneric]
    · have hdef := (resolves_resolve p (.index i) [] 0 hw).of_index hi
      have hruns := computes_of_resolves hdef [.order positions] rfl
      have hstart : step p ⟨w, [], .order (i :: positions)⟩
          = some ⟨w, [.order positions], .start (.definition i) 0⟩ := by
        cases hp : w.progressAt i with
        | generic => exact absurd hp hgeneric
        | _ => simp only [step, takeNext, hp]
      rcases ho : outcome (p.resolve (.index i) [] 0) w with ⟨x | id, w'⟩
      · rw [ho] at hruns
        rw [outcome_bind_error ((outcome_resolveNext hgeneric).trans (outcome_bind_error ho _))]
        exact .head hstart (hruns.trans (.single rfl))
      · rw [ho] at hruns hdef
        rw [outcome_bind_ok ((outcome_resolveNext hgeneric).trans (outcome_bind_ok ho _))]
        exact .head hstart (hruns.trans (.head rfl (ih hin
          (Nat.le_trans hdef.continues.waiting hw))))

/-! ## Whole runs -/

/-- From a state the machine halts with an outcome. Until then never more generic bodies are in
progress than may be, and what was entered is not entered again. -/
structure Halts (p : Program) (σ : State) (r : Except ResolveError (List TypeId × Table)) :
    Prop where
  halts : ∃ w, Runs p σ ⟨w, [], .halt r⟩
  bounded : ∀ σ', Runs p σ σ' → genericBodies σ'.stack ≤ maxInstances
  once : ∀ i σ₁ σ₂ σ₃, Runs p σ σ₁ → σ₁.Enters i → step p σ₁ = some σ₂ → Runs p σ₂ σ₃ →
    ¬ σ₃.Enters i

theorem halts_of_runs {σ : State} {w : Workspace} {r : Except ResolveError (List TypeId × Table)}
    (hσ : σ.Bounded) (h : Runs p σ ⟨w, [], .halt r⟩) : Halts p σ r where
  halts := ⟨w, h⟩
  bounded _ hruns := (hσ.runs hruns).stack.genericBodies_le
  once _ _ _ _ _ henters hstep hruns := not_enters_again henters hstep hruns

/-- What the machine gives with an empty stack, before the reserved places are filled. -/
theorem halts_of_gives {σ : State} {w : Workspace} {r : Except ResolveError (List TypeId)}
    (hσ : σ.Bounded) (h : Runs p σ ⟨w, [], .give r⟩) :
    Halts p σ (r.bind fun ids => (fillAll w.table w.aliases).map (ids, ·)) := by
  cases r with
  | error x => exact halts_of_runs hσ (h.trans (.single rfl))
  | ok ids =>
    obtain ⟨w', hfill⟩ := runs_fill w ids
    exact halts_of_runs hσ (h.trans (.head rfl hfill))

theorem step_unique (p : Program) : Relator.RightUnique fun σ σ' : State => step p σ = some σ' :=
  fun _ _ _ h h' => Option.some.inj (h.symm.trans h')

theorem eq_of_halted {σ : State} {w : Workspace} {r : Except ResolveError (List TypeId × Table)}
    (h : Runs p ⟨w, [], .halt r⟩ σ) : σ = ⟨w, [], .halt r⟩ := by
  rcases Relation.ReflTransGen.cases_head h with hsame | ⟨σ', hstep, -⟩
  · exact hsame.symm
  · cases hstep

/-- The machine halts with one outcome. -/
theorem Halts.unique {σ : State} {r r' : Except ResolveError (List TypeId × Table)}
    (h : Halts p σ r) (h' : Halts p σ r') : r = r' := by
  obtain ⟨w, hruns⟩ := h.halts
  obtain ⟨w', hruns'⟩ := h'.halts
  rcases Relation.ReflTransGen.total_of_right_unique (step_unique p) hruns hruns' with hon | hon
  · cases eq_of_halted hon
    rfl
  · cases eq_of_halted hon
    rfl

/-- The state in which definitions are about to be resolved. -/
def definitionsState (known : Declared) (ds : List Definition) : State :=
  ⟨known.start ds, [], .order (List.range ds.length)⟩

/-- The state in which a type is about to be resolved in a finished table. -/
def typeState (t : Table) (e : TypeExpr) : State :=
  ⟨{ table := t }, [], .start (.type e []) 0⟩

end Machine

/-- The names of definitions are declared and the generic bodies looked over. -/
def Declared.checked (ds : List Definition) : Except ResolveError Declared := do
  let known ← Declared.all ds
  known.checkBodies ds
  return known

/-- A table that keeps the rules from a mark on. -/
def Table.checkedFrom (mark : Nat) (r : List TypeId × Table) :
    Except ResolveError (List TypeId × Table) :=
  (r.2.check mark).map fun _ => r

theorem ofDefinitions_of_checked {ds : List Definition} {known : Declared}
    (hall : Declared.all ds = .ok known) (hbodies : known.checkBodies ds = .ok ())
    {r : Except ResolveError Unit} {w : Workspace}
    (hrun : outcome (known.program ds).resolveAll (known.start ds) = (r, w)) :
    Table.ofDefinitions ds
      = ((r.bind fun _ => (fillAll w.table w.aliases).map (([] : List TypeId), ·)).bind
          (Table.checkedFrom 0)).map (·.2) := by
  unfold Table.ofDefinitions
  rw [hall]
  simp only [bind, Except.bind, hbodies]
  change (match outcome (known.program ds).resolveAll (known.start ds) with
    | (result, w) => (do
      result
      let t ← fillAll w.table w.aliases
      t.check 0
      return t : Except ResolveError Table)) = _
  rw [hrun]
  cases r with
  | error x => rfl
  | ok u =>
    simp only [bind, Except.bind]
    cases fillAll w.table w.aliases with
    | error x => rfl
    | ok t =>
      simp only [Except.map, Table.checkedFrom]
      cases t.check 0 <;> rfl

theorem extend_of_resolving {t : Table} {e : TypeExpr} {r : Except ResolveError TypeId}
    {w : Workspace} (hrun : t.resolving e = (r, w)) :
    (t.extend e).1.map ([·], (t.extend e).2)
      = ((r.map ([·])).bind fun ids => (fillAll w.table w.aliases).map (ids, ·)).bind
          (Table.checkedFrom t.size) := by
  unfold Table.extend
  rw [show (Program.resolve {} e [] 0).run.run { table := t } = (r, w) from hrun]
  cases r with
  | error x => rfl
  | ok id =>
    simp only [bind, Except.bind]
    cases fillAll w.table w.aliases with
    | error x => rfl
    | ok u =>
      simp only [Except.map, Table.checkedFrom]
      cases u.check t.size <;> rfl

namespace Table

variable {t t' : Table} {e : TypeExpr} {w : Workspace}

/-- What the rules come to is what is taken up. -/
theorem extend_of_resolves {r : Except ResolveError (List TypeId)}
    (h : Resolves {} maxInstances (.type e []) 0 { table := t } r w) :
    (t.extend e).1.map ([·], (t.extend e).2)
      = (r.bind fun ids => (fillAll w.table w.aliases).map (ids, ·)).bind (checkedFrom t.size) := by
  have hstart : (Machine.typeState t e).Bounded := ⟨trivial, fun _ _ _ h => by cases h⟩
  have hhalts := Machine.halts_of_gives hstart (Machine.computes_of_resolves h [] rfl)
  have hhalts' := Machine.halts_of_gives hstart
    (Machine.computes_of_resolves (resolves_resolving t e) [] rfl)
  have hresolving : t.resolving e = ((t.resolving e).1, (t.resolving e).2) := rfl
  rw [extend_of_resolving hresolving, hhalts'.unique hhalts]

theorem extend_ok_of_resolves {id : TypeId}
    (h : Resolves {} maxInstances (.type e []) 0 { table := t } (.ok [id]) w)
    (hfill : fillAll w.table w.aliases = .ok t') (hcheck : t'.check t.size = .ok ()) :
    t.extend e = (.ok id, t') := by
  have hsame := extend_of_resolves h
  simp only [Except.bind, hfill, Except.map, checkedFrom, hcheck] at hsame
  rcases hext : t.extend e with ⟨x | other, v⟩
  · rw [hext] at hsame
    cases hsame
  · rw [hext] at hsame
    cases hsame
    rfl

theorem extend_error_of_resolves {x : ResolveError}
    (h : Resolves {} maxInstances (.type e []) 0 { table := t } (.error x) w) :
    (t.extend e).1 = .error x := by
  have hsame := extend_of_resolves h
  rcases hext : t.extend e with ⟨y | other, v⟩
  · rw [hext] at hsame
    cases hsame
    rfl
  · rw [hext] at hsame
    cases hsame

end Table

/-- Resolution always ends. Where the names of some definitions can be declared, the machine takes
up the definitions in order and halts, and the table is what it halts with, once that keeps the
rules; and it halts with the outcome of every type that is resolved in any table later. Whatever
leads back to itself and whatever grows on the way, at most `maxInstances` generic bodies are ever
in progress at once, and the body of a definition is entered once. -/
theorem resolution_always_ends :
    (∀ ds, match Declared.checked ds with
      | .error x => Table.ofDefinitions ds = .error x
      | .ok known => ∃ r, Machine.Halts (known.program ds) (Machine.definitionsState known ds) r ∧
        Table.ofDefinitions ds = (r.bind (Table.checkedFrom 0)).map (·.2)) ∧
    ∀ t e, ∃ r, Machine.Halts {} (Machine.typeState t e) r ∧
      (t.extend e).1.map ([·], (t.extend e).2) = r.bind (Table.checkedFrom t.size) := by
  constructor
  · intro ds
    cases hall : Declared.all ds with
    | error x =>
      simp only [Declared.checked, Table.ofDefinitions, hall]
      rfl
    | ok known =>
      cases hbodies : known.checkBodies ds with
      | error x =>
        simp only [Declared.checked, Table.ofDefinitions, hall, bind, Except.bind, hbodies]
      | ok u =>
        simp only [Declared.checked, hall, bind, Except.bind, hbodies]
        rcases hrun : outcome (known.program ds).resolveAll (known.start ds) with ⟨r, w⟩
        have hruns := Machine.runs_order (p := known.program ds) (List.range ds.length)
          (fun i hi => List.mem_range.mp hi) (waiting_start (Declared.of_all hall))
        rw [show outcome ((List.range ds.length).forM (known.program ds).resolveNext)
          (known.start ds) = (r, w) from hrun] at hruns
        refine ⟨_, Machine.halts_of_gives ⟨trivial, fun _ _ _ h => by cases h⟩ hruns, ?_⟩
        rw [ofDefinitions_of_checked hall hbodies hrun]
        cases r <;> rfl
  · intro t e
    have hruns := Machine.computes_of_resolves (Table.resolves_resolving t e) [] rfl
    refine ⟨_, Machine.halts_of_gives ⟨trivial, fun _ _ _ h => by cases h⟩ hruns, ?_⟩
    exact extend_of_resolving rfl

/-- A generic type over ever larger arguments is given up. -/
example : (Table.ofDefinitions
    [⟨some "G", ["T"], .sequence (.named "G" [.sequence (.named "T" [])]), 1⟩,
      ⟨none, [], .named "G" [.named "u8" []], 2⟩]).isOk = false := by
  decide +kernel

end Typewire
