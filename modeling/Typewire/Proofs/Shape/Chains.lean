-- Chains of names. A type may lead to a definition by its name or index alone, and that to the
-- next. Such a chain ends at a type of its own, or it comes to what is still being resolved behind
-- a bracket. So when all is resolved every chain has an end.
import Typewire.Proofs.Shape.Parts

namespace Typewire

open Typewire.Language Resolving

variable {ds : List Definition} {known : Declared} {p : Program}

/-! ## Plain tasks -/

/-- The task resolves types of the definitions, under no bindings. -/
def Task.Of (ds : List Definition) : Task → Prop
  | .type e s => Occurs ds e ∧ s = []
  | .parts es s => (∀ e, .ok e ∈ es → Occurs ds e) ∧ s = []
  | .definition i => i < ds.length
  | .generic _ _ => False

namespace Task.Of

/-- The parts of a type are plain where the type is. -/
theorem parts {e : TypeExpr} {s : Bindings} (h : Task.Of ds (.type e s)) :
    Task.Of ds (.parts (Typewire.parts e) s) :=
  ⟨fun _ hinner => h.1.inside (inside_of_parts hinner), h.2⟩

theorem first {e : TypeExpr} {es : List (Except ResolveError TypeExpr)} {s : Bindings}
    (h : Task.Of ds (.parts (.ok e :: es) s)) : Task.Of ds (.type e s) :=
  ⟨h.1 e List.mem_cons_self, h.2⟩

theorem rest {e : Except ResolveError TypeExpr} {es : List (Except ResolveError TypeExpr)}
    {s : Bindings} (h : Task.Of ds (.parts (e :: es) s)) : Task.Of ds (.parts es s) :=
  ⟨fun e he => h.1 e (List.mem_cons_of_mem _ he), h.2⟩

theorem index {i : Nat} (h : i < (known.program ds).definitions.size) :
    Task.Of ds (.definition i) := by
  rwa [size_program] at h

theorem declared (hof : Declared.Of ds known) {name : String} {i : Nat}
    (h : (known.program ds).positionOf.lookup name = some i) : Task.Of ds (.definition i) := by
  obtain ⟨d, hd, -⟩ := hof.position name i h
  exact (List.getElem?_eq_some_iff.mp hd).1

theorem body {i : Nat} (h : Task.Of ds (.definition i)) :
    Task.Of ds (.type ((known.program ds).definitionAt i).body []) := by
  have hd : ds[i]? = some ds[i] := List.getElem?_eq_getElem h
  rw [definitionAt_program hd]
  exact ⟨.body (List.getElem_mem h), rfl⟩

/-- No plain task is about a generic type. -/
theorem not_applied (hplain : Plain ds) {name : String} {e : TypeExpr} {es : List TypeExpr}
    {s : Bindings} : ¬ Task.Of ds (.type (.named name (e :: es)) s) := by
  rintro ⟨h, -⟩
  cases hplain.args name _ h

end Task.Of

/-! ## Nesting -/

/-- How deep it may be where a task is resolved: parts stand behind the last bracket. -/
def Task.depth : Task → Nat → Nat
  | .parts _ _, n => n
  | _, n => n + 1

/-- What is underway was met where fewer brackets stood open. -/
def Workspace.Nested (w : Workspace) (n : Nat) : Prop :=
  ∀ i u, w.progressAt i = .underway u → u.nesting < n

/-- What is underway after a task was underway before, at the same nesting. -/
theorem Resolves.underway {room : Nat} {task : Task} {n : Nat} {w w' : Workspace}
    {ids : List TypeId} (h : Resolves p room task n w (.ok ids) w') {i : Nat} {u : Underway}
    (hu : w'.progressAt i = .underway u) :
    ∃ v, w.progressAt i = .underway v ∧ v.Continues u := by
  obtain ⟨v, hv⟩ := h.returns.definitions i u hu
  obtain ⟨u', hu', hc⟩ := h.continues.definitions i v hv
  cases hu.symm.trans hu'
  exact ⟨v, hv, hc⟩

theorem Workspace.Nested.resolves {room : Nat} {task : Task} {n m : Nat} {w w' : Workspace}
    {ids : List TypeId} (hw : w.Nested m) (h : Resolves p room task n w (.ok ids) w') :
    w'.Nested m := by
  intro i u hu
  obtain ⟨v, hv, hc⟩ := h.underway hu
  rw [hc.nesting]
  exact hw i v hv

theorem Workspace.Nested.enter {w : Workspace} {n : Nat} (hw : w.Nested (n + 1)) (i : Nat) :
    (w.setProgress i (.underway ⟨n, none⟩)).Nested (n + 1) := by
  intro j u hu
  rcases of_progressAt_setProgress hu (by simp) with ⟨-, hu⟩ | ⟨-, hu⟩
  · cases hu
    exact Nat.lt_succ_self n
  · exact hw j u hu

theorem nesting_lt_of_meetAgain {u u' : Underway} {n : Nat} {label : String}
    {reservedLabel : Option String} {w w' : Workspace} {slot : TypeId}
    (h : outcome (meetAgain u n label reservedLabel) w = (.ok (slot, u'), w')) : u.nesting < n := by
  rcases meetAgain_cases u n label reservedLabel w with ⟨-, ho⟩ | ⟨hlt, -⟩ | ⟨hlt, -⟩
  · cases ho.symm.trans h
  · exact hlt
  · exact hlt

/-! ## Chains -/

/-- The definition that a type leads to by its name or index alone. -/
def Program.target (p : Program) : TypeExpr → Option Nat
  | .index i => if i < p.definitions.size then some i else none
  | .named name [] => p.positionOf.lookup name
  | _ => none

/-- The chain of names that leads on to a definition comes to a type of its own, or to what was
met where fewer than `n` brackets stood open and is underway. -/
inductive Ends (p : Program) (w : Workspace) (n : Nat) : Option Nat → Prop where
  | here : Ends p w n none
  | underway {i u} : w.progressAt i = .underway u → u.nesting < n → Ends p w n (some i)
  | next {i} : Ends p w n (p.target (p.definitionAt i).body) → Ends p w n (some i)

/-- A chain that ends in one workspace ends in another where it can go on from all that was
underway. -/
theorem Ends.imp {w w' : Workspace} {n m : Nat} {target : Option Nat} (h : Ends p w n target)
    (hon : ∀ i u, w.progressAt i = .underway u → u.nesting < n → Ends p w' m (some i)) :
    Ends p w' m target := by
  induction h with
  | here => exact .here
  | underway hu hlt => exact hon _ _ hu hlt
  | next _ ih => exact .next ih

/-- The chains of all that is done come to an end. -/
def Workspace.Chained (p : Program) (n : Nat) (w : Workspace) : Prop :=
  ∀ i id, w.progressAt i = .done id → Ends p w n (some i)

/-- What is underway may be met again wherever more brackets stand open. -/
theorem Workspace.Chained.of_nested {w : Workspace} {n m : Nat} (h : w.Chained p n)
    (hw : w.Nested m) : w.Chained p m :=
  fun i id hi => (h i id hi).imp fun j u hu _ => .underway hu (hw j u hu)

theorem Workspace.Chained.mono {w : Workspace} {n m : Nat} (h : w.Chained p n) (hnm : n ≤ m) :
    w.Chained p m :=
  fun i id hi => (h i id hi).imp fun _ _ hu hlt => .underway hu (Nat.lt_of_lt_of_le hlt hnm)

theorem Workspace.Chained.of_eq {w w' : Workspace} {n : Nat} (h : w.Chained p n)
    (hp : w'.progress = w.progress) : w'.Chained p n := by
  intro i id hi
  rw [progressAt_of_eq hp] at hi
  exact (h i id hi).imp fun j u hu hlt => .underway ((progressAt_of_eq hp j).trans hu) hlt

/-- A definition that goes underway is on no chain yet that has come to an end elsewhere. -/
theorem Workspace.Chained.enter {w : Workspace} {n : Nat} (h : w.Chained p n) {i : Nat}
    (hi : w.progressAt i = .waiting) (u : Underway) :
    (w.setProgress i (.underway u)).Chained p n := by
  intro j id hj
  rcases of_progressAt_setProgress hj (by simp) with ⟨-, hq⟩ | ⟨-, hj⟩
  · cases hq
  refine (h j id hj).imp fun k v hv hlt => .underway ?_ hlt
  have hk : k ≠ i := by
    rintro rfl
    cases hi.symm.trans hv
  rw [progressAt_setProgress_ne hk, hv]

/-- A definition underway that was met again is where it was. -/
theorem Workspace.Chained.meet {w : Workspace} {n : Nat} (h : w.Chained p n) {i : Nat}
    {u u' : Underway} (hi : w.progressAt i = .underway u) (hnesting : u'.nesting = u.nesting) :
    (w.setProgress i (.underway u')).Chained p n := by
  have hlt := lt_of_progressAt (show w.progressAt i ≠ .generic by rw [hi]; simp)
  intro j id hj
  rcases of_progressAt_setProgress hj (by simp) with ⟨-, hq⟩ | ⟨-, hj⟩
  · cases hq
  refine (h j id hj).imp fun k v hv hlt' => ?_
  by_cases hk : k = i
  · subst hk
    cases hi.symm.trans hv
    exact .underway (progressAt_setProgress_self hlt) (hnesting ▸ hlt')
  · exact .underway ((progressAt_setProgress_ne hk).trans hv) hlt'

/-- A definition that is done goes on where its body does. -/
theorem Workspace.Chained.finish {w w' : Workspace} {n : Nat} {i : Nat} {u : Underway} {id : TypeId}
    (h : w.Chained p (n + 1)) (hu : w.progressAt i = .underway u) (hnesting : u.nesting = n)
    (hp : w'.progress = w.progress)
    (hbody : Ends p w n (p.target (p.definitionAt i).body)) (name? : Option String) :
    (w'.finishDefinition i name? id).Chained p (n + 1) ∧
      Ends p (w'.finishDefinition i name? id) n (some i) := by
  have hstill {k m : Nat} {v : Underway} (hk : k ≠ i) (hv : w.progressAt k = .underway v)
      (hlt : v.nesting < m) : Ends p (w'.finishDefinition i name? id) m (some k) := by
    refine .underway ?_ hlt
    rw [progressAt_finishDefinition_ne hk, progressAt_of_eq hp, hv]
  -- What is underway with fewer brackets around it is not the definition that is done now.
  have hself : Ends p (w'.finishDefinition i name? id) n (some i) := by
    refine .next (hbody.imp fun k v hv hlt => hstill ?_ hv hlt)
    rintro rfl
    cases hu.symm.trans hv
    exact Nat.lt_irrefl _ (hnesting ▸ hlt)
  have hlater : Ends p (w'.finishDefinition i name? id) (n + 1) (some i) :=
    hself.imp fun _ _ hv hlt => .underway hv (Nat.lt_succ_of_lt hlt)
  refine ⟨fun j other hj => ?_, hself⟩
  rcases of_progressAt_finishDefinition hj (by simp) with ⟨rfl, -⟩ | ⟨-, hj⟩
  · exact hlater
  · rw [progressAt_of_eq hp] at hj
    refine (h j other hj).imp fun k v hv hlt => ?_
    by_cases hk : k = i
    · rw [hk]
      exact hlater
    · exact hstill hk hv hlt

/-- Where a task has come to its places its chain has come to an end. -/
def Task.Ends (p : Program) (n : Nat) (w : Workspace) : Task → Prop
  | .type e _ => Typewire.Ends p w n (p.target e)
  | .definition i => Typewire.Ends p w n (some i)
  | _ => True

theorem target_of_shapeOver {e : TypeExpr} {ids : List TypeId} {shape : Shape}
    (h : shapeOver e ids = some shape) : p.target e = none := by
  cases e with
  | index | named => cases h
  | _ => rfl

/-- When a type has come to its place every chain has come to an end. A chain that came back to
where it started would meet there what is underway with no bracket in between. -/
theorem Resolves.ends (hof : Declared.Of ds known) (hplain : Plain ds) {room : Nat} {task : Task}
    {n : Nat} {w w' : Workspace} {ids : List TypeId}
    (h : Resolves (known.program ds) room task n w (.ok ids) w') (htask : task.Of ds)
    (hw : w.Chained (known.program ds) n) (hnested : w.Nested (task.depth n)) :
    w'.Chained (known.program ds) (task.depth n) ∧ task.Ends (known.program ds) n w' := by
  induction h using Resolves.ok_induction with
  | cached | againInstance | instantiated => exact htask.elim
  | applied => exact absurd htask (Task.Of.not_applied hplain)
  | nil => exact ⟨hw, trivial⟩
  | next hfirst _ ih ih' =>
    obtain ⟨hchained, -⟩ := ih htask.first hw fun i u hu => Nat.lt_succ_of_lt (hnested i u hu)
    have hnested' := hnested.resolves hfirst
    exact ih' htask.rest (hchained.of_nested hnested') hnested'
  | built _ hover _ ih =>
    obtain ⟨hchained, -⟩ := ih htask.parts (hw.mono (Nat.le_succ _)) hnested
    refine ⟨hchained.of_eq rfl, ?_⟩
    rw [Task.Ends, target_of_shapeOver hover]
    exact .here
  | index hlt _ ih =>
    obtain ⟨hchained, hends⟩ := ih (.index hlt) hw hnested
    refine ⟨hchained, ?_⟩
    rw [Task.Ends, Program.target, if_pos hlt]
    exact hends
  | placed hge =>
    refine ⟨hw.mono (Nat.le_succ _), ?_⟩
    rw [Task.Ends, Program.target, if_neg (Nat.not_lt_of_le hge)]
    exact .here
  | bound hs =>
    rw [htask.2] at hs
    cases hs
  | declared _ hname _ ih =>
    obtain ⟨hchained, hends⟩ := ih (.declared hof hname) hw hnested
    refine ⟨hchained, ?_⟩
    rw [Task.Ends, Program.target, hname]
    exact hends
  | known _ hname | primitive _ hname =>
    refine ⟨(hw.mono (Nat.le_succ _)).of_eq rfl, ?_⟩
    rw [Task.Ends, Program.target, hname]
    exact .here
  | done hi => exact ⟨hw.mono (Nat.le_succ _), hw _ _ hi⟩
  | again hi hmeet =>
    obtain ⟨hp, -⟩ := progress_meetAgain hmeet
    obtain ⟨hc, -⟩ := underway_meetAgain hmeet
    have hi' := (Workspace.progressAt_of_eq hp _).trans hi
    have hlt := nesting_lt_of_meetAgain hmeet
    rw [← hc.nesting] at hlt
    refine ⟨((hw.mono (Nat.le_succ _)).of_eq hp).meet hi' hc.nesting, .underway ?_ hlt⟩
    exact Workspace.progressAt_setProgress_self (Workspace.lt_of_progressAt (by rw [hi']; simp))
  | defined hi hbody hu hsettle ih =>
    obtain ⟨hp, -⟩ := progress_settle hsettle
    obtain ⟨hchained, hends⟩ := ih htask.body (hw.enter hi _) (hnested.enter _)
    obtain ⟨v, hv, hc⟩ := hbody.underway hu
    rw [Workspace.progressAt_setProgress_self (Workspace.lt_of_progressAt (by rw [hi]; simp))] at hv
    cases hv
    exact hchained.finish hu hc.nesting hp hends _

/-- When nothing is underway a chain ends at a type of its own. -/
theorem Ends.leadsTo (hof : Declared.Of ds known) {w : Workspace} (hidle : w.Idle) {n : Nat}
    {e : TypeExpr} (h : Ends (known.program ds) w n ((known.program ds).target e)) :
    ∃ inner, LeadsTo ds e inner ∧ (known.program ds).target inner = none := by
  generalize htarget : (known.program ds).target e = target at h
  induction h generalizing e with
  | here => exact ⟨e, .refl, htarget⟩
  | underway hu => exact (hidle.definitions _ _ hu).elim
  | @next i _ ih =>
    obtain ⟨inner, hleads, hinner⟩ := ih rfl
    refine ⟨inner, ?_, hinner⟩
    cases e with
    | index j =>
      simp only [Program.target] at htarget
      split at htarget
      · rename_i hlt
        cases htarget
        have hd : ds[i]? = some ds[i] := List.getElem?_eq_getElem (Task.Of.index hlt)
        rw [definitionAt_program hd] at hleads
        exact .index hd hleads
      · cases htarget
    | named name args =>
      cases args with
      | nil =>
        obtain ⟨d, hd, hname, -⟩ := hof.position name _ htarget
        rw [definitionAt_program hd] at hleads
        exact .named ⟨hd, hname⟩ hleads
      | cons e es => cases htarget
    | _ => cases htarget

end Typewire
