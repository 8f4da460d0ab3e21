-- What resolves a type keeps to the rules of resolution. It is cut off at a number of
-- definitions entered; the cut is never reached, as no definition is entered twice.
import Typewire.Proofs.Entries
import Typewire.Proofs.Shape.Rules

namespace Typewire

open Typewire.Language Resolving

/-! ## Workspaces -/

namespace Workspace

theorem progressAt_setProgress_ne {w : Workspace} {i j : Nat} {p : Progress} (h : i ≠ j) :
    (w.setProgress j p).progressAt i = w.progressAt i := by
  unfold progressAt setProgress
  simp [Array.getElem?_setIfInBounds_ne (Ne.symm h)]

theorem progressAt_setProgress_self {w : Workspace} {i : Nat} {p : Progress}
    (h : i < w.progress.size) : (w.setProgress i p).progressAt i = p := by
  unfold progressAt setProgress
  simp [Array.getElem?_setIfInBounds_self_of_lt h]

theorem progressAt_of_eq {w w' : Workspace} (h : w'.progress = w.progress) (i : Nat) :
    w'.progressAt i = w.progressAt i := by
  unfold progressAt
  rw [h]

/-- Only a definition of the program has a progress of its own. -/
theorem lt_of_progressAt {w : Workspace} {i : Nat} (h : w.progressAt i ≠ .generic) :
    i < w.progress.size := by
  rcases Nat.lt_or_ge i w.progress.size with hlt | hge
  · exact hlt
  · exact absurd (by simp [progressAt, Array.getElem?_eq_none hge]) h

/-- The progress of a definition is what was set for it, else what it was before. -/
theorem of_progressAt_setProgress {w : Workspace} {i j : Nat} {p r : Progress}
    (h : (w.setProgress i p).progressAt j = r) (hr : r ≠ .generic) :
    (j = i ∧ p = r) ∨ (j ≠ i ∧ w.progressAt j = r) := by
  by_cases hij : j = i
  · subst hij
    have hlt := lt_of_progressAt (w := w.setProgress j p) (by rwa [h])
    rw [progressAt_setProgress_self (by simpa [setProgress] using hlt)] at h
    exact Or.inl ⟨rfl, h⟩
  · exact Or.inr ⟨hij, (progressAt_setProgress_ne hij).symm.trans h⟩

theorem progressAt_setProgress_ne_generic {w : Workspace} {i j : Nat} {p : Progress}
    (hp : p ≠ .generic) (h : w.progressAt i ≠ .generic) :
    (w.setProgress j p).progressAt i ≠ .generic := by
  by_cases hij : i = j
  · subst hij
    rwa [progressAt_setProgress_self (lt_of_progressAt h)]
  · rwa [progressAt_setProgress_ne hij]

theorem waiting_setProgress {w : Workspace} {i : Nat} {p : Progress} (h : p ≠ .waiting) :
    (w.setProgress i p).waiting ≤ w.waiting := by
  unfold waiting setProgress
  by_cases hi : i < w.progress.size
  · rw [Array.setIfInBounds_def, dif_pos hi, Array.count_set hi, beq_false_of_ne h]
    simp
  · simp only [Array.setIfInBounds_eq_of_size_le (Nat.le_of_not_lt hi), Nat.le_refl]

/-- A definition that is entered waits no longer. -/
theorem waiting_setProgress_lt {w : Workspace} {i : Nat} {p : Progress} (h : p ≠ .waiting)
    (hi : w.progressAt i = .waiting) : (w.setProgress i p).waiting < w.waiting := by
  have hlt : i < w.progress.size := lt_of_progressAt (by rw [hi]; simp)
  have hget : w.progress[i] = .waiting := by
    rw [progressAt, Array.getD_eq_getD_getElem?, Array.getElem?_eq_getElem hlt] at hi
    exact hi
  have hpos : 0 < w.progress.count .waiting :=
    Array.count_pos_iff.mpr (hget ▸ Array.getElem_mem hlt)
  unfold waiting setProgress
  rw [Array.setIfInBounds_def, dif_pos hlt, Array.count_set hlt, beq_false_of_ne h, hget]
  simp only [beq_self_eq_true, if_true, Bool.false_eq_true, if_false]
  omega

/-- Every definition and every generic instance underway has a property. -/
structure AllUnderway (P : Underway → Prop) (w : Workspace) : Prop where
  definitions : ∀ i u, w.progressAt i = .underway u → P u
  instances : ∀ key u, w.instances.lookup key = some u → P u

namespace AllUnderway

variable {P : Underway → Prop} {w w' : Workspace}

theorem imp {Q : Underway → Prop} (h : w.AllUnderway P) (hPQ : ∀ u, P u → Q u) :
    w.AllUnderway Q :=
  ⟨fun i u hi => hPQ u (h.definitions i u hi), fun key u hu => hPQ u (h.instances key u hu)⟩

theorem of_eq (h : w.AllUnderway P) (hp : w'.progress = w.progress)
    (hi : w'.instances = w.instances) : w'.AllUnderway P where
  definitions i u hu := h.definitions i u ((progressAt_of_eq hp i).symm.trans hu)
  instances key u hu := h.instances key u (hi ▸ hu)

theorem setProgress (h : w.AllUnderway P) (i : Nat) {p : Progress}
    (hp : ∀ u, p = .underway u → P u) : (w.setProgress i p).AllUnderway P where
  definitions j u hj := by
    rcases of_progressAt_setProgress hj (by simp) with ⟨-, hpu⟩ | ⟨-, hj⟩
    · exact hp u hpu
    · exact h.definitions j u hj
  instances := h.instances

theorem setInstance (h : w.AllUnderway P) (key : InstanceKey) {u : Underway} (hu : P u) :
    (w.setInstance key u).AllUnderway P where
  definitions := h.definitions
  instances other v hv := by
    by_cases hkey : other = key
    · subst hkey
      simp only [Workspace.setInstance, List.lookup_cons, beq_self_eq_true,
        Option.some.injEq] at hv
      exact hv ▸ hu
    · simp only [Workspace.setInstance, List.lookup_cons, beq_false_of_ne hkey] at hv
      exact h.instances other v ((lookup_filter_ne hkey).symm.trans hv)

theorem enterInstance (h : w.AllUnderway P) (key : InstanceKey) {n : Nat} (hn : P ⟨n, none⟩) :
    (w.enterInstance key n).AllUnderway P where
  definitions := h.definitions
  instances other v hv := by
    by_cases hkey : other = key
    · subst hkey
      simp only [Workspace.enterInstance, List.lookup_cons, beq_self_eq_true,
        Option.some.injEq] at hv
      exact hv ▸ hn
    · simp only [Workspace.enterInstance, List.lookup_cons, beq_false_of_ne hkey] at hv
      exact h.instances other v hv

theorem leaveInstance (h : w.AllUnderway P) (key : InstanceKey) :
    (w.leaveInstance key).AllUnderway P where
  definitions := h.definitions
  instances other v hv := by
    by_cases hkey : other = key
    · subst hkey
      cases (lookup_filter_self other w.instances).symm.trans hv
    · exact h.instances other v ((lookup_filter_ne hkey).symm.trans hv)

end AllUnderway

end Workspace

/-! ## What goes on -/

/-- One is underway where the other was, and has kept its reserved place. -/
structure Underway.Continues (u u' : Underway) : Prop where
  nesting : u'.nesting = u.nesting
  reserved : ∀ slot, u.reserved = some slot → u'.reserved = some slot

theorem Underway.Continues.refl (u : Underway) : u.Continues u := ⟨rfl, fun _ h => h⟩

theorem Underway.Continues.trans {a b c : Underway} (hab : a.Continues b) (hbc : b.Continues c) :
    a.Continues c :=
  ⟨hbc.nesting.trans hab.nesting, fun slot h => hbc.reserved slot (hab.reserved slot h)⟩

/-- What is underway in one workspace is underway in the other, what is done there is done
here, and no more definitions wait. -/
structure Workspace.Continues (w w' : Workspace) : Prop where
  waiting : w'.waiting ≤ w.waiting
  size : w'.progress.size = w.progress.size
  own : ∀ i, w.progressAt i ≠ .generic → w'.progressAt i ≠ .generic
  done : ∀ i id, w.progressAt i = .done id → w'.progressAt i = .done id
  definitions : ∀ i u, w.progressAt i = .underway u →
    ∃ u', w'.progressAt i = .underway u' ∧ u.Continues u'
  instances : ∀ key u, w.instances.lookup key = some u →
    ∃ u', w'.instances.lookup key = some u' ∧ u.Continues u'

namespace Workspace.Continues

variable {w w' w'' : Workspace}

theorem refl (w : Workspace) : w.Continues w :=
  ⟨Nat.le_refl _, rfl, fun _ h => h, fun _ _ h => h, fun _ u h => ⟨u, h, .refl u⟩,
    fun _ u h => ⟨u, h, .refl u⟩⟩

theorem trans (h : w.Continues w') (h' : w'.Continues w'') : w.Continues w'' where
  waiting := Nat.le_trans h'.waiting h.waiting
  size := h'.size.trans h.size
  own i hi := h'.own i (h.own i hi)
  done i id hi := h'.done i id (h.done i id hi)
  definitions i u hi := by
    obtain ⟨u', hu', hc⟩ := h.definitions i u hi
    obtain ⟨u'', hu'', hc'⟩ := h'.definitions i u' hu'
    exact ⟨u'', hu'', hc.trans hc'⟩
  instances key u hkey := by
    obtain ⟨u', hu', hc⟩ := h.instances key u hkey
    obtain ⟨u'', hu'', hc'⟩ := h'.instances key u' hu'
    exact ⟨u'', hu'', hc.trans hc'⟩

/-- The table and the aliases are free to change. -/
theorem of_eq (hp : w'.progress = w.progress) (hi : w'.instances = w.instances) :
    w.Continues w' := by
  obtain ⟨t, progress, instances, aliases⟩ := w
  obtain ⟨t', progress', instances', aliases'⟩ := w'
  cases hp
  cases hi
  exact ⟨Nat.le_refl _, rfl, fun _ h => h, fun _ _ h => h, fun _ u h => ⟨u, h, .refl u⟩,
    fun _ u h => ⟨u, h, .refl u⟩⟩

theorem setProgress {i : Nat} {p : Progress} (hp : p ≠ .waiting) (hown : p ≠ .generic)
    (hdone : ∀ id, w.progressAt i = .done id → p = .done id)
    (hunderway : ∀ u, w.progressAt i = .underway u → ∃ u', p = .underway u' ∧ u.Continues u') :
    w.Continues (w.setProgress i p) where
  waiting := waiting_setProgress hp
  size := by simp [Workspace.setProgress]
  own j hj := progressAt_setProgress_ne_generic hown hj
  done j id hj := by
    by_cases hij : j = i
    · subst hij
      rw [progressAt_setProgress_self (lt_of_progressAt (by rw [hj]; simp))]
      exact hdone id hj
    · rw [progressAt_setProgress_ne hij, hj]
  definitions j u hj := by
    by_cases hij : j = i
    · subst hij
      rw [progressAt_setProgress_self (lt_of_progressAt (by rw [hj]; simp))]
      exact hunderway u hj
    · rw [progressAt_setProgress_ne hij]
      exact ⟨u, hj, .refl u⟩
  instances _ u h := ⟨u, h, .refl u⟩

/-- What went on while a definition was resolved goes on when it is done. -/
theorem of_waiting {i : Nat} {p q : Progress} (hi : w.progressAt i = .waiting)
    (hp : p ≠ .waiting) (hq : q ≠ .waiting) (hown : p ≠ .generic) (hown' : q ≠ .generic)
    (h : (w.setProgress i p).Continues w') :
    w.Continues (w'.setProgress i q) where
  waiting := Nat.le_trans (waiting_setProgress hq)
    (Nat.le_trans h.waiting (waiting_setProgress hp))
  size := by simpa [Workspace.setProgress] using h.size
  own j hj := progressAt_setProgress_ne_generic hown'
    (h.own j (progressAt_setProgress_ne_generic hown hj))
  done j id hj := by
    have hij : j ≠ i := by
      rintro rfl
      rw [hi] at hj
      cases hj
    rw [progressAt_setProgress_ne hij]
    exact h.done j id (by rw [progressAt_setProgress_ne hij, hj])
  definitions j u hj := by
    have hij : j ≠ i := by
      rintro rfl
      rw [hi] at hj
      cases hj
    rw [progressAt_setProgress_ne hij]
    exact h.definitions j u (by rw [progressAt_setProgress_ne hij, hj])
  instances key u hkey := h.instances key u hkey

theorem setInstance {key : InstanceKey} {u : Underway}
    (hu : ∀ v, w.instances.lookup key = some v → v.Continues u) :
    w.Continues (w.setInstance key u) where
  waiting := Nat.le_refl _
  size := rfl
  own _ h := h
  done _ _ h := h
  definitions _ u h := ⟨u, h, .refl u⟩
  instances other v h := by
    by_cases hkey : other = key
    · subst hkey
      exact ⟨u, by simp [Workspace.setInstance], hu v h⟩
    · refine ⟨v, ?_, .refl v⟩
      rw [← h]
      simp only [Workspace.setInstance, List.lookup_cons, beq_false_of_ne hkey]
      exact lookup_filter_ne hkey

/-- What went on while an instance was resolved goes on when it is left. -/
theorem of_new_instance {key : InstanceKey} {n : Nat} (hkey : w.instances.lookup key = none)
    (h : (w.enterInstance key n).Continues w') : w.Continues (w'.leaveInstance key) where
  waiting := h.waiting
  size := h.size
  own := h.own
  done := h.done
  definitions := h.definitions
  instances other u hu := by
    have hne : other ≠ key := by
      rintro rfl
      rw [hkey] at hu
      cases hu
    obtain ⟨u', hu', hc⟩ := h.instances other u
      (by simpa [enterInstance, List.lookup_cons, beq_false_of_ne hne] using hu)
    exact ⟨u', (lookup_filter_ne hne).trans hu', hc⟩

end Workspace.Continues

/-! ## Steps that go on -/

theorem progress_meetAgain {u : Underway} {n : Nat} {label : String}
    {reservedLabel : Option String} {w w' : Workspace} {r}
    (h : outcome (meetAgain u n label reservedLabel) w = (r, w')) :
    w'.progress = w.progress ∧ w'.instances = w.instances := by
  rcases meetAgain_cases u n label reservedLabel w with ⟨-, ho⟩ | ⟨-, slot, -, ho⟩ | ⟨-, -, ho⟩
  all_goals
    rw [ho] at h
    cases h
    exact ⟨rfl, rfl⟩

/-- A type that is met again goes on with the place that it has then. -/
theorem underway_meetAgain {u u' : Underway} {n : Nat} {label : String}
    {reservedLabel : Option String} {w w' : Workspace} {slot : TypeId}
    (h : outcome (meetAgain u n label reservedLabel) w = (.ok (slot, u'), w')) :
    u.Continues u' ∧ u'.reserved = some slot := by
  rcases meetAgain_cases u n label reservedLabel w with
    ⟨-, ho⟩ | ⟨-, slot', hslot, ho⟩ | ⟨-, hnone, ho⟩
  · rw [ho] at h
    cases h
  · rw [ho] at h
    cases h
    exact ⟨.refl u, hslot⟩
  · rw [ho] at h
    cases h
    refine ⟨⟨rfl, fun slot hslot => ?_⟩, rfl⟩
    rw [hnone] at hslot
    cases hslot

theorem progress_settle {u : Underway} {id : TypeId} {label : String} {w w' : Workspace} {r}
    (h : outcome (settle u id label) w = (r, w')) :
    w'.progress = w.progress ∧ w'.instances = w.instances := by
  rcases settle_cases u id label w with
    ⟨-, ho⟩ | ⟨slot, -, ⟨-, ho⟩ | ⟨s, -, -, ho⟩ | ⟨-, -, ho⟩⟩
  all_goals
    rw [ho] at h
    cases h
    exact ⟨rfl, rfl⟩

/-- Whatever is resolved, what is underway around it stays underway. -/
theorem Resolves.continues {p : Program} {room : Nat} {task : Task} {n : Nat} {w w' : Workspace}
    {r : Except ResolveError (List TypeId)} (h : Resolves p room task n w r w') :
    w.Continues w' := by
  induction h with
  | nil | fault | placed | bound | known | unknown | refused | tooDeep | done | bare | cached =>
    exact .refl _
  | stop _ ih | unbuilt _ ih | unsound _ _ _ ih | index _ _ ih | declared _ _ _ ih
  | unapplied _ _ ih => exact ih
  | next _ _ ih ih' | applied _ _ _ ih ih' => exact ih.trans ih'
  | built _ _ _ ih => exact ih.trans (.of_eq rfl rfl)
  | primitive => exact .of_eq rfl rfl
  | flat _ hmeet | flatInstance _ _ hmeet =>
    obtain ⟨hp, hi⟩ := progress_meetAgain hmeet
    exact .of_eq hp hi
  | again hu hmeet =>
    obtain ⟨hp, hi⟩ := progress_meetAgain hmeet
    have hat := (Workspace.progressAt_of_eq hp _).trans hu
    refine (Workspace.Continues.of_eq hp hi).trans (.setProgress (by simp) (by simp) ?_ ?_)
    · intro id hid
      cases hid.symm.trans hat
    · intro v hv
      cases hv.symm.trans hat
      exact ⟨_, rfl, (underway_meetAgain hmeet).1⟩
  | againInstance _ hu hmeet =>
    obtain ⟨hp, hi⟩ := progress_meetAgain hmeet
    refine (Workspace.Continues.of_eq hp hi).trans (.setInstance fun v hv => ?_)
    rw [hi, hu] at hv
    cases hv
    exact (underway_meetAgain hmeet).1
  | failed hi _ ih =>
    refine .trans (.setProgress (by simp) (by simp) ?_ ?_) ih
    · intro id hid
      cases hid.symm.trans hi
    · intro v hv
      cases hv.symm.trans hi
  | endless hi _ _ hsettle ih =>
    obtain ⟨hp, hinst⟩ := progress_settle hsettle
    refine .trans (.trans (.setProgress (by simp) (by simp) ?_ ?_) ih) (.of_eq hp hinst)
    · intro id hid
      cases hid.symm.trans hi
    · intro v hv
      cases hv.symm.trans hi
  | defined hi _ _ hsettle ih =>
    obtain ⟨hp, hinst⟩ := progress_settle hsettle
    refine .trans (.of_waiting hi ?_ ?_ ?_ ?_ (ih.trans (.of_eq hp hinst))) (.of_eq rfl rfl)
    all_goals simp
  | failedInstance _ hnone _ ih => exact .of_new_instance hnone ih
  | endlessInstance _ hnone _ _ hsettle ih | instantiated _ hnone _ _ hsettle ih =>
    obtain ⟨hp, hinst⟩ := progress_settle hsettle
    refine .trans (.of_new_instance hnone ih) (.of_eq ?_ ?_)
    · exact hp
    · exact hinst

/-! ## Keeping to the rules -/

/-- From a workspace where fewer definitions wait than `bound`, the resolver keeps to the
rules. -/
def Follows (p : Program) (room bound : Nat) (resolver : Resolver) : Prop :=
  ∀ e s n w, w.waiting < bound →
    Resolves p room (.type e s) n w ((outcome (resolver e s n) w).1.map ([·]))
      (outcome (resolver e s n) w).2

/-- The bodies of generic instances are resolved by the rules where one more may be underway,
and not at all where none may. -/
def FollowsInside (p : Program) (room bound : Nat) : Option Resolver → Prop
  | none => room = 0
  | some resolver => ∃ less, room = less + 1 ∧ Follows p less bound resolver

section

variable {p : Program} {room entries : Nat} {enter : Resolver}

/-- The body of a definition, up to where it settles. -/
def Program.enterDefinition (p : Program) (enter : Resolver) (i n : Nat) : Resolving TypeId := do
  let id ← enter (p.definitionAt i).body [] n
  match (← get).progress.getD i .generic with
  | .underway u => settle u id (p.label i)
  | _ => return id

theorem outcome_definition_waiting {i n : Nat} {w : Workspace} (hi : w.progressAt i = .waiting) :
    outcome (p.resolveDefinition enter i n) w
      = match outcome (p.enterDefinition enter i n) (w.setProgress i (.underway ⟨n, none⟩)) with
        | (.error x, w') => (.error (x.within (p.definitionAt i).line (p.label i)), w')
        | (.ok id, w') => (.ok id, w'.finishDefinition i (p.definitionAt i).name id) := by
  unfold Program.resolveDefinition
  rw [outcome_get, show p.definitions.getD i default = p.definitionAt i from rfl]
  simp only [show w.progress.getD i .generic = .waiting from hi]
  rw [outcome_setProgress]
  have hwithin := outcome_within (p.definitionAt i).line (p.label i)
    (p.enterDefinition enter i n) (w.setProgress i (.underway ⟨n, none⟩))
  rcases hrun : outcome (p.enterDefinition enter i n) (w.setProgress i (.underway ⟨n, none⟩))
    with ⟨x | id, w'⟩
  · rw [hrun] at hwithin
    exact outcome_bind_error hwithin _
  · rw [hrun] at hwithin
    refine (outcome_bind_ok hwithin _).trans ?_
    cases (p.definitionAt i).name <;> rfl

theorem follows_definition (henter : Follows p room entries enter) (i n : Nat) {w : Workspace}
    (hw : w.waiting ≤ entries) :
    Resolves p room (.definition i) n w
      ((outcome (p.resolveDefinition enter i n) w).1.map ([·]))
      (outcome (p.resolveDefinition enter i n) w).2 := by
  cases hi : w.progressAt i with
  | done id =>
    have hrun : outcome (p.resolveDefinition enter i n) w = (.ok id, w) := by
      unfold Program.resolveDefinition
      rw [outcome_get]
      simp only [show w.progress.getD i .generic = .done id from hi]
      rfl
    rw [hrun]
    exact .done hi
  | generic =>
    have hrun : outcome (p.resolveDefinition enter i n) w
        = (.error (.missingArguments (p.label i)), w) := by
      unfold Program.resolveDefinition
      rw [outcome_get]
      simp only [show w.progress.getD i .generic = .generic from hi]
      rfl
    rw [hrun]
    exact .bare hi
  | underway u =>
    unfold Program.resolveDefinition
    rw [outcome_get, show p.definitions.getD i default = p.definitionAt i from rfl]
    simp only [show w.progress.getD i .generic = .underway u from hi]
    rcases hmeet : outcome (meetAgain u n (p.label i) (p.definitionAt i).name) w with
      ⟨x | ⟨slot, u'⟩, w'⟩
    · rw [outcome_bind_error hmeet]
      exact .flat hi hmeet
    · rw [outcome_bind_ok hmeet]
      exact .again hi hmeet
  | waiting =>
    have hlt := Nat.lt_of_lt_of_le
      (Workspace.waiting_setProgress_lt (p := .underway ⟨n, none⟩) (by simp) hi) hw
    have hbody := henter (p.definitionAt i).body [] n _ hlt
    have hself := Workspace.progressAt_setProgress_self (p := .underway ⟨n, none⟩)
      (Workspace.lt_of_progressAt (by rw [hi]; simp))
    rw [outcome_definition_waiting hi]
    unfold Program.enterDefinition
    rcases hrun : outcome (enter (p.definitionAt i).body [] n)
      (w.setProgress i (.underway ⟨n, none⟩)) with ⟨x | id, w'⟩
    · rw [hrun] at hbody
      rw [outcome_bind_error hrun]
      exact .failed hi hbody
    · rw [hrun] at hbody
      obtain ⟨u, hu, -⟩ := hbody.continues.definitions i _ hself
      rw [outcome_bind_ok hrun, outcome_get]
      simp only [show w'.progress.getD i .generic = .underway u from hu]
      rcases hsettle : outcome (settle u id (p.label i)) w' with ⟨x | id', w''⟩
      · exact .endless hi hbody hu hsettle
      · exact .defined hi hbody hu hsettle

/-- The body of a generic instance, up to where it settles. -/
def Program.enterInstance (enter : Resolver) (g : Generic) (key : InstanceKey) (n : Nat)
    (label : String) : Resolving TypeId := do
  let body ← Program.instantiate.observing (enter g.body (Program.bind g.params key.args) n)
  let u := ((← get).instances.lookup key).getD ⟨n, none⟩
  modify (·.leaveInstance key)
  match body with
  | .ok id => settle u id label
  | .error e => throw e

theorem outcome_observing (step : Resolving TypeId) (w : Workspace) :
    outcome (Program.instantiate.observing step) w
      = (.ok (outcome step w).1, (outcome step w).2) := by
  rw [Program.instantiate.observing, outcome_tryCatch, outcome_map]
  rcases outcome step w with ⟨x | id, w'⟩ <;> rfl

theorem outcome_instance_new {g : Generic} {key : InstanceKey} {n : Nat} {w : Workspace}
    (hcached : w.table.instances.lookup key = none) (hkey : w.instances.lookup key = none) :
    outcome (Program.instantiate enter g key n) w
      = match outcome (Program.enterInstance enter g key n (Program.instanceLabel w.table key))
          (w.enterInstance key n) with
        | (.error x, w') => (.error (x.within g.line (Program.instanceLabel w.table key)), w')
        | (.ok id, w') =>
          (.ok id, w'.finishInstance key (Program.instanceLabel w.table key) id) := by
  unfold Program.instantiate
  rw [outcome_get]
  simp only [hcached, hkey]
  rw [outcome_modify]
  have hwithin := outcome_within g.line (Program.instanceLabel w.table key)
    (Program.enterInstance enter g key n (Program.instanceLabel w.table key))
    (w.enterInstance key n)
  rcases hrun : outcome (Program.enterInstance enter g key n (Program.instanceLabel w.table key))
    (w.enterInstance key n) with ⟨x | id, w'⟩
  · rw [hrun] at hwithin
    exact outcome_bind_error hwithin _
  · rw [hrun] at hwithin
    exact (outcome_bind_ok hwithin _).trans rfl

theorem follows_instance (henter : Follows p room (entries + 1) enter) (g : Generic)
    (key : InstanceKey) (n : Nat) {w : Workspace} (hw : w.waiting ≤ entries) :
    Resolves p (room + 1) (.generic g key) n w
      ((outcome (Program.instantiate enter g key n) w).1.map ([·]))
      (outcome (Program.instantiate enter g key n) w).2 := by
  cases hcached : w.table.instances.lookup key with
  | some id =>
    have hrun : outcome (Program.instantiate enter g key n) w = (.ok id, w) := by
      unfold Program.instantiate
      rw [outcome_get]
      simp only [hcached]
      rfl
    rw [hrun]
    exact .cached hcached
  | none =>
    cases hkey : w.instances.lookup key with
    | some u =>
      unfold Program.instantiate
      rw [outcome_get]
      simp only [hcached, hkey]
      rcases hmeet : outcome (meetAgain u n (Program.instanceLabel w.table key)
        (some (Program.instanceLabel w.table key))) w with ⟨x | ⟨slot, u'⟩, w'⟩
      · rw [outcome_bind_error hmeet]
        exact .flatInstance hcached hkey hmeet
      · rw [outcome_bind_ok hmeet]
        exact .againInstance hcached hkey hmeet
    | none =>
      have hbody := henter g.body (Program.bind g.params key.args) n (w.enterInstance key n)
        (Nat.lt_succ_of_le hw)
      have hself : (w.enterInstance key n).instances.lookup key = some ⟨n, none⟩ := by
        simp [Workspace.enterInstance]
      rw [outcome_instance_new hcached hkey]
      unfold Program.enterInstance
      rw [outcome_bind_ok (outcome_observing _ _), outcome_get, outcome_modify]
      rcases hrun : outcome (enter g.body (Program.bind g.params key.args) n)
        (w.enterInstance key n) with ⟨x | id, w'⟩
      · rw [hrun] at hbody
        exact .failedInstance hcached hkey hbody
      · rw [hrun] at hbody
        obtain ⟨u, hu, -⟩ := hbody.continues.instances key _ hself
        simp only [hu, Option.getD_some]
        rcases hsettle : outcome (settle u id (Program.instanceLabel w.table key))
          (w'.leaveInstance key) with ⟨x | id', w''⟩
        · exact .endlessInstance hcached hkey hbody hu hsettle
        · exact .instantiated hcached hkey hbody hu hsettle

/-- A position past the definitions is looked up in the table. -/
theorem outcome_resolveIndex_of_le {i n : Nat} (hi : p.definitions.size ≤ i) (w : Workspace) :
    outcome (p.resolveIndex enter i n) w = (w.table.typeAt i, w) := by
  unfold Program.resolveIndex
  rw [if_neg (Nat.not_lt_of_le hi), outcome_table]
  cases w.table.typeAt i <;> rfl

theorem follows_index (henter : Follows p room entries enter) (i : Nat) (s : Bindings) (n : Nat)
    {w : Workspace} (hw : w.waiting ≤ entries) :
    Resolves p room (.type (.index i) s) n w
      ((outcome (p.resolveIndex enter i n) w).1.map ([·]))
      (outcome (p.resolveIndex enter i n) w).2 := by
  rcases Nat.lt_or_ge i p.definitions.size with hi | hi
  · unfold Program.resolveIndex
    rw [if_pos hi]
    exact .index hi (follows_definition henter i n hw)
  · rw [outcome_resolveIndex_of_le hi]
    exact .placed hi

theorem follows_name (henter : Follows p room entries enter) (name : String) (s : Bindings)
    (n : Nat) {w : Workspace} (hw : w.waiting ≤ entries) :
    Resolves p room (.type (.named name []) s) n w
      ((outcome (p.resolveName enter name s n) w).1.map ([·]))
      (outcome (p.resolveName enter name s n) w).2 := by
  unfold Program.resolveName
  cases hs : s.lookup name with
  | some id => exact .bound hs
  | none =>
    cases hp : p.positionOf.lookup name with
    | some i => exact .declared hs hp (follows_definition henter i n hw)
    | none =>
      simp only [outcome_table]
      cases ht : w.table.names.lookup name with
      | some id => exact .known hs hp ht
      | none =>
        cases hprim : Primitive.ofName? name with
        | some prim => exact .primitive hs hp ht hprim
        | none =>
          by_cases hg : (w.table.generics.lookup name).isSome = true
          · simp only [if_pos hg]
            have hunknown : Resolves p room _ n _ _ _ := .unknown hs hp ht hprim
            rwa [if_pos hg] at hunknown
          · simp only [if_neg hg]
            have hunknown : Resolves p room _ n _ _ _ := .unknown hs hp ht hprim
            rwa [if_neg hg] at hunknown

/-- A shape that is checked is built by the rules. -/
theorem follows_checked {e : TypeExpr} {s : Bindings} {n : Nat} {w w' : Workspace}
    {ids : List TypeId} {shape : Shape}
    (hparts : Resolves p room (.parts (parts e) s) (n + 1) w (.ok ids) w')
    (hshape : shapeOver e ids = some shape) :
    Resolves p room (.type e s) n w ((outcome (internChecked shape) w').1.map ([·]))
      (outcome (internChecked shape) w').2 := by
  unfold internChecked
  cases hcheck : shape.check with
  | ok u => exact .built hparts hshape hcheck
  | error x => exact .unsound hparts hshape hcheck

/-- A type that is checked once its parts are there follows the rules when the parts do. -/
theorem follows_parts {α : Type} {e : TypeExpr} {s : Bindings} {n : Nat} {w : Workspace}
    {step : Resolving α} {r : Except ResolveError (List TypeId)} {build : List TypeId → α}
    (shape : α → Shape) (hshape : ∀ ids, shapeOver e ids = some (shape (build ids)))
    (hparts : Resolves p room (.parts (parts e) s) (n + 1) w r (outcome step w).2)
    (hr : (outcome step w).1 = r.map build) :
    Resolves p room (.type e s) n w
      ((outcome (step >>= fun a => internChecked (shape a)) w).1.map ([·]))
      (outcome (step >>= fun a => internChecked (shape a)) w).2 := by
  rcases hrun : outcome step w with ⟨x | a, w'⟩
  · rw [hrun] at hparts hr
    rw [outcome_bind_error hrun]
    cases r with
    | ok ids => cases hr
    | error y =>
      cases hr
      exact .unbuilt hparts
  · rw [hrun] at hparts hr
    rw [outcome_bind_ok hrun]
    cases r with
    | error y => cases hr
    | ok ids =>
      cases hr
      exact follows_checked hparts (hshape ids)

/-- A type around one other follows the rules when that other does. -/
theorem follows_around {e inner : TypeExpr} {s : Bindings} {n : Nat} {w : Workspace}
    {step : Resolving TypeId} (shape : TypeId → Shape) (hparts : parts e = [.ok inner])
    (hshape : ∀ id, shapeOver e [id] = some (shape id)) (hcheck : ∀ id, (shape id).check = .ok ())
    (hinner : Resolves p room (.type inner s) (n + 1) w ((outcome step w).1.map ([·]))
      (outcome step w).2) :
    Resolves p room (.type e s) n w
      ((outcome (step >>= fun id => intern (shape id)) w).1.map ([·]))
      (outcome (step >>= fun id => intern (shape id)) w).2 := by
  rcases hrun : outcome step w with ⟨x | id, w'⟩
  · rw [hrun] at hinner
    rw [outcome_bind_error hrun]
    exact .unbuilt (hparts ▸ .stop hinner)
  · rw [hrun] at hinner
    rw [outcome_bind_ok hrun, outcome_intern]
    exact .built (hparts ▸ .next hinner .nil) (hshape id) (hcheck id)

theorem tagOf_ok {name : String} {tag : Option Nat} {place : Nat} {b : UInt8}
    (h : tagOf name tag place = .ok b) : b = tagAt tag place := by
  simp only [tagOf] at h
  split at h
  · cases h
    rfl
  · cases h

variable {instance? : Option Resolver}

theorem follows_applied (hinside : FollowsInside p room (entries + 1) instance?) {name : String}
    {e : TypeExpr} {es : List TypeExpr} {s : Bindings} {n : Nat} {w : Workspace}
    (hhead : Resolves p room (.type e s) (n + 1) w
      ((outcome (resolveWith p enter instance? e s (n + 1)) w).1.map ([·]))
      (outcome (resolveWith p enter instance? e s (n + 1)) w).2)
    (hw : w.waiting ≤ entries)
    (htail : ∀ w', w'.waiting ≤ entries → Resolves p room (.parts (es.map .ok) s) (n + 1) w'
      (outcome (resolveAll p enter instance? es s (n + 1)) w').1
      (outcome (resolveAll p enter instance? es s (n + 1)) w').2) :
    Resolves p room (.type (.named name (e :: es)) s) n w
      ((outcome (resolveWith p enter instance? (.named name (e :: es)) s n) w).1.map ([·]))
      (outcome (resolveWith p enter instance? (.named name (e :: es)) s n) w).2 := by
  rw [resolveWith, outcome_table]
  cases hg : p.genericOf w.table s name (es.length + 1) with
  | error x => exact .refused hg
  | ok g =>
    cases instance? with
    | none =>
      cases hinside
      exact .tooDeep hg
    | some enterInstance =>
      obtain ⟨less, rfl, hless⟩ := hinside
      rcases hrun : outcome (resolveWith p enter (some enterInstance) e s (n + 1)) w with
        ⟨x | id, w'⟩
      · rw [hrun] at hhead
        simp only [outcome_bind_error hrun]
        exact .unapplied hg (.stop hhead)
      · rw [hrun] at hhead
        have hw' := Nat.le_trans hhead.continues.waiting hw
        have hrest := htail w' hw'
        simp only [outcome_bind_ok hrun]
        rcases hall : outcome (resolveAll p enter (some enterInstance) es s (n + 1)) w' with
          ⟨x | ids, w''⟩
        · rw [hall] at hrest
          rw [outcome_bind_error hall]
          exact .unapplied hg (.next hhead hrest)
        · rw [hall] at hrest
          rw [outcome_bind_ok hall]
          exact .applied hg (.next hhead hrest)
            (follows_instance hless g ⟨name, id :: ids⟩ n
              (Nat.le_trans hrest.continues.waiting hw'))

mutual

theorem follows_type (henter : Follows p room entries enter)
    (hinside : FollowsInside p room (entries + 1) instance?) :
    ∀ (e : TypeExpr) (s : Bindings) (n : Nat) (w : Workspace), w.waiting ≤ entries →
      Resolves p room (.type e s) n w
        ((outcome (resolveWith p enter instance? e s n) w).1.map ([·]))
        (outcome (resolveWith p enter instance? e s n) w).2
  | .primitive name, s, n, w, hw => by
    rw [resolveWith]
    cases hname : Primitive.ofName? name with
    | none =>
      have hparts : parts (.primitive name) = [.error (.unknownPrimitive name)] := by
        simp [parts, Primitive.isName, hname]
      exact .unbuilt (hparts ▸ .fault)
    | some prim =>
      have hparts : parts (.primitive name) = [] := by simp [parts, Primitive.isName, hname]
      have hshape : shapeOver (.primitive name) [] = some (.primitive prim) := by
        simp [shapeOver, hname]
      exact .built (hparts ▸ .nil) hshape rfl
  | .index i, s, n, w, hw => by
    rw [resolveWith]
    exact follows_index henter i s n hw
  | .named name [], s, n, w, hw => by
    rw [resolveWith]
    exact follows_name henter name s n hw
  | .named name (e :: es), s, n, w, hw => by
    exact follows_applied hinside (follows_type henter hinside e s (n + 1) w hw) hw
      fun w' hw' => follows_all henter hinside es s (n + 1) w' hw'
  | .compact e, s, n, w, hw => by
    rw [resolveWith]
    exact follows_around .compact rfl (fun _ => rfl) (fun _ => rfl)
      (follows_type henter hinside e s (n + 1) w hw)
  | .sequence e, s, n, w, hw => by
    rw [resolveWith]
    exact follows_around .sequence rfl (fun _ => rfl) (fun _ => rfl)
      (follows_type henter hinside e s (n + 1) w hw)
  | .array e length, s, n, w, hw => by
    rw [resolveWith]
    exact follows_around (.array · length) rfl (fun _ => rfl) (fun _ => rfl)
      (follows_type henter hinside e s (n + 1) w hw)
  | .tuple es, s, n, w, hw => by
    have hall := follows_all henter hinside es s (n + 1) w hw
    rw [resolveWith]
    rcases hrun : outcome (resolveAll p enter instance? es s (n + 1)) w with ⟨x | ids, w'⟩
    · rw [hrun] at hall
      rw [outcome_bind_error hrun]
      exact .unbuilt hall
    · rw [hrun] at hall
      rw [outcome_bind_ok hrun, outcome_intern]
      exact .built hall rfl rfl
  | .enum vs, s, n, w, hw => by
    rw [resolveWith]
    by_cases hmany : vs.length > Shape.maxVariants
    · have hparts : parts (.enum vs) = [.error .tooManyVariants] := by rw [parts, if_pos hmany]
      rw [if_pos hmany]
      exact .unbuilt (hparts ▸ .fault)
    · have hparts : parts (.enum vs) = payloads vs 0 := by rw [parts, if_neg hmany]
      obtain ⟨r, hall, hr⟩ := follows_variants henter hinside vs 0 s (n + 1) w hw
      rw [if_neg hmany]
      exact follows_parts .enum (fun _ => rfl) (hparts ▸ hall) hr
  | .struct fs, s, n, w, hw => by
    obtain ⟨r, hall, hr⟩ := follows_fields henter hinside fs s (n + 1) w hw
    rw [resolveWith]
    exact follows_parts .struct (fun _ => rfl) hall hr

theorem follows_all (henter : Follows p room entries enter)
    (hinside : FollowsInside p room (entries + 1) instance?) :
    ∀ (es : List TypeExpr) (s : Bindings) (n : Nat) (w : Workspace), w.waiting ≤ entries →
      Resolves p room (.parts (es.map .ok) s) n w
        (outcome (resolveAll p enter instance? es s n) w).1
        (outcome (resolveAll p enter instance? es s n) w).2
  | [], s, n, w, hw => by
    rw [resolveAll]
    exact .nil
  | e :: es, s, n, w, hw => by
    have hhead := follows_type henter hinside e s n w hw
    rw [resolveAll]
    rcases hrun : outcome (resolveWith p enter instance? e s n) w with ⟨x | id, w'⟩
    · rw [hrun] at hhead
      rw [outcome_bind_error hrun]
      exact .stop hhead
    · rw [hrun] at hhead
      have htail := follows_all henter hinside es s n w'
        (Nat.le_trans hhead.continues.waiting hw)
      rw [outcome_bind_ok hrun, bind_pure_comp, outcome_map]
      exact .next hhead htail

theorem follows_variants (henter : Follows p room entries enter)
    (hinside : FollowsInside p room (entries + 1) instance?) :
    ∀ (vs : List (String × Option TypeExpr × Option Nat)) (place : Nat) (s : Bindings) (n : Nat)
      (w : Workspace), w.waiting ≤ entries →
      ∃ r, Resolves p room (.parts (payloads vs place) s) n w r
          (outcome (resolveVariants p enter instance? vs place s n) w).2 ∧
        (outcome (resolveVariants p enter instance? vs place s n) w).1
          = r.map (variantsOver vs place)
  | [], place, s, n, w, hw => by
    rw [resolveVariants]
    exact ⟨.ok [], .nil, rfl⟩
  | (name, payload, tag) :: vs, place, s, n, w, hw => by
    rw [resolveVariants]
    cases htag : tagOf name tag place with
    | error x =>
      simp only [payloads, htag]
      exact ⟨.error x, .fault, rfl⟩
    | ok b =>
      cases tagOf_ok htag
      cases payload with
      | none =>
        obtain ⟨r, hall, hr⟩ := follows_variants henter hinside vs (place + 1) s n w hw
        simp only [payloads, htag, pure_bind, bind_pure_comp, outcome_map, hr]
        exact ⟨r, hall, by cases r <;> rfl⟩
      | some e =>
        have hhead := follows_type henter hinside e s n w hw
        simp only [payloads, htag]
        have hmap := outcome_map some (resolveWith p enter instance? e s n) w
        rcases hrun : outcome (resolveWith p enter instance? e s n) w with ⟨x | id, w'⟩
        · rw [hrun] at hhead hmap
          rw [outcome_bind_error hmap]
          exact ⟨.error x, .stop hhead, rfl⟩
        · rw [hrun] at hhead hmap
          obtain ⟨r, hall, hr⟩ := follows_variants henter hinside vs (place + 1) s n w'
            (Nat.le_trans hhead.continues.waiting hw)
          rw [outcome_bind_ok hmap, bind_pure_comp, outcome_map, hr]
          exact ⟨_, .next hhead hall, by cases r <;> rfl⟩

theorem follows_fields (henter : Follows p room entries enter)
    (hinside : FollowsInside p room (entries + 1) instance?) :
    ∀ (fs : List (String × TypeExpr)) (s : Bindings) (n : Nat) (w : Workspace),
      w.waiting ≤ entries →
      ∃ r, Resolves p room (.parts (fs.map fun f => .ok f.2) s) n w r
          (outcome (resolveFields p enter instance? fs s n) w).2 ∧
        (outcome (resolveFields p enter instance? fs s n) w).1 = r.map (fieldsOver fs)
  | [], s, n, w, hw => by
    rw [resolveFields]
    exact ⟨.ok [], .nil, rfl⟩
  | (name, e) :: fs, s, n, w, hw => by
    have hhead := follows_type henter hinside e s n w hw
    rw [resolveFields]
    rcases hrun : outcome (resolveWith p enter instance? e s n) w with ⟨x | id, w'⟩
    · rw [hrun] at hhead
      rw [outcome_bind_error hrun]
      exact ⟨.error x, .stop hhead, rfl⟩
    · rw [hrun] at hhead
      obtain ⟨r, hall, hr⟩ := follows_fields henter hinside fs s n w'
        (Nat.le_trans hhead.continues.waiting hw)
      rw [outcome_bind_ok hrun, bind_pure_comp, outcome_map, hr]
      exact ⟨_, .next hhead hall, by cases r <;> rfl⟩

end

end

theorem follows_resolveInRoom {p : Program} {entries : Nat} {enter : Nat → Resolver}
    (henter : ∀ room, Follows p room entries (enter room)) (room : Nat) :
    Follows p room (entries + 1) (resolveInRoom p enter room) := by
  induction room with
  | zero =>
    intro e s n w hw
    have hinside : FollowsInside p 0 (entries + 1) none := rfl
    exact follows_type (henter 0) hinside e s n w (Nat.le_of_lt_succ hw)
  | succ room ih =>
    intro e s n w hw
    have hinside : FollowsInside p (room + 1) (entries + 1) (some (resolveInRoom p enter room)) :=
      ⟨room, rfl, ih⟩
    exact follows_type (henter (room + 1)) hinside e s n w (Nat.le_of_lt_succ hw)

/-- The cut comes after as many definitions as wait: where none waits, none is entered. -/
theorem follows_resolveEntering (p : Program) (entries room : Nat) :
    Follows p room (entries + 1) (resolveEntering p entries room) := by
  induction entries generalizing room with
  | zero => exact follows_resolveInRoom (fun _ _ _ _ _ hw => absurd hw (Nat.not_lt_zero _)) room
  | succ entries ih => exact follows_resolveInRoom ih room

/-- A type is resolved by the rules. -/
theorem resolves_resolve (p : Program) (e : TypeExpr) (s : Bindings) (n : Nat) {w : Workspace}
    (hw : w.waiting ≤ p.definitions.size) :
    Resolves p maxInstances (.type e s) n w ((outcome (p.resolve e s n) w).1.map ([·]))
      (outcome (p.resolve e s n) w).2 :=
  follows_resolveEntering p _ _ e s n w (Nat.lt_succ_of_le hw)

end Typewire
