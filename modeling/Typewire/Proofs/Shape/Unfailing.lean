-- Well-formed definitions are resolved without fail. What is met again is behind a bracket, else
-- it would hold itself. And what came to a reserved place leads to the definition that the place is
-- reserved for, so no body comes to its own place and none is left without a shape.
import Typewire.Proofs.Shape.Chains

namespace Typewire

open Typewire.Language Resolving

variable {ds : List Definition} {known : Declared}

/-! ## Workspaces -/

/-- What is done at a place that is reserved for a definition underway leads to that one. -/
def Workspace.Linked (ds : List Definition) (w : Workspace) : Prop :=
  ∀ j id k u, w.progressAt j = .done id → w.progressAt k = .underway u → u.reserved = some id →
    Relation.TransGen (Contains ds) (.definition j) (.definition k)

/-- A workspace in which plain definitions are resolved: no generic type is in it, and no reserved
place waits for another. -/
structure Workspace.Clear (ds : List Definition) (known : Declared) (w : Workspace) : Prop where
  faithful : w.Faithful (known.program ds)
  closed : w.Closed
  instances : ∀ key, w.instances.lookup key = none
  own : ∀ i < ds.length, w.progressAt i ≠ .generic
  aliases : w.aliases = []
  linked : w.Linked ds

theorem Task.Of.within {task : Task} (h : task.Of ds) (size : Nat) : task.Within size := by
  cases task with
  | type e s | parts es s =>
    cases h.2
    exact fun b hb => by cases hb
  | definition i => trivial
  | generic g key => exact h.elim

theorem Task.Of.isKnown {task : Task} (h : task.Of ds) (w : Workspace) : task.Known w := by
  cases task with
  | generic g key => exact h.elim
  | _ => trivial

theorem Workspace.reservedBy_underway {w : Workspace} {i : Nat} {u : Underway}
    (h : w.progressAt i = .underway u) : w.reservedBy (.definition i) = u.reserved := by
  rw [reservedBy, h]
  rfl

namespace Workspace.Clear

variable {w w' : Workspace}

/-- What else a task keeps is known already. -/
theorem of_resolves (h : w.Clear ds known) {room : Nat} {task : Task} {n : Nat} {ids : List TypeId}
    (hrun : Resolves (known.program ds) room task n w (.ok ids) w') (htask : task.Of ds)
    (haliases : w'.aliases = []) (hlinked : w'.Linked ds) : w'.Clear ds known where
  faithful := (hrun.arrives h.faithful (htask.isKnown w)).faithful
  closed := (hrun.closed h.closed (htask.within _)).closed
  instances key := by
    cases hkey : w'.instances.lookup key with
    | none => rfl
    | some u =>
      obtain ⟨v, hv⟩ := hrun.returns.instances key u hkey
      cases (h.instances key).symm.trans hv
  own i hi := hrun.continues.own i (h.own i hi)
  aliases := haliases
  linked := hlinked

/-- A definition may go underway where it waits. -/
theorem enter (h : w.Clear ds known) {i : Nat} (hi : w.progressAt i = .waiting) (n : Nat) :
    (w.setProgress i (.underway ⟨n, none⟩)).Clear ds known where
  faithful := (h.faithful.enterDefinition hi n).2
  closed := h.closed.setProgress _ (by rintro _ ⟨⟩) (by rintro _ _ ⟨⟩ ⟨⟩)
  instances := h.instances
  own j hj := progressAt_setProgress_ne_generic (by simp) (h.own j hj)
  aliases := h.aliases
  linked j id k u hj hk hid := by
    rcases of_progressAt_setProgress hj (by simp) with ⟨-, hq⟩ | ⟨-, hj⟩
    · cases hq
    rcases of_progressAt_setProgress hk (by simp) with ⟨-, hq⟩ | ⟨-, hk⟩
    · cases hq
      cases hid
    · exact h.linked j id k u hj hk hid

/-- A place without a shape is reserved for a definition underway. -/
theorem holder (h : w.Clear ds known) {id : TypeId} (hid : id < w.table.size)
    (hnone : w.table.shape? id = none) :
    ∃ k u, w.progressAt k = .underway u ∧ u.reserved = some id := by
  obtain ⟨holder, hholder⟩ := h.faithful.orderly.reserved.held id hid hnone
  cases holder with
  | definition k =>
    rw [reservedBy] at hholder
    cases hk : w.progressAt k with
    | underway u =>
      rw [hk] at hholder
      exact ⟨k, u, hk, hholder⟩
    | waiting | done | generic =>
      rw [hk] at hholder
      cases hholder
  | generic key =>
    rw [reservedBy, h.instances key] at hholder
    cases hholder
  | linked k =>
    rw [reservedBy, h.aliases] at hholder
    cases hholder

/-- A place that is reserved has no shape. -/
theorem unfilled (h : w.Clear ds known) {k : Nat} {u : Underway} {id : TypeId}
    (hk : w.progressAt k = .underway u) (hid : u.reserved = some id) :
    w.table.shape? id = none :=
  (h.faithful.orderly.reserved.unfilled _ id ((reservedBy_underway hk).trans hid)).2

end Workspace.Clear

/-! ## Tasks -/

/-- The part that a task comes to, where it is one. -/
def Task.part : Task → Option Part
  | .type e _ => some (.type e)
  | .definition i => some (.definition i)
  | _ => none

/-- Whatever is underway around a task was met behind fewer brackets, unless it leads to the task
by names alone. -/
def Task.Around (ds : List Definition) (n : Nat) (w : Workspace) (task : Task) : Prop :=
  ∀ k u, w.progressAt k = .underway u → u.nesting < n ∨
    (u.nesting = n ∧ ∃ part, task.part = some part ∧
      Relation.TransGen (Contains ds) (.definition k) part)

/-- There is nothing wrong between the parts of a task. -/
def Task.Sound : Task → Prop
  | .parts es _ => ∀ x, .error x ∉ es
  | _ => True

/-- A part came to a place that has a shape, or to one that is reserved for a definition which it
leads to and which was met behind fewer brackets. Then no other place was reserved on the way. -/
def Lands (ds : List Definition) (n : Nat) (w w' : Workspace) (part : Part) (id : TypeId) : Prop :=
  (∃ s, w'.table.shape? id = some s) ∨
    ∃ k u, w'.progressAt k = .underway u ∧ u.reserved = some id ∧ u.nesting < n ∧
      Relation.ReflTransGen (Contains ds) part (.definition k) ∧
      ∀ j v, j ≠ k → w'.progressAt j = .underway v → w.progressAt j = .underway v

/-- A task has come to its places, and what is linked is still so. -/
structure Succeeds (ds : List Definition) (task : Task) (n : Nat) (w : Workspace)
    (r : Except ResolveError (List TypeId)) (w' : Workspace) : Prop where
  ok : ∃ ids, r = .ok ids
  aliases : w'.aliases = []
  linked : w'.Linked ds
  lands : ∀ ids part, r = .ok ids → task.part = some part →
    ∃ id, ids = [id] ∧ Lands ds n w w' part id

/-! ## Steps -/

namespace Task.Around

variable {n : Nat} {w w' : Workspace}

theorem parts {e : TypeExpr} {s s' : Bindings} {es : List (Except ResolveError TypeExpr)}
    (h : Task.Around ds n w (.type e s)) : Task.Around ds (n + 1) w (.parts es s') := by
  intro k u hu
  rcases h k u hu with hlt | ⟨heq, -⟩
  · exact Or.inl (Nat.lt_succ_of_lt hlt)
  · exact Or.inl (heq ▸ Nat.lt_succ_self _)

theorem nested {es : List (Except ResolveError TypeExpr)} {s : Bindings}
    (h : Task.Around ds n w (.parts es s)) : w.Nested n := by
  intro k u hu
  rcases h k u hu with hlt | ⟨-, part, hpart, -⟩
  · exact hlt
  · cases hpart

theorem of_nested (h : w.Nested n) (task : Task) : task.Around ds n w :=
  fun k u hu => Or.inl (h k u hu)

/-- What is around a type is around the definition that it leads to by name. -/
theorem definition {e : TypeExpr} {s : Bindings} {i : Nat} (h : Task.Around ds n w (.type e s))
    (hstep : Contains ds (.type e) (.definition i)) : Task.Around ds n w (.definition i) := by
  intro k u hu
  rcases h k u hu with hlt | ⟨heq, part, hpart, hpath⟩
  · exact Or.inl hlt
  · cases hpart
    exact Or.inr ⟨heq, _, rfl, hpath.tail hstep⟩

/-- What is around a definition is around its body, and so is the definition then. -/
theorem body {i : Nat} {d : Definition} (h : Task.Around ds n w (.definition i))
    (hd : ds[i]? = some d) :
    Task.Around ds n (w.setProgress i (.underway ⟨n, none⟩)) (.type d.body []) := by
  intro k u hu
  rcases Workspace.of_progressAt_setProgress hu (by simp) with ⟨rfl, hq⟩ | ⟨-, hu⟩
  · cases hq
    exact Or.inr ⟨rfl, _, rfl, .single (.body hd)⟩
  · rcases h k u hu with hlt | ⟨heq, part, hpart, hpath⟩
    · exact Or.inl hlt
    · cases hpart
      exact Or.inr ⟨heq, _, rfl, hpath.tail (.body hd)⟩

end Task.Around

theorem Lands.head {n : Nat} {w w' : Workspace} {part inner : Part} {id : TypeId}
    (h : Lands ds n w w' inner id) (hstep : Contains ds part inner) : Lands ds n w w' part id := by
  rcases h with hfilled | ⟨k, u, hk, hid, hlt, hpath, hsame⟩
  · exact Or.inl hfilled
  · exact Or.inr ⟨k, u, hk, hid, hlt, .head hstep hpath, hsame⟩

namespace Workspace.Clear

variable {w w' w'' : Workspace} {n i : Nat} {u : Underway} {id id' : TypeId}

/-- A definition that is done stands at a place with a shape, or at one of a definition that was
met behind fewer brackets: were it met behind as many, it would lead back to itself. -/
theorem lands_done (h : w.Clear ds known)
    (hacyclic : ∀ part, ¬ Relation.TransGen (Contains ds) part part)
    (hi : w.progressAt i = .done id) (haround : Task.Around ds n w (.definition i)) :
    Lands ds n w w (.definition i) id := by
  cases hs : w.table.shape? id with
  | some s => exact Or.inl ⟨s, hs⟩
  | none =>
    obtain ⟨k, u, hk, hid⟩ := h.holder (h.closed.done i id hi) hs
    have hpath := h.linked i id k u hi hk hid
    refine Or.inr ⟨k, u, hk, hid, ?_, hpath.to_reflTransGen, fun _ _ _ hv => hv⟩
    rcases haround k u hk with hlt | ⟨-, part, hpart, hback⟩
    · exact hlt
    · cases hpart
      exact absurd (hpath.trans hback) (hacyclic _)

/-- A definition that is met again leaves linked what is linked: a place that is reserved for it
now is new, so nothing is done at it. -/
theorem linked_meet (h : w.Clear ds known) (hi : w.progressAt i = .underway u) {u' : Underway}
    {label : String} {reservedLabel : Option String}
    (hmeet : outcome (meetAgain u n label reservedLabel) w = (.ok (id, u'), w')) :
    (w'.setProgress i (.underway u')).Linked ds := by
  obtain ⟨hp, -⟩ := progress_meetAgain hmeet
  intro j other k v hj hk hv
  rcases of_progressAt_setProgress hj (by simp) with ⟨-, hq⟩ | ⟨-, hdone⟩
  · cases hq
  rw [progressAt_of_eq hp] at hdone
  rcases of_progressAt_setProgress hk (by simp) with ⟨rfl, hq⟩ | ⟨-, hk⟩
  · cases hq
    rcases meetAgain_cases u n label reservedLabel w with ⟨-, ho⟩ | ⟨-, slot, -, ho⟩ | ⟨-, -, ho⟩
    · cases ho.symm.trans hmeet
    · cases ho.symm.trans hmeet
      exact h.linked j other k _ hdone hi hv
    · cases ho.symm.trans hmeet
      cases hv
      exact absurd (h.closed.done j _ hdone) (Nat.lt_irrefl _)
  · rw [progressAt_of_eq hp] at hk
    exact h.linked j other k v hdone hk hv

/-- A body settles without fail where it has landed. It comes to a place with a shape, or stays
where it is. -/
theorem settles (h : w'.Clear ds known) (hu : w'.progressAt i = .underway u)
    (hnesting : u.nesting = n) (hstart : ∀ v, w.progressAt i = .underway v → v.reserved = none)
    {part : Part} (hlands : Lands ds n w w' part id) (label : String) :
    ∃ id' w'', outcome (settle u id label) w' = (.ok id', w'') ∧ w''.aliases = w'.aliases ∧
      ((id' = id ∧ w'' = w') ∨ ∃ s, w''.table.shape? id' = some s) := by
  -- A place was reserved for it, so the body has a shape: else nothing would be reserved for it.
  have hshape {slot : TypeId} (hslot : u.reserved = some slot) :
      ∃ s, w'.table.shape? id = some s := by
    rcases hlands with hfilled | ⟨k, v, hk, -, hlt, -, hsame⟩
    · exact hfilled
    · have hki : i ≠ k := by
        rintro rfl
        cases hu.symm.trans hk
        exact absurd hnesting (Nat.ne_of_lt hlt)
      cases (hstart u (hsame i u hki hu)).symm.trans hslot
  rcases settle_cases u id label w' with
    ⟨-, ho⟩ | ⟨slot, hslot, ⟨rfl, -⟩ | ⟨s, hs, hne, ho⟩ | ⟨hs, -⟩⟩
  · exact ⟨id, w', ho, rfl, Or.inl ⟨rfl, rfl⟩⟩
  · obtain ⟨s, hs⟩ := hshape hslot
    cases (h.unfilled hu hslot).symm.trans hs
  · have hin := (h.faithful.orderly.reserved.unfilled _ slot
      ((reservedBy_underway hu).trans hslot)).1
    exact ⟨slot, _, ho, rfl, Or.inr ⟨s, Table.shape?_fill_self s hin⟩⟩
  · obtain ⟨s, hs'⟩ := hshape hslot
    cases hs.symm.trans hs'

/-- A definition that is done lands where its body did. -/
theorem lands_finish {d : Definition} (hd : ds[i]? = some d) (hi : w.progressAt i = .waiting)
    (hu : w'.progressAt i = .underway u) (hnesting : u.nesting = n)
    (hlands : Lands ds n (w.setProgress i (.underway ⟨n, none⟩)) w' (.type d.body) id)
    (hsettled : (id' = id ∧ w'' = w') ∨ ∃ s, w''.table.shape? id' = some s)
    (hp : w''.progress = w'.progress) (name? : Option String) :
    Lands ds n w (w''.finishDefinition i name? id') (.definition i) id' := by
  have hshape {s : Shape} (hs : w''.table.shape? id' = some s) :
      Lands ds n w (w''.finishDefinition i name? id') (.definition i) id' :=
    Or.inl ⟨s, (Table.shape?_congr (slots_finishDefinition w'' i name? id') id').trans hs⟩
  rcases hsettled with ⟨rfl, rfl⟩ | ⟨s, hs⟩
  · rcases hlands with ⟨s, hs⟩ | ⟨k, v, hk, hid, hlt, hpath, hsame⟩
    · exact hshape hs
    · have hki : k ≠ i := by
        rintro rfl
        cases hu.symm.trans hk
        exact absurd hnesting (Nat.ne_of_lt hlt)
      refine Or.inr ⟨k, v, (progressAt_finishDefinition_ne hki _ _).trans hk, hid, hlt,
        .head (.body hd) hpath, fun j v hjk hj => ?_⟩
      rcases of_progressAt_finishDefinition hj (by simp) with ⟨-, hq⟩ | ⟨hji, hj⟩
      · cases hq
      · rw [← progressAt_setProgress_ne hji, hsame j v hjk hj]
  · exact hshape hs

/-- What is linked is so when one more definition is done. -/
theorem linked_finish (h : w'.Clear ds known) (hu : w'.progressAt i = .underway u) {label : String}
    (hsettle : outcome (settle u id label) w' = (.ok id', w'')) {name? : Option String}
    (hlands : Lands ds n w (w''.finishDefinition i name? id') (.definition i) id') :
    (w''.finishDefinition i name? id').Linked ds := by
  obtain ⟨hp, -⟩ := progress_settle hsettle
  have horderly := h.faithful.orderly.finishDefinition hu hsettle name?
  intro j other k v hj hk hv
  have hheld := (reservedBy_underway hk).trans hv
  rcases of_progressAt_finishDefinition hk (by simp) with ⟨-, hq⟩ | ⟨hki, hk⟩
  · cases hq
  rcases of_progressAt_finishDefinition hj (by simp) with ⟨rfl, hq⟩ | ⟨-, hj⟩
  · cases hq
    rcases hlands with ⟨s, hs⟩ | ⟨k', v', hk', hid, -, hpath, -⟩
    · cases (horderly.reserved.unfilled _ _ hheld).2.symm.trans hs
    · have hsame := horderly.reserved.unique _ _ _ hheld ((reservedBy_underway hk').trans hid)
      cases hsame
      rcases Relation.reflTransGen_iff_eq_or_transGen.mp hpath with heq | hpath
      · cases heq
        exact absurd rfl hki
      · exact hpath
  · rw [progressAt_of_eq hp] at hj hk
    exact h.linked j other k v hj hk hv

end Workspace.Clear

namespace Succeeds

variable {n : Nat} {w w' : Workspace} {r : Except ResolveError (List TypeId)}

theorem not_error {task : Task} {x : ResolveError} (h : Succeeds ds task n w (.error x) w') :
    False := by
  obtain ⟨ids, hids⟩ := h.ok
  cases hids

theorem one {task : Task} {part : Part} {id : TypeId} (hpart : task.part = some part)
    (haliases : w'.aliases = []) (hlinked : w'.Linked ds) (hlands : Lands ds n w w' part id) :
    Succeeds ds task n w (.ok [id]) w' where
  ok := ⟨_, rfl⟩
  aliases := haliases
  linked := hlinked
  lands ids part' hids hpart' := by
    cases hids
    cases hpart.symm.trans hpart'
    exact ⟨id, rfl, hlands⟩

/-- A type that leads to a definition by name comes to where that does. -/
theorem head {e : TypeExpr} {s : Bindings} {i : Nat}
    (h : Succeeds ds (.definition i) n w r w') (hstep : Contains ds (.type e) (.definition i)) :
    Succeeds ds (.type e s) n w r w' where
  ok := h.ok
  aliases := h.aliases
  linked := h.linked
  lands ids part hids hpart := by
    cases hpart
    obtain ⟨id, hid, hlands⟩ := h.lands ids _ hids rfl
    exact ⟨id, hid, hlands.head hstep⟩

theorem parts {es : List (Except ResolveError TypeExpr)} {s : Bindings} {ids : List TypeId}
    (haliases : w'.aliases = []) (hlinked : w'.Linked ds) :
    Succeeds ds (.parts es s) n w (.ok ids) w' :=
  ⟨⟨ids, rfl⟩, haliases, hlinked, fun _ _ _ hpart => by cases hpart⟩

end Succeeds

theorem getElem?_definitionAt {i : Nat} (h : i < ds.length) :
    ds[i]? = some ((known.program ds).definitionAt i) := by
  rw [definitionAt_program (List.getElem?_eq_getElem h), List.getElem?_eq_getElem h]

/-- Where the body of a definition has come to a place, it settles without fail. -/
theorem Workspace.Clear.settles_body {w w' : Workspace} (hw : w.Clear ds known) {i n room : Nat}
    (hlt : i < ds.length) (hi : w.progressAt i = .waiting) {u : Underway} {id : TypeId}
    (hbody : Resolves (known.program ds) room (.type ((known.program ds).definitionAt i).body []) n
      (w.setProgress i (.underway ⟨n, none⟩)) (.ok [id]) w')
    (hu : w'.progressAt i = .underway u)
    (h : Succeeds ds (.type ((known.program ds).definitionAt i).body []) n
      (w.setProgress i (.underway ⟨n, none⟩)) (.ok [id]) w') :
    w'.Clear ds known ∧ u.nesting = n ∧
      Lands ds n (w.setProgress i (.underway ⟨n, none⟩)) w'
        (.type ((known.program ds).definitionAt i).body) id ∧
      ∃ id' w'', outcome (settle u id ((known.program ds).label i)) w' = (.ok id', w'') ∧
        w''.aliases = w'.aliases ∧
        ((id' = id ∧ w'' = w') ∨ ∃ s, w''.table.shape? id' = some s) := by
  have hstart (v : Underway)
      (hv : (w.setProgress i (.underway ⟨n, none⟩)).progressAt i = .underway v) :
      v = ⟨n, none⟩ := by
    rw [progressAt_setProgress_self (lt_of_progressAt (by rw [hi]; simp))] at hv
    cases hv
    rfl
  have hw' := (hw.enter hi n).of_resolves hbody (Task.Of.body hlt) h.aliases h.linked
  obtain ⟨v, hv, hc⟩ := hbody.underway hu
  have hnesting : u.nesting = n := by rw [hc.nesting, hstart v hv]
  obtain ⟨_, hid, hlands⟩ := h.lands _ _ rfl rfl
  cases hid
  exact ⟨hw', hnesting, hlands,
    hw'.settles hu hnesting (fun v hv => by rw [hstart v hv]) hlands _⟩

/-- Well-formed definitions are resolved without fail. -/
theorem Resolves.succeeds (hof : Declared.Of ds known) (hplain : Plain ds) (hwf : WellFormed ds)
    {room : Nat} {task : Task} {n : Nat} {w w' : Workspace} {r : Except ResolveError (List TypeId)}
    (h : Resolves (known.program ds) room task n w r w') (htask : task.Of ds) (hsound : task.Sound)
    (hw : w.Clear ds known) (haround : task.Around ds n w) : Succeeds ds task n w r w' := by
  -- By induction on the run. What is around the task carries it: each step that fails needs a name
  -- or a part that is at fault, or a definition around it that is met again with no bracket between.
  induction h with
  | cached | againInstance | instantiated | flatInstance | failedInstance | endlessInstance =>
    exact htask.elim
  | refused | tooDeep | unapplied | applied => exact absurd htask (Task.Of.not_applied hplain)
  | nil => exact .parts hw.aliases hw.linked
  | fault => exact absurd List.mem_cons_self (hsound _)
  | stop _ ih =>
    exact (ih htask.first trivial hw (.of_nested haround.nested _)).not_error.elim
  | next hfirst hrest ih ih' =>
    have hfirst' := ih htask.first trivial hw (.of_nested haround.nested _)
    have hw' := hw.of_resolves hfirst htask.first hfirst'.aliases hfirst'.linked
    have hrest' := ih' htask.rest (fun x hx => hsound x (List.mem_cons_of_mem _ hx)) hw'
      (.of_nested (haround.nested.resolves hfirst) _)
    obtain ⟨ids, rfl⟩ := hrest'.ok
    exact .parts hrest'.aliases hrest'.linked
  | unbuilt _ ih => exact (ih htask.parts (hwf.sound htask.1) hw haround.parts).not_error.elim
  | unsound _ hover hcheck => cases (hwf.check htask.1 hover).symm.trans hcheck
  | built hparts _ _ ih =>
    have hparts' := ih htask.parts (hwf.sound htask.1) hw haround.parts
    have hw' := hw.of_resolves hparts htask.parts hparts'.aliases hparts'.linked
    exact .one rfl hw'.aliases hw'.linked
      (Or.inl ⟨_, hw'.faithful.orderly.reserved.indexed.shape?_intern _⟩)
  | index hlt _ ih =>
    exact (ih (.index hlt) trivial hw (haround.definition .index)).head .index
  | placed hge =>
    rw [size_program] at hge
    exact absurd hge (Nat.not_le_of_lt (hwf.indices _ htask.1))
  | bound hs =>
    rw [htask.2] at hs
    cases hs
  | declared _ hname _ ih =>
    obtain ⟨d, hd, hdname, -⟩ := hof.position _ _ hname
    have hstep := @Contains.named ds _ d _ [] ⟨hd, hdname⟩
    exact (ih (.declared hof hname) trivial hw (haround.definition hstep)).head hstep
  | known _ hname hbound =>
    obtain ⟨i, hi, -⟩ := hw.faithful.bound _ _ hbound
    cases hname.symm.trans hi
  | primitive =>
    exact .one rfl hw.aliases hw.linked
      (Or.inl ⟨_, hw.faithful.orderly.reserved.indexed.shape?_intern _⟩)
  | unknown _ hname _ hprim =>
    exfalso
    rcases hwf.names _ htask.1 with ⟨i, d, hd⟩ | hname'
    · cases hname.symm.trans (hof.positionOf hd.1 hd.2 (hplain.isGeneric hd.1))
    · rw [Primitive.isName, hprim] at hname'
      cases hname'
  | done hi => exact .one rfl hw.aliases hw.linked (hw.lands_done hwf.acyclic hi haround)
  | bare hi => exact absurd hi (hw.own _ htask)
  | flat hi hmeet =>
    -- Met again behind no more brackets it leads to itself by names alone.
    exfalso
    rcases haround _ _ hi with hlt | ⟨-, part, hpart, hpath⟩
    · rcases meetAgain_cases _ _ _ _ _ with ⟨hle, -⟩ | ⟨-, _, -, ho⟩ | ⟨-, -, ho⟩
      · exact Nat.not_le_of_lt hlt hle
      · cases ho.symm.trans hmeet
      · cases ho.symm.trans hmeet
    · cases hpart
      exact hwf.acyclic _ hpath
  | again hi hmeet =>
    obtain ⟨hp, -⟩ := progress_meetAgain hmeet
    obtain ⟨hc, hslot⟩ := underway_meetAgain hmeet
    have hlt := nesting_lt_of_meetAgain hmeet
    rw [← hc.nesting] at hlt
    refine .one rfl ((Workspace.aliases_meetAgain hmeet).trans hw.aliases) (hw.linked_meet hi hmeet)
      (Or.inr ⟨_, _, Workspace.progressAt_setProgress_self ?_, hslot, hlt, .refl,
        fun j v hj hv => ?_⟩)
    · rw [hp]
      exact Workspace.lt_of_progressAt (by rw [hi]; simp)
    · rwa [Workspace.progressAt_setProgress_ne hj, Workspace.progressAt_of_eq hp] at hv
  | failed hi _ ih =>
    exact (ih htask.body trivial (hw.enter hi _)
      (haround.body (getElem?_definitionAt htask))).not_error.elim
  | endless hi hbody hu hsettle ih =>
    have hsucceeds := ih htask.body trivial (hw.enter hi _)
      (haround.body (getElem?_definitionAt htask))
    obtain ⟨-, -, -, id', w'', ho, -⟩ := hw.settles_body htask hi hbody hu hsucceeds
    cases ho.symm.trans hsettle
  | @defined _ _ _ _ _ i _ _ _ hi hbody hu hsettle ih =>
    have hsucceeds := ih htask.body trivial (hw.enter hi _)
      (haround.body (getElem?_definitionAt htask))
    obtain ⟨hw', hnesting, hlands, id', w'', ho, haliases, hsettled⟩ :=
      hw.settles_body htask hi hbody hu hsucceeds
    cases ho.symm.trans hsettle
    obtain ⟨hp, -⟩ := progress_settle hsettle
    have hfinish := Workspace.Clear.lands_finish (getElem?_definitionAt htask) hi hu hnesting hlands
      hsettled hp ((known.program ds).definitionAt i).name
    exact .one rfl (haliases.trans hw'.aliases) (hw'.linked_finish hu hsettle hfinish) hfinish

end Typewire
