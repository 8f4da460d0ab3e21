-- The laws of a list of definitions that becomes a table. Each definition that is not generic
-- is resolved in turn, so a law of the table is kept from one definition to the next.
import Typewire.Proofs.Shape.Lazy

namespace Typewire

open Typewire.Language Resolving

/-! ## Declaring -/

/-- What is declared are the names of some definitions: each name once, no primitive name, the
plain ones at their positions and the generic ones with their bodies. -/
structure Declared.Of (ds : List Definition) (known : Declared) : Prop where
  size : known.progress.size = ds.length
  progress : ∀ (i : Nat) (d : Definition), ds[i]? = some d →
    known.progress[i]? = some (if d.name.isSome && d.isGeneric then .generic else .waiting)
  named : ∀ (i : Nat) (d : Definition) (name : String), ds[i]? = some d → d.name = some name →
    Primitive.isName name = false ∧
      if d.isGeneric then known.generics.lookup name = some ⟨d.params, d.body, d.line⟩
      else known.positionOf.lookup name = some i
  distinct : ∀ (i j : Nat) (d x : Definition) (name : String), ds[i]? = some d → ds[j]? = some x →
    d.name = some name → x.name = some name → i = j
  params : ∀ (i : Nat) (d : Definition) (name : String), ds[i]? = some d → d.name = some name →
    ∀ param ∈ d.params, Primitive.isName param = false
  position : ∀ (name : String) (i : Nat), known.positionOf.lookup name = some i →
    ∃ d, ds[i]? = some d ∧ d.name = some name ∧ d.isGeneric = false
  generic : ∀ (name : String) (g : Generic), known.generics.lookup name = some g →
    ∃ (i : Nat) (d : Definition), ds[i]? = some d ∧ d.name = some name ∧ d.isGeneric = true

namespace Declared

theorem getElem?_concat {α : Type} {xs : List α} {x y : α} {i : Nat}
    (h : (xs ++ [x])[i]? = some y) : xs[i]? = some y ∨ (i = xs.length ∧ y = x) := by
  rcases Nat.lt_trichotomy i xs.length with hlt | rfl | hgt
  · rw [List.getElem?_append_left hlt] at h
    exact Or.inl h
  · rw [List.getElem?_concat_length] at h
    cases h
    exact Or.inr ⟨rfl, rfl⟩
  · rw [List.getElem?_eq_none (by rw [List.length_append]; exact hgt)] at h
    cases h

theorem Of.empty : Of [] {} := by
  constructor <;> simp

/-- A name that is declared already is found. -/
theorem Of.contains {ds : List Definition} {known : Declared} (h : Of ds known) {i : Nat}
    {d : Definition} {name : String} (hd : ds[i]? = some d) (hname : d.name = some name) :
    known.contains name = true := by
  have hn := (h.named i d name hd hname).2
  unfold Declared.contains
  split at hn
  · rw [hn]
    simp
  · rw [hn]
    simp

/-- What one more definition declares: its name, if it has one, which is new. -/
structure Adds (known : Declared) (d : Definition) (known' : Declared) : Prop where
  progress : known'.progress
    = known.progress.push (if d.name.isSome && d.isGeneric then .generic else .waiting)
  named : ∀ name, d.name = some name → Primitive.isName name = false ∧
    (∀ param ∈ d.params, Primitive.isName param = false) ∧ known.contains name = false
  position : ∀ name, known'.positionOf.lookup name =
    if d.name = some name ∧ d.isGeneric = false then some known.progress.size
    else known.positionOf.lookup name
  generic : ∀ name, known'.generics.lookup name =
    if d.name = some name ∧ d.isGeneric = true then some ⟨d.params, d.body, d.line⟩
    else known.generics.lookup name

/-- Names are declared without a problem if none is primitive and the first is new. -/
theorem problem?_eq_none {known : Declared} {name : String} {params : List String}
    (h : known.problem? name params = none) : Primitive.isName name = false ∧
      (∀ param ∈ params, Primitive.isName param = false) ∧ known.contains name = false := by
  unfold problem? at h
  split at h
  · cases h
  split at h
  · cases h
  rename_i hprim hknown
  have hparams : params.find? Primitive.isName = none := Option.map_eq_none_iff.mp h
  exact ⟨by simpa using hprim, by simpa using hparams, by simpa using hknown⟩

theorem adds_of_add {known known' : Declared} {d : Definition} (h : known.add d = .ok known') :
    Adds known d known' := by
  unfold add at h
  cases hname : d.name with
  | none =>
    rw [hname] at h
    cases h
    constructor <;> simp [hname]
  | some name =>
    rw [hname] at h
    cases hproblem : known.problem? name d.params with
    | some x =>
      simp only [hproblem] at h
      cases h
    | none =>
      simp only [hproblem] at h
      have hnamed (other : String) (hother : d.name = some other) :
          Primitive.isName other = false ∧ (∀ param ∈ d.params, Primitive.isName param = false) ∧
            known.contains other = false := by
        cases hname.symm.trans hother
        exact problem?_eq_none hproblem
      split at h
      · rename_i hg
        cases h
        refine ⟨by simp [hname, hg], hnamed, fun other => ?_, fun other => ?_⟩
        · simp [hg]
        · by_cases ho : other = name
          · simp [ho, hname, hg]
          · simp [List.lookup_cons, beq_false_of_ne ho, hname, Ne.symm ho]
      · rename_i hg
        cases h
        refine ⟨by simp [hg], hnamed, fun other => ?_, fun other => ?_⟩
        · by_cases ho : other = name
          · simp [ho, hname, hg]
          · simp [List.lookup_cons, beq_false_of_ne ho, hname, Ne.symm ho]
        · simp [hg]

theorem Of.add {ds : List Definition} {known known' : Declared} {d : Definition}
    (h : Of ds known) (hadd : known.add d = .ok known') : Of (ds ++ [d]) known' := by
  have hadds := adds_of_add hadd
  have hlast : (ds ++ [d])[ds.length]? = some d := List.getElem?_concat_length
  have hfront {i : Nat} {x : Definition} (hx : ds[i]? = some x) : (ds ++ [d])[i]? = some x := by
    rw [List.getElem?_append_left (List.getElem?_eq_some_iff.mp hx).1, hx]
  have hnew {i : Nat} {x : Definition} {name : String} (hx : ds[i]? = some x)
      (hxname : x.name = some name) : d.name ≠ some name := by
    intro hname
    obtain ⟨-, -, hnew⟩ := hadds.named name hname
    rw [h.contains hx hxname] at hnew
    cases hnew
  constructor
  case size => simp [hadds.progress, h.size]
  case progress =>
    intro i x hx
    rw [hadds.progress]
    rcases getElem?_concat hx with hx | ⟨rfl, rfl⟩
    · have hlt := (List.getElem?_eq_some_iff.mp hx).1
      rw [Array.getElem?_push, if_neg (by rw [h.size]; omega)]
      exact h.progress i x hx
    · rw [← h.size, Array.getElem?_push_size]
  case named =>
    intro i x name hx hxname
    have hposition := hadds.position name
    have hgeneric := hadds.generic name
    rcases getElem?_concat hx with hfirst | ⟨rfl, rfl⟩
    · have hother := hnew hfirst hxname
      rw [if_neg fun hd => hother hd.1] at hposition hgeneric
      rw [hposition, hgeneric]
      exact h.named i x name hfirst hxname
    · refine ⟨(hadds.named name hxname).1, ?_⟩
      rw [hposition, hgeneric, ← h.size]
      cases hg : x.isGeneric <;> simp [hxname]
  case distinct =>
    intro i j x y name hx hy hxname hyname
    rcases getElem?_concat hx with hx | ⟨hi, hxd⟩
    · rcases getElem?_concat hy with hy | ⟨-, hyd⟩
      · exact h.distinct i j x y name hx hy hxname hyname
      · exact absurd (hyd ▸ hyname) (hnew hx hxname)
    · rcases getElem?_concat hy with hy | ⟨hj, -⟩
      · exact absurd (hxd ▸ hxname) (hnew hy hyname)
      · rw [hi, hj]
  case params =>
    intro i x name hx hxname
    rcases getElem?_concat hx with hx | ⟨-, rfl⟩
    · exact h.params i x name hx hxname
    · exact (hadds.named name hxname).2.1
  case position =>
    intro name i hi
    rw [hadds.position] at hi
    split at hi
    · rename_i hd
      cases hi
      exact ⟨d, h.size ▸ hlast, hd⟩
    · obtain ⟨x, hx, hrest⟩ := h.position name i hi
      exact ⟨x, hfront hx, hrest⟩
  case generic =>
    intro name g hg
    rw [hadds.generic] at hg
    split at hg
    · rename_i hd
      exact ⟨ds.length, d, hlast, hd⟩
    · obtain ⟨i, x, hx, hrest⟩ := h.generic name g hg
      exact ⟨i, x, hfront hx, hrest⟩

theorem of_all {ds : List Definition} {known : Declared} (h : all ds = .ok known) :
    Of ds known := by
  have hfold : ∀ (rest front : List Definition) (start : Declared), Of front start →
      rest.foldlM Declared.add start = .ok known → Of (front ++ rest) known := by
    intro rest
    induction rest with
    | nil =>
      intro front start hstart h
      cases h
      rwa [List.append_nil]
    | cons d rest ih =>
      intro front start hstart h
      rw [List.foldlM_cons] at h
      obtain ⟨mid, hadd, hrest⟩ := except_bind_ok h
      have := ih (front ++ [d]) mid (hstart.add hadd) hrest
      rwa [List.append_assoc] at this
  exact hfold ds [] {} .empty h

end Declared

/-! ## Coming back -/

/-- What is underway in the one workspace was underway in the other. -/
structure Workspace.Returns (w w' : Workspace) : Prop where
  definitions : ∀ i u, w'.progressAt i = .underway u → ∃ u, w.progressAt i = .underway u
  instances : ∀ key u, w'.instances.lookup key = some u → ∃ u, w.instances.lookup key = some u

namespace Workspace.Returns

variable {w w' w'' : Workspace}

theorem of_eq (hp : w'.progress = w.progress) (hi : w'.instances = w.instances) :
    w.Returns w' where
  definitions i u hu := ⟨u, (progressAt_of_eq hp i).symm.trans hu⟩
  instances _ u hu := ⟨u, hi ▸ hu⟩

theorem refl (w : Workspace) : w.Returns w := of_eq rfl rfl

theorem trans (h : w.Returns w') (h' : w'.Returns w'') : w.Returns w'' where
  definitions i u hu := by
    obtain ⟨v, hv⟩ := h'.definitions i u hu
    exact h.definitions i v hv
  instances key u hu := by
    obtain ⟨v, hv⟩ := h'.instances key u hu
    exact h.instances key v hv

/-- A definition that went underway in between is done, or was underway before. -/
theorem setProgress {v : Workspace} {i : Nat} {q : Progress} (h : v.Returns w')
    (hv : ∀ j, j ≠ i → v.progressAt j = w.progressAt j) (hinst : v.instances = w.instances)
    (hq : ∀ u, q = .underway u → ∃ u, w.progressAt i = .underway u) :
    w.Returns (w'.setProgress i q) where
  definitions j u hu := by
    rcases of_progressAt_setProgress hu (by simp) with ⟨rfl, hqu⟩ | ⟨hij, hu⟩
    · exact hq u hqu
    · rw [← hv j hij]
      exact h.definitions j u hu
  instances key u hu := hinst ▸ h.instances key u hu

/-- An instance that went underway in between is underway no more. -/
theorem leaveInstance {key : InstanceKey} {n : Nat} (h : (w.enterInstance key n).Returns w') :
    w.Returns (w'.leaveInstance key) where
  definitions := h.definitions
  instances other u hu := by
    by_cases hkey : other = key
    · subst hkey
      cases (lookup_filter_self other w'.instances).symm.trans hu
    · obtain ⟨v, hv⟩ := h.instances other u ((lookup_filter_ne hkey).symm.trans hu)
      refine ⟨v, ?_⟩
      simpa only [Workspace.enterInstance, List.lookup_cons, beq_false_of_ne hkey] using hv

theorem setInstance {key : InstanceKey} {u : Underway} (h : w.Returns w')
    (hkey : ∃ v, w.instances.lookup key = some v) : w.Returns (w'.setInstance key u) where
  definitions := h.definitions
  instances other v hv := by
    by_cases hother : other = key
    · subst hother
      exact hkey
    · simp only [Workspace.setInstance, List.lookup_cons, beq_false_of_ne hother] at hv
      exact h.instances other v ((lookup_filter_ne hother).symm.trans hv)

end Workspace.Returns

/-- When a type has come to its place, only what was underway before is underway. -/
theorem Resolves.returns {p : Program} {room : Nat} {task : Task} {n : Nat} {w w' : Workspace}
    {ids : List TypeId} (h : Resolves p room task n w (.ok ids) w') : w.Returns w' := by
  induction h using Resolves.ok_induction with
  | nil | placed | bound | known | done | cached => exact .refl _
  | next _ _ ih ih' => exact ih.trans ih'
  | built _ _ _ ih => exact ih.trans (.of_eq rfl rfl)
  | index _ _ ih | declared _ _ _ ih => exact ih
  | primitive => exact .of_eq rfl rfl
  | applied _ _ _ ih ih' => exact ih.trans ih'
  | again hi hmeet =>
    obtain ⟨hp, hinst⟩ := progress_meetAgain hmeet
    exact .setProgress (.of_eq hp hinst) (fun _ _ => rfl) rfl fun _ _ => ⟨_, hi⟩
  | defined hi _ hu hsettle ih =>
    obtain ⟨hp, hinst⟩ := progress_settle hsettle
    refine .trans (.setProgress (ih.trans (.of_eq hp hinst)) ?_ rfl ?_) (.of_eq rfl rfl)
    · intro j hij
      exact Workspace.progressAt_setProgress_ne hij
    · rintro _ ⟨⟩
  | againInstance _ hkey hmeet =>
    obtain ⟨hp, hinst⟩ := progress_meetAgain hmeet
    exact .setInstance (.of_eq hp hinst) ⟨_, hkey⟩
  | instantiated _ _ _ hu hsettle ih =>
    obtain ⟨hp, hinst⟩ := progress_settle hsettle
    refine .trans (.leaveInstance ih) (.of_eq ?_ ?_)
    · exact hp
    · exact hinst

/-! ## Resolving in order -/

/-- The program of some definitions whose names are declared. -/
def Declared.program (known : Declared) (ds : List Definition) : Program :=
  ⟨ds.toArray, known.positionOf⟩

/-- The workspace in which nothing is resolved yet. -/
def Declared.start (known : Declared) (ds : List Definition) : Workspace :=
  { table := {
      positions := Array.replicate ds.length none
      positionNames := (ds.map (·.name)).toArray
      generics := known.generics }
    progress := known.progress }

/-- A table of definitions comes from a workspace in which all of them were resolved. -/
theorem ofDefinitions_ok {ds : List Definition} {t : Table} (h : Table.ofDefinitions ds = .ok t) :
    ∃ known w, Declared.all ds = .ok known ∧ known.checkBodies ds = .ok () ∧
      outcome (known.program ds).resolveAll (known.start ds) = (.ok (), w) ∧
      fillAll w.table w.aliases = .ok t ∧ t.check 0 = .ok () := by
  unfold Table.ofDefinitions at h
  obtain ⟨known, hall, h⟩ := except_bind_ok h
  obtain ⟨u, hbodies, h⟩ := except_bind_ok h
  change (match outcome (known.program ds).resolveAll (known.start ds) with
    | (result, w) => (do
      result
      let t ← fillAll w.table w.aliases
      t.check 0
      return t : Except ResolveError Table)) = .ok t at h
  rcases hrun : outcome (known.program ds).resolveAll (known.start ds) with ⟨x | u, w⟩
  · rw [hrun] at h
    cases h
  · rw [hrun] at h
    obtain ⟨_, _, h⟩ := except_bind_ok h
    obtain ⟨t', hfill, h⟩ := except_bind_ok h
    obtain ⟨u, hcheck, h⟩ := except_bind_ok h
    cases h
    exact ⟨known, w, hall, hbodies, hrun, hfill, hcheck⟩

/-- Nothing is being resolved. -/
def Workspace.Idle (w : Workspace) : Prop := w.AllUnderway fun _ => False

theorem Workspace.Idle.start (t : Table) : Idle { table := t } where
  definitions i u hu := by simp [Workspace.progressAt] at hu
  instances key u hu := by cases hu

theorem Workspace.Idle.of_returns {w w' : Workspace} (h : w.Idle) (hr : w.Returns w') :
    w'.Idle where
  definitions i u hu := by
    obtain ⟨v, hv⟩ := hr.definitions i u hu
    exact h.definitions i v hv
  instances key u hu := by
    obtain ⟨v, hv⟩ := hr.instances key u hu
    exact h.instances key v hv

/-- A definition that was resolved while nothing else was is done. -/
theorem done_of_resolves {p : Program} {room i n : Nat} {w w' : Workspace} {ids : List TypeId}
    (h : Resolves p room (.definition i) n w (.ok ids) w') (hw : w.Idle) :
    ∃ id, w'.progressAt i = .done id := by
  cases h with
  | done hi => exact ⟨_, hi⟩
  | again hi => exact (hw.definitions _ _ hi).elim
  | defined hi hbody hu hsettle =>
    have hlt := Workspace.lt_of_progressAt (show _ ≠ Progress.generic by rw [hu]; simp)
    obtain ⟨hp, -⟩ := progress_settle hsettle
    refine ⟨_, (Workspace.progressAt_of_eq rfl i).trans
      (Workspace.progressAt_setProgress_self ?_)⟩
    rwa [hp]

theorem Resolves.of_index {p : Program} {room i n : Nat} {s : Bindings} {w w' : Workspace}
    {r : Except ResolveError (List TypeId)} (h : Resolves p room (.type (.index i) s) n w r w')
    (hi : i < p.definitions.size) : Resolves p room (.definition i) n w r w' := by
  cases h with
  | index _ hdef => exact hdef
  | placed hge => omega
  | unbuilt hparts => cases hparts
  | unsound _ hshape => cases hshape
  | built _ hshape => cases hshape

/-- The step of one definition among all. -/
def Program.resolveNext (p : Program) (i : Nat) : Resolving Unit := do
  match (← get).progress.getD i .generic with
  | .generic => pure ()
  | _ => discard <| p.resolve (.index i) [] 0

theorem outcome_resolveNext_generic {p : Program} {i : Nat} {w : Workspace}
    (hi : w.progressAt i = .generic) : outcome (p.resolveNext i) w = (.ok (), w) := by
  unfold Program.resolveNext
  rw [outcome_get]
  simp only [show w.progress.getD i .generic = .generic from hi]
  rfl

theorem outcome_resolveNext {p : Program} {i : Nat} {w : Workspace}
    (hi : w.progressAt i ≠ .generic) :
    outcome (p.resolveNext i) w
      = outcome (discard <| p.resolve (.index i) [] 0) w := by
  unfold Program.resolveNext
  rw [outcome_get]
  cases hp : w.progress.getD i .generic with
  | generic => exact absurd hp hi
  | _ => rfl

/-- A definition in its turn is generic and left alone, or it is resolved and done. -/
theorem resolveNext_ok {p : Program} {i : Nat} {w w' : Workspace} (hi : i < p.definitions.size)
    (hw : w.waiting ≤ p.definitions.size) (hidle : w.Idle)
    (h : outcome (p.resolveNext i) w = (.ok (), w')) :
    (w.progressAt i = .generic ∧ w' = w) ∨
      ∃ ids id, Resolves p maxInstances (.definition i) 0 w (.ok ids) w' ∧
        w'.progressAt i = .done id := by
  by_cases hgeneric : w.progressAt i = .generic
  · rw [outcome_resolveNext_generic hgeneric] at h
    cases h
    exact Or.inl ⟨hgeneric, rfl⟩
  · right
    have hrun := resolves_resolve p (.index i) [] 0 hw
    rw [outcome_resolveNext hgeneric] at h
    rcases ho : outcome (p.resolve (.index i) [] 0) w with ⟨x | id, w₁⟩
    · cases (outcome_bind_error ho _).symm.trans h
    · cases (outcome_bind_ok ho _).symm.trans h
      rw [ho] at hrun
      have hdef := hrun.of_index hi
      obtain ⟨id', hid'⟩ := done_of_resolves hdef hidle
      exact ⟨_, id', hdef, hid'⟩

/-- Whatever each definition in turn keeps, all of them keep, and then each is done that is not
generic. -/
theorem resolveAll_keeps {p : Program} {P : Workspace → Prop}
    (hstep : ∀ i w ids w', P w → w.Idle →
      Resolves p maxInstances (.definition i) 0 w (.ok ids) w' → P w')
    {w w' : Workspace} (hw : w.waiting ≤ p.definitions.size) (hidle : w.Idle) (hP : P w)
    (h : outcome p.resolveAll w = (.ok (), w')) :
    P w' ∧ w'.Idle ∧ ∀ i < p.definitions.size, w.progressAt i ≠ .generic →
      ∃ id, w'.progressAt i = .done id := by
  have hall : ∀ (positions : List Nat) (w : Workspace), (∀ i ∈ positions, i < p.definitions.size) →
      w.waiting ≤ p.definitions.size → w.Idle → P w →
      outcome (positions.forM p.resolveNext) w = (.ok (), w') →
      P w' ∧ w'.Idle ∧ w.Continues w' ∧
        ∀ i ∈ positions, w.progressAt i ≠ .generic → ∃ id, w'.progressAt i = .done id := by
    intro positions
    induction positions with
    | nil =>
      rintro w - hw hidle hP h
      cases h
      exact ⟨hP, hidle, .refl _, by rintro i ⟨⟩⟩
    | cons i positions ih =>
      intro w hin hw hidle hP h
      obtain ⟨hi, hin⟩ := List.forall_mem_cons.mp hin
      change outcome (p.resolveNext i >>= fun _ => positions.forM p.resolveNext) w = _ at h
      rcases hnext : outcome (p.resolveNext i) w with ⟨x | u, w₁⟩
      · cases (outcome_bind_error hnext _).symm.trans h
      · rw [outcome_bind_ok hnext] at h
        rcases resolveNext_ok hi hw hidle hnext with ⟨hgeneric, rfl⟩ | ⟨ids, id, hdef, hid⟩
        · obtain ⟨hP', hidle', hc, hdone⟩ := ih _ hin hw hidle hP h
          refine ⟨hP', hidle', hc, ?_⟩
          intro j hj hown
          rcases List.mem_cons.mp hj with rfl | hj
          · exact absurd hgeneric hown
          · exact hdone j hj hown
        · have hc₁ := hdef.continues
          obtain ⟨hP', hidle', hc, hdone⟩ := ih _ hin (Nat.le_trans hc₁.waiting hw)
            (hidle.of_returns hdef.returns) (hstep i w ids w₁ hP hidle hdef) h
          refine ⟨hP', hidle', hc₁.trans hc, ?_⟩
          intro j hj hown
          rcases List.mem_cons.mp hj with rfl | hj
          · exact ⟨id, hc.done _ _ hid⟩
          · exact hdone j hj (hc₁.own j hown)
  obtain ⟨hP', hidle', -, hdone⟩ := hall (List.range p.definitions.size) w
    (fun i hi => List.mem_range.mp hi) hw hidle hP h
  exact ⟨hP', hidle', fun i hi => hdone i (List.mem_range.mpr hi)⟩

/-! ## The table of definitions -/

theorem waiting_start {ds : List Definition} {known : Declared} (h : Declared.Of ds known) :
    (known.start ds).waiting ≤ (known.program ds).definitions.size := by
  have hsize := h.size
  have hcount : known.progress.count .waiting ≤ known.progress.size := Array.count_le_size
  simp only [Workspace.waiting, Declared.start, Declared.program, List.size_toArray]
  omega

theorem progressAt_start {ds : List Definition} {known : Declared} (h : Declared.Of ds known)
    {i : Nat} {d : Definition} (hd : ds[i]? = some d) :
    (known.start ds).progressAt i
      = if d.name.isSome && d.isGeneric then .generic else .waiting := by
  unfold Workspace.progressAt
  rw [Array.getD_eq_getD_getElem?, show (known.start ds).progress = known.progress from rfl,
    h.progress i d hd, Option.getD_some]

theorem start_not_generic {ds : List Definition} {known : Declared} (h : Declared.Of ds known)
    {i : Nat} {d : Definition} (hd : ds[i]? = some d) (hg : d.isGeneric = false) :
    (known.start ds).progressAt i ≠ .generic := by
  rw [progressAt_start h hd, hg, Bool.and_false, if_neg (by simp)]
  exact Progress.noConfusion

/-- At first every definition waits or is generic. -/
theorem progressAt_start_cases {ds : List Definition} {known : Declared}
    (h : Declared.Of ds known) (i : Nat) :
    (known.start ds).progressAt i = .waiting ∨ (known.start ds).progressAt i = .generic := by
  cases hd : ds[i]? with
  | some d =>
    rw [progressAt_start h hd]
    split
    · exact Or.inr rfl
    · exact Or.inl rfl
  | none =>
    right
    have hlen : known.progress.size ≤ i := h.size ▸ List.getElem?_eq_none_iff.mp hd
    simp [Workspace.progressAt, Declared.start, Array.getElem?_eq_none hlen]

theorem idle_start {ds : List Definition} {known : Declared} (h : Declared.Of ds known) :
    (known.start ds).Idle where
  definitions i u hi := by
    rcases progressAt_start_cases h i with hw | hg
    · cases hw.symm.trans hi
    · cases hg.symm.trans hi
  instances key u hu := by cases hu

theorem closed_start {ds : List Definition} {known : Declared} (h : Declared.Of ds known) :
    (known.start ds).Closed where
  table := by
    constructor
    case positions =>
      intro i id hi
      simp [Declared.start, Array.getElem?_replicate] at hi
    all_goals simp [Declared.start]
  done i id hi := by
    rcases progressAt_start_cases h i with hw | hg
    · cases hw.symm.trans hi
    · cases hg.symm.trans hi
  underway := (idle_start h).imp fun _ hu => hu.elim
  aliases a ha := by cases ha

/-- A table of definitions speaks of its own places only. -/
theorem closed_ofDefinitions {ds : List Definition} {t : Table}
    (h : Table.ofDefinitions ds = .ok t) : t.Closed := by
  obtain ⟨known, w, hall, -, hrun, hfill, -⟩ := ofDefinitions_ok h
  have hof := Declared.of_all hall
  obtain ⟨hclosed, -, -⟩ := resolveAll_keeps
    (fun _ _ _ _ hw _ hdef => (hdef.closed hw trivial).closed)
    (waiting_start hof) (idle_start hof) (closed_start hof) hrun
  exact closed_fillAll hfill hclosed.table fun a ha => (hclosed.aliases a ha).1

theorem sound_ofDefinitions {ds : List Definition} {t : Table}
    (h : Table.ofDefinitions ds = .ok t) : t.Sound := by
  obtain ⟨known, w, -, -, -, -, hcheck⟩ := ofDefinitions_ok h
  exact Table.sound_of_check hcheck fun id s hid => absurd hid (Nat.not_lt_zero id)

end Typewire
