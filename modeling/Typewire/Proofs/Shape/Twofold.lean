-- Where equal shapes stand. Each shape is looked up at one place. Any other place that holds it was
-- reserved before its shape was known, and so it is that of a type that leads back to itself. Every
-- step of resolution keeps to this, as it adds a place for one of these two reasons.
import Typewire.Proofs.Shape.Recall
import Typewire.Proofs.Shape.Recursive

namespace Typewire

open Typewire.Language Resolving

variable {ds : List Definition} {known : Declared} {p : Program} {old : TypeId → Prop}
  {w w' : Workspace} {t t' : Table} {id : TypeId}

/-! ## Places -/

/-- The place is that of a definition that leads back to itself, or of a generic instance of one. -/
def Table.ComesBack (ds : List Definition) (t : Table) (id : TypeId) : Prop :=
  ∃ i, LeadsBack ds i ∧ (t.positions[i]? = some (some id) ∨
    ∃ key d, Declares ds i d key.name ∧ t.instances.lookup key = some id)

/-- A shape is looked up at the place, or the place is that of a type that leads back to itself. -/
def Table.Accounts (ds : List Definition) (t : Table) (id : TypeId) : Prop :=
  (∃ s, t.interned.lookup s = some id) ∨ t.ComesBack ds id

theorem Table.Accounts.keep (h : t.Accounts ds id) (hfinds : t.Finds t')
    (hpositions : t'.positions = t.positions) : t'.Accounts ds id := by
  rcases h with ⟨s, hs⟩ | ⟨i, hback, hi | ⟨key, d, hd, hkey⟩⟩
  · exact Or.inl ⟨s, hfinds.shapes s id hs⟩
  · exact Or.inr ⟨i, hback, Or.inl (hpositions ▸ hi)⟩
  · exact Or.inr ⟨i, hback, Or.inr ⟨key, d, hd, hfinds.instances key id hkey⟩⟩

/-- A place that is new where a shape is taken up is the one where it is looked up from then on. -/
theorem Table.lookup_intern_new {s : Shape} (hge : t.size ≤ id) (hid : id < (t.intern s).2.size) :
    (t.intern s).2.interned.lookup s = some id := by
  have hself := lookup_intern_self t s
  rcases intern_cases t s with ⟨_, -, ht⟩ | ⟨-, ht⟩
  · rw [ht] at hid
    exact absurd hid (Nat.not_lt_of_le hge)
  · rw [ht] at hid hself ⊢
    have hlast : id = t.size :=
      Nat.le_antisymm (Nat.le_of_lt_succ (by simpa [size] using hid)) hge
    rw [hself, hlast]

namespace Workspace

/-- The place is known to be that of a definition that leads back to itself, or of a generic
instance of one. -/
def ComesBack (ds : List Definition) (w : Workspace) (id : TypeId) : Prop :=
  ∃ i, LeadsBack ds i ∧ (w.placeOf i = some id ∨
    ∃ key d, Declares ds i d key.name ∧ w.instancePlace key = some id)

/-- The place is an old one, or a shape is looked up there, or it is that of a type that leads back
to itself. -/
def Accounts (ds : List Definition) (old : TypeId → Prop) (w : Workspace) (id : TypeId) : Prop :=
  old id ∨ (∃ s, w.table.interned.lookup s = some id) ∨ w.ComesBack ds id

theorem Accounts.keep (h : w.Accounts ds old id) (hw : w.Refines w')
    (hfinds : w.table.Finds w'.table) : w'.Accounts ds old id := by
  rcases h with hold | ⟨s, hs⟩ | ⟨i, hback, hi | ⟨key, d, hd, hkey⟩⟩
  · exact Or.inl hold
  · exact Or.inr (Or.inl ⟨s, hfinds.shapes s id hs⟩)
  · exact Or.inr (Or.inr ⟨i, hback, Or.inl (hw.definitions i id hi)⟩)
  · exact Or.inr (Or.inr ⟨i, hback, Or.inr ⟨key, d, hd, hw.instances key id hkey⟩⟩)

/-- The definitions that wait have no parameters, and all places are accounted for. -/
structure Tracked (ds : List Definition) (known : Declared) (p : Program) (old : TypeId → Prop)
    (w : Workspace) : Prop where
  orderly : w.Orderly
  generics : w.table.generics = known.generics
  waiting : ∀ i, w.progressAt i = .waiting →
    ds[i]? = some (p.definitionAt i) ∧ (p.definitionAt i).params = []
  places : ∀ id < w.table.size, w.Accounts ds old id

namespace Tracked

/-- Places stay accounted for, so only the new ones have to be. -/
theorem goOn (h : w.Tracked ds known p old) (hw : w.Refines w') (horderly : w'.Orderly)
    (hfinds : w.table.Finds w'.table)
    (hwaiting : ∀ i, w'.progressAt i = .waiting → w.progressAt i = .waiting)
    (hnew : ∀ id, w.table.size ≤ id → id < w'.table.size → w'.Accounts ds old id) :
    w'.Tracked ds known p old where
  orderly := horderly
  generics := hw.generics.trans h.generics
  waiting i hi := h.waiting i (hwaiting i hi)
  places id hid := by
    rcases Nat.lt_or_ge id w.table.size with hlt | hge
    · exact (h.places id hlt).keep hw hfinds
    · exact hnew id hge hid

theorem waiting_setProgress {i j : Nat} {q : Progress} (hq : q ≠ .waiting)
    (hj : (w.setProgress i q).progressAt j = .waiting) : w.progressAt j = .waiting := by
  rcases of_progressAt_setProgress hj (by simp) with ⟨-, hqj⟩ | ⟨-, hj⟩
  · exact absurd hqj hq
  · exact hj

theorem intern (h : w.Tracked ds known p old) (s : Shape) : (w.intern s).Tracked ds known p old :=
  h.goOn (refines_intern w s) (h.orderly.intern s) (.intern w.table s) (fun _ hi => hi)
    fun _ hge hid => Or.inr (Or.inl ⟨s, Table.lookup_intern_new hge hid⟩)

/-- The only place that is new when a type is met again is the one that is reserved for it. -/
theorem eq_of_meetAgain {u u' : Underway} {n : Nat} {label : String}
    {reservedLabel : Option String} {slot : TypeId}
    (h : outcome (meetAgain u n label reservedLabel) w = (.ok (slot, u'), w'))
    (hge : w.table.size ≤ id) (hid : id < w'.table.size) : id = slot := by
  rcases meetAgain_cases u n label reservedLabel w with ⟨-, ho⟩ | ⟨-, _, -, ho⟩ | ⟨-, -, ho⟩
  · cases ho.symm.trans h
  · cases ho.symm.trans h
    exact absurd hid (Nat.not_lt_of_le hge)
  · cases ho.symm.trans h
    rw [size_reserve] at hid
    exact Nat.le_antisymm (Nat.le_of_lt_succ hid) hge

section Meeting

variable {i n : Nat} {key : InstanceKey} {u u' : Underway} {slot : TypeId} {label : String}
  {reservedLabel : Option String}

/-- A definition underway is met again. -/
theorem meetDefinition (h : w.Tracked ds known p old) (hi : w.progressAt i = .underway u)
    (hmeet : outcome (meetAgain u n label reservedLabel) w = (.ok (slot, u'), w'))
    (hback : LeadsBack ds i) : (w'.setProgress i (.underway u')).Tracked ds known p old := by
  obtain ⟨hp, -⟩ := progress_meetAgain hmeet
  have hlt := lt_of_progressAt (show w.progressAt i ≠ .generic by rw [hi]; simp)
  refine h.goOn (refines_meetDefinition hi hmeet) (h.orderly.meetDefinition hi hmeet)
    ((Table.Finds.meetAgain hmeet).trans (.of_eq rfl rfl)) ?_ ?_
  · intro j hj
    exact (progressAt_of_eq hp j).symm.trans (waiting_setProgress (by simp) hj)
  · intro id hge hid
    refine Or.inr (Or.inr ⟨i, hback, Or.inl ?_⟩)
    rw [eq_of_meetAgain hmeet hge hid,
      placeOf_eq (progressAt_setProgress_self (by rwa [hp]))]
    exact (underway_meetAgain hmeet).2

/-- A generic instance underway is met again. -/
theorem meetInstance (h : w.Tracked ds known p old)
    (hdone : w.table.instances.lookup key = none) (hkey : w.instances.lookup key = some u)
    (hmeet : outcome (meetAgain u n label reservedLabel) w = (.ok (slot, u'), w'))
    {d : Definition} (hd : Declares ds i d key.name) (hback : LeadsBack ds i) :
    (w'.setInstance key u').Tracked ds known p old := by
  obtain ⟨hp, -⟩ := progress_meetAgain hmeet
  refine h.goOn (refines_meetInstance hkey hmeet) (h.orderly.meetInstance hkey hmeet)
    ((Table.Finds.meetAgain hmeet).trans (.of_eq rfl rfl)) ?_ ?_
  · intro j hj
    exact (progressAt_of_eq hp j).symm.trans hj
  · intro id hge hid
    refine Or.inr (Or.inr ⟨i, hback, Or.inr ⟨key, d, hd, ?_⟩⟩)
    rw [eq_of_meetAgain hmeet hge hid]
    exact instancePlace_meetInstance hdone hmeet

end Meeting

theorem enterDefinition (h : w.Tracked ds known p old) {i : Nat} (hi : w.progressAt i = .waiting)
    (n : Nat) : (w.setProgress i (.underway ⟨n, none⟩)).Tracked ds known p old :=
  h.goOn (refines_enterDefinition hi _) (h.orderly.enterDefinition hi n) (.refl _)
    (fun _ hj => waiting_setProgress (by simp) hj)
    fun _ hge hid => absurd hid (Nat.not_lt_of_le hge)

theorem enterInstance (h : w.Tracked ds known p old) {key : InstanceKey}
    (hdone : w.table.instances.lookup key = none) (hkey : w.instances.lookup key = none) (n : Nat) :
    (w.enterInstance key n).Tracked ds known p old :=
  h.goOn (.enterInstance hkey) (h.orderly.enterInstance hdone hkey n) (.refl _) (fun _ hi => hi)
    fun _ hge hid => absurd hid (Nat.not_lt_of_le hge)

section Finishing

variable {i : Nat} {key : InstanceKey} {u : Underway} {id' : TypeId} {label label' : String}

theorem finishDefinition (h : w.Tracked ds known p old) (hu : w.progressAt i = .underway u)
    (hsettle : outcome (settle u id label) w = (.ok id', w')) (name? : Option String) :
    (w'.finishDefinition i name? id').Tracked ds known p old := by
  obtain ⟨hp, -⟩ := progress_settle hsettle
  obtain ⟨-, hinstances, -, hinterned⟩ := notes_finishDefinition w' i name? id'
  refine h.goOn (refines_finishDefinition h.orderly hu hsettle name?)
    (h.orderly.finishDefinition hu hsettle name?)
    ((Table.Finds.settle hsettle).trans (.of_eq hinterned hinstances)) ?_ ?_
  · intro j hj
    rcases of_progressAt_finishDefinition hj (by simp) with ⟨-, hdone⟩ | ⟨-, hj⟩
    · cases hdone
    · exact (progressAt_of_eq hp j).symm.trans hj
  · intro id hge hid
    rw [Table.size, slots_finishDefinition, ← Table.size, size_settle hsettle] at hid
    exact absurd hid (Nat.not_lt_of_le hge)

theorem finishInstance (h : w.Tracked ds known p old) (hu : w.instances.lookup key = some u)
    (hsettle : outcome (settle u id label) (w.leaveInstance key) = (.ok id', w')) :
    (w'.finishInstance key label' id').Tracked ds known p old := by
  obtain ⟨hp, -⟩ := progress_settle hsettle
  have hfresh : w'.table.instances.lookup key = none :=
    (congrArg _ (Table.SameNotes.settle hsettle).instances).trans (h.orderly.fresh key u hu)
  have hfinds : (w.leaveInstance key).table.Finds w'.table := .settle hsettle
  refine h.goOn (refines_finishInstance h.orderly hu hsettle)
    (h.orderly.finishInstance hu hsettle) (hfinds.trans (.finishInstance label' id' hfresh)) ?_ ?_
  · intro j hj
    exact (progressAt_of_eq hp j).symm.trans hj
  · intro id hge hid
    rw [Table.size, slots_finishInstance, ← Table.size, size_settle hsettle] at hid
    exact absurd hid (Nat.not_lt_of_le hge)

end Finishing

end Tracked

end Workspace

/-! ## Resolution -/

theorem lookup_none_of_genericOf {s : Bindings} {name : String} {given : Nat} {g : Generic}
    (h : p.genericOf t s name given = .ok g) : s.lookup name = none := by
  unfold Program.genericOf at h
  split at h
  · cases h
  · rename_i hconcrete
    simp only [Program.isConcrete, Bool.or_eq_true, not_or, Bool.not_eq_true,
      Option.isSome_eq_false_iff, Option.isNone_iff_eq_none] at hconcrete
    exact hconcrete.1.1.1

/-- Whatever is resolved, all places stay accounted for. What is underway leads to what is
mentioned, so a place is reserved only for a type that leads back to itself. -/
theorem Resolves.tracked (hof : Declared.Of ds known)
    (hp : ∀ name i, p.positionOf.lookup name = some i → known.positionOf.lookup name = some i)
    {room n : Nat} {task : Task} {ids : List TypeId} (h : Resolves p room task n w (.ok ids) w')
    (hw : w.Tracked ds known p old) (hproper : task.Proper known.generics)
    (hleads : w.LeadsUpTo ds task) : w'.Tracked ds known p old := by
  induction h using Resolves.ok_induction with
  | nil | placed | bound | known | done | cached => exact hw
  | next hhead _ ih ih' =>
    have hw' := ih hw trivial (hleads.of_mentions fun _ => .head)
    exact ih' hw' trivial ((hleads.of_mentions fun _ => .tail).of_returns hhead.returns)
  | built _ _ _ ih => exact (ih hw trivial (hleads.of_mentions fun _ => .parts)).intern _
  | index _ _ ih => exact ih hw trivial (hleads.of_mentions fun _ => .index)
  | declared hs hi _ ih =>
    obtain ⟨d, hd, hname, -⟩ := hof.position _ _ (hp _ _ hi)
    exact ih hw trivial (hleads.of_mentions fun _ => .declared hs ⟨hd, hname⟩)
  | primitive => exact hw.intern _
  | applied hg hparts _ ih ih' =>
    have hs := lookup_none_of_genericOf hg
    obtain ⟨hg, hlength⟩ := genericOf_ok hg
    have hw' := ih hw trivial (hleads.of_mentions fun _ => .args)
    refine ih' hw' ⟨hw.generics ▸ hg, ?_⟩
      ((hleads.of_mentions fun _ => .applied hs).of_returns hparts.returns)
    simpa [hlength] using (length_of_resolves hparts).symm
  | again hi hmeet => exact hw.meetDefinition hi hmeet (hleads _ (Or.inl ⟨_, hi⟩) _ rfl)
  | defined hi _ hu hsettle ih =>
    obtain ⟨hd, hparams⟩ := hw.waiting _ hi
    exact (ih (hw.enterDefinition hi _) trivial
      (hleads.enterDefinition hd hparams _)).finishDefinition hu hsettle _
  | againInstance hdone hkey hmeet =>
    obtain ⟨i, d, hd, -⟩ := hof.generic_eq hproper.1
    exact hw.meetInstance hdone hkey hmeet hd
      (hleads i (Or.inr ⟨_, _, d, hkey, hd⟩) i ⟨d, hd⟩)
  | instantiated hdone hkey _ hu hsettle ih =>
    obtain ⟨i, d, hd, -, rfl⟩ := hof.generic_eq hproper.1
    have honly (j : Nat) (x : Definition) (hx : Declares ds j x _) : j = i :=
      hof.distinct j i x d _ hx.1 hd.1 hx.2 hd.2
    have hbody := ih (hw.enterInstance hdone hkey _) trivial
      (hleads.enterInstance hd honly rfl rfl hproper.2 _)
    exact hbody.finishInstance hu hsettle

/-! ## Tables -/

/-- When the reserved places are filled, all places of the table are accounted for. -/
theorem Workspace.Tracked.fillAll (h : w.Tracked ds known p old) (hidle : w.Idle)
    (hplaces : ∀ i id, w.placeOf i = some id → t.positions[i]? = some (some id))
    (hfill : fillAll w.table w.aliases = .ok t) : ∀ id < t.size, old id ∨ t.Accounts ds id := by
  intro id hid
  rw [size_fillAll hfill] at hid
  have hfinds := Table.Finds.fillAll hfill
  rcases h.places id hid with hold | ⟨s, hs⟩ | ⟨i, hback, hi | ⟨key, d, hd, hkey⟩⟩
  · exact Or.inl hold
  · exact Or.inr (Or.inl ⟨s, hfinds.shapes s id hs⟩)
  · exact Or.inr (Or.inr ⟨i, hback, Or.inl (hplaces i id hi)⟩)
  · exact Or.inr (Or.inr ⟨i, hback, Or.inr
      ⟨key, d, hd, hfinds.instances key id (hidle.instancePlace hkey)⟩⟩)

namespace Table

/-- A definition that waits at first is not generic, or it has no name. -/
theorem tracked_start (hof : Declared.Of ds known)
    (hplain : ∀ d ∈ ds, d.name = none → d.params = []) :
    (known.start ds).Tracked ds known (known.program ds) fun _ => False where
  orderly := orderly_start hof
  generics := rfl
  waiting i hi := by
    have hlt := Workspace.lt_of_progressAt (show _ ≠ Progress.generic by rw [hi]; simp)
    obtain ⟨d, hd⟩ : ∃ d, ds[i]? = some d := ⟨_, List.getElem?_eq_getElem (hof.size ▸ hlt)⟩
    rw [definitionAt_program hd]
    refine ⟨hd, ?_⟩
    rw [progressAt_start hof hd] at hi
    cases hname : d.name with
    | none => exact hplain d (List.mem_of_getElem? hd) hname
    | some name => simpa [hname, Definition.isGeneric] using hi
  places id hid := absurd hid (Nat.not_lt_zero id)

theorem accounts_ofDefinitions (hplain : ∀ d ∈ ds, d.name = none → d.params = [])
    (h : Table.ofDefinitions ds = .ok t) :
    ∃ known, Declared.Of ds known ∧ t.generics = known.generics ∧
      ∀ id < t.size, t.Accounts ds id := by
  obtain ⟨known, w, hall, -, hrun, hfill, -⟩ := ofDefinitions_ok h
  have hof := Declared.of_all hall
  obtain ⟨⟨hfaithful, htracked⟩, hidle, -⟩ := resolveAll_keeps
    (P := fun w => w.Faithful (known.program ds) ∧
      w.Tracked ds known (known.program ds) fun _ => False)
    (fun _ _ _ _ hw hidle hdef => ⟨(hdef.faithful hw.1).1,
      hdef.tracked hof (fun _ _ hi => hi) hw.2 trivial hidle.leadsUpTo⟩)
    (waiting_start hof) (idle_start hof) ⟨faithful_start hof, tracked_start hof hplain⟩ hrun
  have hkept := hfaithful.keptBy_fillAll hidle hfill
  exact ⟨known, hof, hkept.generics.trans htracked.generics, fun id hid =>
    (htracked.fillAll hidle hkept.definitions hfill id hid).resolve_left not_false⟩

/-- Places stay accounted for where a type is taken up, and where it is not. -/
theorem accounts_extend (hof : Declared.Of ds known) (ht : t.ClosedWorld)
    (hgenerics : t.generics = known.generics) (h : ∀ id < t.size, t.Accounts ds id)
    (e : TypeExpr) : ∀ id < (t.extend e).2.size, (t.extend e).2.Accounts ds id := by
  have hfinds := ht.finds_extend e
  have hpositions := (extends_extend ht.closed e).positions
  intro id hid
  rcases extend_cases t e with ⟨other, t', hrun, hfill, -, hext⟩ | ⟨x, hext⟩
  · have hsince := since_resolving ht.closed e
    have hresolves := resolves_resolving t e
    rw [hrun] at hresolves
    have hstart : Workspace.Tracked ds known {} (· < t.size) { table := t } :=
      ⟨ht.orderly, hgenerics, fun i hi => by simp [Workspace.progressAt] at hi,
        fun id hid => Or.inl hid⟩
    have htracked := hresolves.tracked hof (fun _ _ hi => by cases hi) hstart trivial
      (Workspace.Idle.start t).leadsUpTo
    have hidle := (Workspace.Idle.start t).of_returns hresolves.returns
    rw [hext] at hid hfinds hpositions ⊢
    have hplaces (i : Nat) (place : TypeId) (hi : (t.resolving e).2.placeOf i = some place) :
        t'.positions[i]? = some (some place) := by
      rw [Workspace.placeOf_eq (hsince.progressAt i)] at hi
      cases hi
    rcases htracked.fillAll hidle hplaces hfill id hid with hold | hnew
    · exact (h id hold).keep hfinds hpositions
    · exact hnew
  · obtain ⟨notes, -, hleft, -⟩ := extend_error ht.closed hext
    rw [hext] at hid hfinds hpositions ⊢
    refine (h id ?_).keep hfinds hpositions
    rwa [hleft, size_noteAll] at hid

end Table

end Typewire
