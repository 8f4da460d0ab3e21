-- Finished tables of definitions. All definitions are done in them, so what is resolved there later
-- keeps to the rules under which the definitions were resolved themselves: a name that the table
-- knows is the name of a definition that is done. So what was proved of those rules holds here too.
import Typewire.Proofs.Shape.Alike
import Typewire.Proofs.Shape.Headless

namespace Typewire

open Typewire.Language Resolving

variable {p : Program} {t t' : Table} {progress : Array Progress} {w w' : Workspace}

/-! ## All places filled -/

namespace Workspace

/-- When all reserved places are filled, what was promised before is kept wherever the table is
kept. -/
theorem Faithful.keptBy_filled (h : w.Faithful p) (hidle : w.Idle)
    (hfill : fillAll w.table w.aliases = .ok t) (ht : t.ClosedWorld)
    (hkept : KeptBy { table := t, progress := w.progress } t') : w.KeptBy t' := by
  have hw := h.keptBy_fillAll hidle hfill
  have hdone (key : InstanceKey) (id : TypeId) (hid : w.instancePlace key = some id) :
      instancePlace { table := t, progress := w.progress } key = some id :=
    instancePlace_of_done (hw.instances key id hid)
  constructor
  case shapes => exact fun id s hs => hkept.shapes id s (hw.shapes id s hs)
  case aliases =>
    intro a ha
    have hlt : a.1 < t.size := by
      rw [size_fillAll hfill]
      exact (h.orderly.pending.unfilled a ha).1
    obtain ⟨s, hs⟩ := ht.filled hlt
    rw [hkept.shapes _ s hs, hkept.shapes _ s ((hw.aliases a ha).symm.trans hs)]
  case definitions => exact fun i id hi => hkept.definitions i id hi
  case instances => exact fun key id hid => hkept.instances key id (hdone key id hid)
  case generics => exact hkept.generics.trans hw.generics

theorem Idle.reservedBy (h : w.Idle) (haliases : w.aliases = []) (holder : Holder) :
    w.reservedBy holder = none := by
  cases hid : w.reservedBy holder with
  | none => rfl
  | some id =>
    obtain ⟨a, ha, -⟩ := h.linked hid
    rw [haliases] at ha
    cases ha

/-- A finished table is in order where nothing is underway. -/
theorem orderly_of_closedWorld (hidle : w.Idle) (haliases : w.aliases = [])
    (ht : w.table.ClosedWorld) : w.Orderly where
  reserved := by
    refine ⟨ht.indexed, fun holder id hid => ?_, fun id hid hnone => ?_, fun a _ id ha => ?_⟩
    · cases (hidle.reservedBy haliases holder).symm.trans hid
    · obtain ⟨s, hs⟩ := ht.filled hid
      cases hnone.symm.trans hs
    · cases (hidle.reservedBy haliases a).symm.trans ha
  fresh key u hu := (hidle.instances key u hu).elim

theorem Idle.filled (h : w.Idle) (t : Table) :
    Idle { table := t, progress := w.progress } :=
  ⟨fun i u hi => h.definitions i u hi, fun _ _ hu => by cases hu⟩

/-- What is done stays faithful when all reserved places are filled. -/
theorem Faithful.filled (h : w.Faithful p) (hidle : w.Idle)
    (hfill : fillAll w.table w.aliases = .ok t) (ht : t.ClosedWorld) :
    Faithful p { table := t, progress := w.progress } := by
  have hnotes := sameNotes_fillAll hfill
  constructor
  case orderly => exact orderly_of_closedWorld (hidle.filled t) rfl ht
  case size => exact h.size
  case positions => exact (congrArg Array.size hnotes.positions).trans h.positions
  case done =>
    intro i id hi
    exact (congrArg (·[i]?) hnotes.positions).trans (h.done i id hi)
  case declared => exact h.declared
  case bound =>
    intro name id hid
    exact h.bound name id ((congrArg (List.lookup name) hnotes.names).symm.trans hid)
  case named =>
    intro i id name hi hname
    exact (congrArg (List.lookup name) hnotes.names).trans (h.named i id name hi hname)
  case definitions =>
    intro i id hi t' hkept
    exact h.definitions i id hi t' (h.keptBy_filled hidle hfill ht hkept)
  case instances =>
    intro key id hid
    rw [hnotes.instances] at hid
    obtain ⟨g, hg, hbody⟩ := h.instances key id hid
    exact ⟨g, hnotes.generics ▸ hg,
      fun t' hkept => hbody t' (h.keptBy_filled hidle hfill ht hkept)⟩

/-! ## Positions -/

/-- A definition that stands at a place is done there. -/
def Placed (w : Workspace) : Prop :=
  ∀ i id, w.table.positions[i]? = some (some id) → w.progressAt i = .done id

theorem Placed.of_eq (h : w.Placed) (hpositions : w'.table.positions = w.table.positions)
    (hprogress : w'.progress = w.progress) : w'.Placed := by
  intro i id hi
  rw [hpositions] at hi
  exact (progressAt_of_eq hprogress i).trans (h i id hi)

/-- A definition that is not done yet may come further. -/
theorem Placed.setProgress (h : w.Placed) {i : Nat} (hi : ∀ id, w.progressAt i ≠ .done id)
    (q : Progress) : (w.setProgress i q).Placed := by
  intro j id hj
  have hdone := h j id hj
  have hij : j ≠ i := by
    rintro rfl
    exact hi id hdone
  rw [progressAt_setProgress_ne hij]
  exact hdone

theorem Placed.finishDefinition (h : w.Placed) {i : Nat} (hi : i < w.progress.size)
    (name? : Option String) (id : TypeId) : (w.finishDefinition i name? id).Placed := by
  intro j other hj
  rw [(notes_finishDefinition w i name? id).1, Array.getElem?_setIfInBounds] at hj
  by_cases hij : i = j
  · subst hij
    rw [if_pos rfl] at hj
    split at hj
    · cases hj
      exact progressAt_finishDefinition_self hi name? id
    · cases hj
  · rw [if_neg hij] at hj
    rw [progressAt_finishDefinition_ne (Ne.symm hij)]
    exact h j other hj

end Workspace

/-- Whatever is resolved, a definition that stands at a place is done there. -/
theorem Resolves.keepsPlaced {room : Nat} {task : Task} {n : Nat} {ids : List TypeId}
    (h : Resolves p room task n w (.ok ids) w') (hw : w.Placed) : w'.Placed := by
  induction h using Resolves.ok_induction with
  | nil | placed | bound | known | done | cached => exact hw
  | next _ _ ih ih' => exact ih' (ih hw)
  | built _ _ _ ih => exact (ih hw).of_eq (Table.SameNotes.intern _).positions rfl
  | index _ _ ih | declared _ _ _ ih => exact ih hw
  | primitive => exact hw.of_eq (Table.SameNotes.intern _).positions rfl
  | applied _ _ _ ih ih' => exact ih' (ih hw)
  | again hi hmeet =>
    obtain ⟨hp, -⟩ := progress_meetAgain hmeet
    refine (hw.of_eq (Table.SameNotes.meetAgain hmeet).positions hp).setProgress ?_ _
    rw [Workspace.progressAt_of_eq hp, hi]
    rintro id ⟨⟩
  | defined hi _ hu hsettle ih =>
    have hbody := ih (hw.setProgress (by rw [hi]; rintro id ⟨⟩) _)
    obtain ⟨hp, -⟩ := progress_settle hsettle
    refine (hbody.of_eq (Table.SameNotes.settle hsettle).positions hp).finishDefinition ?_ _ _
    rw [hp]
    exact Workspace.lt_of_progressAt (show _ ≠ Progress.generic by rw [hu]; simp)
  | againInstance _ _ hmeet =>
    obtain ⟨hp, -⟩ := progress_meetAgain hmeet
    exact hw.of_eq (Table.SameNotes.meetAgain hmeet).positions hp
  | instantiated _ _ _ _ hsettle ih =>
    have hbody : Workspace.Placed _ := ih hw
    obtain ⟨hp, -⟩ := progress_settle hsettle
    refine hbody.of_eq ?_ hp
    exact (Workspace.notes_finishInstance _ _ _ _).1.trans
      (Table.SameNotes.settle hsettle).positions

/-! ## Settled tables -/

/-- The table is finished: all definitions of the program are done in it, and what it has denotes
what is written. -/
structure Table.Settled (p : Program) (progress : Array Progress) (t : Table) : Prop where
  world : t.ClosedWorld
  headed : t.Headed
  faithful : Workspace.Faithful p { table := t, progress }
  idle : Workspace.Idle { table := t, progress }
  placed : Workspace.Placed { table := t, progress }
  declared : ∀ name i, p.positionOf.lookup name = some i →
    ∃ id, t.names.lookup name = some id

namespace Table.Settled

/-- A finished table keeps what it promises itself. -/
theorem keptBy (h : t.Settled p progress) : Workspace.KeptBy { table := t, progress } t := by
  refine h.faithful.keptBy_fillAll h.idle ?_
  change fillAll t [] = .ok t
  rw [fillAll]

theorem meant (h : t.Settled p progress) : t.Meant p where
  filled _ hid := h.world.filled hid
  references _ _ hs := h.world.references hs
  positions := h.world.closed.positions
  headed := h.headed
  instances key id hid := by
    obtain ⟨g, hg, hbody⟩ := h.faithful.instances key id hid
    exact ⟨g, hg, hbody t h.keptBy⟩

end Table.Settled

/-- Whatever is accepted as a table of definitions is settled. -/
theorem Table.settled_ofDefinitions {ds : List Definition} {known : Declared}
    (h : Table.ofDefinitions ds = .ok t) (hof : Declared.Of ds known)
    (hrun : outcome (known.program ds).resolveAll (known.start ds) = (.ok (), w))
    (hfill : fillAll w.table w.aliases = .ok t) :
    t.generics = known.generics ∧ w.Faithful (known.program ds) ∧ w.Idle ∧
      t.Settled (known.program ds) w.progress := by
  have hworld := Table.ClosedWorld.ofDefinitions h
  have hheaded := Table.headed_ofDefinitions h
  have hplaced : (known.start ds).Placed := by
    intro i id hi
    simp [Declared.start, Array.getElem?_replicate] at hi
  obtain ⟨⟨hfaithful, hgenerics, hplaced⟩, hidle, hdone⟩ := resolveAll_keeps
    (P := fun w => w.Faithful (known.program ds) ∧ w.table.generics = known.generics ∧ w.Placed)
    (fun i w ids w' hw _ hdef => by
      obtain ⟨hfaithful, hgenerics⟩ := hdef.faithful hw.1
      exact ⟨hfaithful, hgenerics.trans hw.2.1, hdef.keepsPlaced hw.2.2⟩)
    (waiting_start hof) (idle_start hof) ⟨faithful_start hof, rfl, hplaced⟩ hrun
  have hnotes := sameNotes_fillAll hfill
  refine ⟨hnotes.generics.trans hgenerics, hfaithful, hidle, hworld, hheaded,
    hfaithful.filled hidle hfill hworld, hidle.filled t, hplaced.of_eq hnotes.positions rfl, ?_⟩
  intro name i hi
  obtain ⟨d, hd, hname, hg⟩ := hof.position name i hi
  obtain ⟨id, hid⟩ := hdone i (lt_size_program hd) (start_not_generic hof hd hg)
  refine ⟨id, ?_⟩
  rw [hnotes.names]
  exact hfaithful.named i id name hid (by rw [definitionAt_program hd, hname])

/-! ## Types that come later -/

/-- The workspace with the definitions as far as they have come. -/
def Workspace.over (w : Workspace) (progress : Array Progress) : Workspace := { w with progress }

theorem meetAgain_over {u u' : Underway} {n : Nat} {label : String} {reservedLabel : Option String}
    {slot : TypeId} (progress : Array Progress)
    (h : outcome (meetAgain u n label reservedLabel) w = (.ok (slot, u'), w')) :
    outcome (meetAgain u n label reservedLabel) (w.over progress)
      = (.ok (slot, u'), w'.over progress) := by
  rcases meetAgain_cases u n label reservedLabel w with
    ⟨-, ho⟩ | ⟨hn, other, hu, ho⟩ | ⟨hn, hu, ho⟩
  · cases ho.symm.trans h
  · cases ho.symm.trans h
    rcases meetAgain_cases u n label reservedLabel (w.over progress) with
      ⟨hle, -⟩ | ⟨-, slot, hslot, ho'⟩ | ⟨-, hnone, -⟩
    · exact absurd hn (Nat.not_lt_of_le hle)
    · cases hu.symm.trans hslot
      exact ho'
    · cases hu.symm.trans hnone
  · cases ho.symm.trans h
    rcases meetAgain_cases u n label reservedLabel (w.over progress) with
      ⟨hle, -⟩ | ⟨-, slot, hslot, -⟩ | ⟨-, -, ho'⟩
    · exact absurd hn (Nat.not_lt_of_le hle)
    · cases hu.symm.trans hslot
    · exact ho'

theorem settle_over {u : Underway} {id id' : TypeId} {label : String} (progress : Array Progress)
    (h : outcome (settle u id label) w = (.ok id', w')) :
    outcome (settle u id label) (w.over progress) = (.ok id', w'.over progress) := by
  unfold settle at h ⊢
  cases hslot : u.reserved with
  | none =>
    simp only [hslot] at h ⊢
    cases h
    rfl
  | some slot =>
    simp only [hslot] at h ⊢
    by_cases hid : id = slot
    · rw [if_pos hid] at h
      cases h
    · rw [if_neg hid] at h ⊢
      rw [outcome_table] at h ⊢
      have hsame : (w.over progress).table.shape? id = w.table.shape? id := rfl
      simp only [hsame]
      cases hs : w.table.shape? id with
      | some s =>
        simp only [hs] at h
        cases h
        rfl
      | none =>
        simp only [hs] at h
        cases h
        rfl

namespace Table.Settled

theorem genericOf (h : t.Settled p progress) (hnames : w.table.names = t.names) {s : Bindings}
    {name : String} {given : Nat} :
    p.genericOf w.table s name given = Program.genericOf {} w.table s name given := by
  have hconcrete : p.isConcrete w.table s name = Program.isConcrete {} w.table s name := by
    unfold Program.isConcrete
    cases hi : p.positionOf.lookup name with
    | none => rfl
    | some i =>
      obtain ⟨id, hid⟩ := h.declared name i hi
      simp [hnames, hid]
  unfold Program.genericOf
  rw [hconcrete]

end Table.Settled

theorem position_of_typeAt {i : Nat} {id : TypeId} (h : t.typeAt i = .ok id) :
    t.positions[i]? = some (some id) := by
  unfold Table.typeAt at h
  split at h
  · rename_i hi
    cases h
    exact hi
  · cases h
  · cases h

/-- What is resolved in a settled table keeps to the rules of its program. -/
theorem Resolves.over (ht : t.Settled p progress) {room : Nat} {task : Task} {n : Nat}
    {ids : List TypeId} (h : Resolves {} room task n w (.ok ids) w') (hw : w.Since t) :
    Resolves p room task n (w.over progress) (.ok ids) (w'.over progress) := by
  induction h using Resolves.ok_induction with
  | nil => exact .nil
  | next hhead _ ih ih' => exact .next (ih hw) (ih' (hhead.since hw))
  | built _ hover hcheck ih => exact .built (ih hw) hover hcheck
  | index hi => exact absurd hi (Nat.not_lt_zero _)
  | @placed _ _ w _ i id _ hplace =>
    have hi := position_of_typeAt hplace
    rw [hw.extends.positions] at hi
    have hdone : (w.over progress).progressAt i = .done id := ht.placed i id hi
    refine .index ?_ (.done hdone)
    have hlt := Workspace.lt_of_progressAt (show _ ≠ Progress.generic by rw [hdone]; simp)
    exact Nat.lt_of_lt_of_eq hlt ht.faithful.size
  | bound hs => exact .bound hs
  | declared _ hi => cases hi
  | known hs _ hid =>
    rw [hw.extends.names] at hid
    obtain ⟨i, hi, hdone⟩ := ht.faithful.bound _ _ hid
    exact .declared hs hi (.done hdone)
  | @primitive _ _ _ _ name _ hs _ hfree hprim =>
    refine .primitive hs ?_ hfree hprim
    cases hi : p.positionOf.lookup name with
    | none => rfl
    | some i =>
      obtain ⟨id, hid⟩ := ht.declared name i hi
      rw [hw.extends.names, hid] at hfree
      cases hfree
  | applied hg hparts _ ih ih' =>
    have hg' := (ht.genericOf hw.extends.names).trans hg
    exact .applied hg' (ih hw) (ih' (hparts.since hw))
  | done hi | again hi | defined hi => cases (hw.progressAt _).symm.trans hi
  | cached hid => exact .cached hid
  | againInstance hnone hkey hmeet =>
    refine .againInstance ?_ ?_ (meetAgain_over progress hmeet)
    · exact hnone
    · exact hkey
  | instantiated hnone hkey _ hu hsettle ih =>
    have hbody := ih (hw.enterInstance _ _)
    have hsettle' := settle_over progress hsettle
    refine .instantiated (w := Workspace.over _ progress) (u := _) ?_ ?_ hbody ?_ hsettle'
    · exact hnone
    · exact hkey
    · exact hu

/-- A table promises the same whatever texts it remembers. -/
theorem refines_withExpression (t : Table) (progress : Array Progress) (text : String)
    (id : TypeId) : Workspace.Refines { table := t, progress }
      { table := { t with expressions := (text, id) :: t.expressions }, progress } :=
  .of_shapes (fun _ _ hs => hs) rfl rfl rfl rfl rfl

namespace Table.Settled

/-- What is resolved later comes to what it denotes. -/
theorem arrives (ht : t.Settled p progress) {room : Nat} {task : Task} {n : Nat}
    {ids : List TypeId} (h : Resolves {} room task n w (.ok ids) w') (hw : w.Since t)
    (hfaithful : (w.over progress).Faithful p) (hknown : task.Known w) :
    Arrives p task (w.over progress) ids (w'.over progress) := by
  refine (h.over ht hw).arrives hfaithful ?_
  cases task with
  | generic g key => exact hknown
  | type | parts | definition => trivial

/-- A type that was taken up was resolved by the rules of the program, to what it denotes. -/
theorem runs (ht : t.Settled p progress) {e : TypeExpr} {id : TypeId}
    (h : t.extend e = (.ok id, t')) :
    ∃ w, Resolves p maxInstances (.type e []) 0 { table := t, progress } (.ok [id]) w ∧
      Arrives p (.type e []) { table := t, progress } [id] w ∧ w.progress = progress ∧ w.Idle ∧
      fillAll w.table w.aliases = .ok t' := by
  rcases extend_cases t e with ⟨id', u, hid, hfill, -, hext⟩ | ⟨x, hext⟩
  · cases hext.symm.trans h
    have hrun := resolves_resolving t e
    rw [hid] at hrun
    have hsince := Workspace.Since.start ht.world.closed
    refine ⟨(t.resolving e).2.over progress, hrun.over ht hsince,
      ht.arrives hrun hsince ht.faithful trivial, rfl, ⟨ht.idle.definitions, fun key u hu => ?_⟩,
      hfill⟩
    obtain ⟨v, hv⟩ := hrun.returns.instances key u hu
    cases hv
  · cases hext.symm.trans h

/-- A type that was taken up stands at a place that it denotes. -/
theorem denotes_extend (ht : t.Settled p progress) {e : TypeExpr} {id : TypeId}
    (h : t.extend e = (.ok id, t')) : Denotes p t' e [] id := by
  obtain ⟨w, -, harrives, -, hidle, hfill⟩ := ht.runs h
  obtain ⟨_, hid, hdenotes⟩ := harrives.denoted t' (harrives.faithful.keptBy_fillAll hidle hfill)
  cases hid
  exact hdenotes

/-- A settled table is settled again when a type was taken up. -/
theorem extend (ht : t.Settled p progress) {e : TypeExpr} {id : TypeId}
    (h : t.extend e = (.ok id, t')) : t'.Settled p progress := by
  have hworld := ht.world.extend e
  have hext := extends_extend ht.world.closed e
  rw [h] at hworld hext
  obtain ⟨w, -, harrives, rfl, hidle, hfill⟩ := ht.runs h
  exact ⟨hworld, ht.world.headed_extend ht.headed h,
    harrives.faithful.filled hidle hfill hworld, hidle.filled t',
    ht.placed.of_eq hext.positions rfl, fun name i hi => hext.names ▸ ht.declared name i hi⟩

/-- A table is settled whatever texts it remembers. -/
theorem withExpression (ht : t.Settled p progress) (text : String) {id : TypeId}
    (hid : id < t.size) :
    Settled p progress { t with expressions := (text, id) :: t.expressions } := by
  have hrefines := refines_withExpression t progress text id
  have hworld := ht.world.withExpression text hid
  have hidle := ht.idle.filled { t with expressions := (text, id) :: t.expressions }
  refine ⟨hworld, ht.headed, ?_, hidle, ht.placed, ht.declared⟩
  have hfaithful := ht.faithful
  constructor
  case orderly => exact Workspace.orderly_of_closedWorld hidle rfl hworld
  case size => exact hfaithful.size
  case positions => exact hfaithful.positions
  case done => exact hfaithful.done
  case declared => exact hfaithful.declared
  case bound => exact hfaithful.bound
  case named => exact hfaithful.named
  case definitions =>
    exact fun i id hi t' ht' => hfaithful.definitions i id hi t' (ht'.of_refines hrefines)
  case instances =>
    intro key id hkey
    obtain ⟨g, hg, hbody⟩ := hfaithful.instances key id hkey
    exact ⟨g, hg, fun t' ht' => hbody t' (ht'.of_refines hrefines)⟩

end Table.Settled

end Typewire
