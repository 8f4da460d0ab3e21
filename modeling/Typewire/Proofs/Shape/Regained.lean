-- Types that the table has already, taken up once more. What is written denotes a place of the
-- table, so resolving it ends at a place that is like that one, or instances stand too deep. All
-- that comes to the table on the way is like what it has, so the rules that its places keep hold
-- of the new places too, and the type is taken up.
import Typewire.Proofs.Shape.Grounded
import Typewire.Proofs.Shape.Repeated

namespace Typewire

open Typewire.Language Resolving

variable {p : Program} {t t' : Table} {progress : Array Progress} {w : Workspace} {e : TypeExpr}
  {x y id : TypeId}

/-- What pairs with a place from which all ways end is such a place. -/
theorem Table.Bisimulation.acc {R : TypeId → TypeId → Prop} (h : t.Bisimulation R) (hxy : R x y)
    (hx : Acc (t.Holds 0) x) : Acc (t.Holds 0) y := by
  induction hx generalizing y with
  | intro x _ ih =>
    refine Acc.intro y fun child hchild => ?_
    obtain ⟨s, s', hs, hs', hmatches⟩ := h x y hxy
    have hmem := hchild.1
    rw [Table.unguarded, hs'] at hmem
    obtain ⟨other, hother, hR⟩ := hmatches.unguarded hmem
    refine ih other ⟨?_, Nat.zero_le _⟩ hR
    rw [Table.unguarded, hs]
    exact hother

/-! ## The beginning -/

/-- In a finished table all is done, and every place has a shape. -/
theorem Table.Settled.descends (ht : t.Settled p progress) :
    Workspace.Descends { table := t } where
  keys key hkey := by
    rcases hkey with ⟨u, hu⟩ | ⟨id, hid⟩
    · cases hu
    · obtain ⟨⟨g, hproper, hhead⟩, hargs⟩ := ht.headed key id hid
      exact ⟨hproper.headsTo hhead, hargs⟩
  older key slot hslot := by cases hslot
  done key id target m hid _ := by
    obtain ⟨s, hs⟩ := ht.world.filled (ht.world.closed.instances _ (mem_of_lookup hid))
    exact Or.inl (.shaped hs)
  linked a ha := by cases ha

theorem Task.Retraces.start (ht : t.Settled p progress) (hx : Denotes p t e [] x) :
    Task.Retraces p progress t (.type e []) { table := t } where
  along := .start ht
  within := by rintro b ⟨⟩
  mirrored := ⟨[], x, ⟨rfl, by rintro _ _ _ ⟨⟩⟩, hx⟩
  descends := ht.descends

/-- A type that the table has resolves once more, unless instances stand too deep. -/
theorem Table.Settled.tooDeep_of_error (ht : t.Settled p progress) (hapart : t.Apart)
    (hx : Denotes p t e [] x) {err : ResolveError} (h : (t.resolving e).1 = .error err) :
    err.TooDeep := by
  have hrun := Table.resolves_resolving t e
  rw [h] at hrun
  refine hrun.error_tooDeep ht hapart rfl (.start ht hx) ?_ ?_
  · rintro _ _ _ - ⟨_, ⟨⟩⟩
  · rintro _ _ ⟨⟩

/-! ## The end -/

/-- A type that denotes a place of the table was resolved there once more, and the places that
were reserved on the way are filled. -/
structure Regained (p : Program) (progress : Array Progress) (t : Table) (e : TypeExpr)
    (x id : TypeId) (w : Workspace) (t' : Table) : Prop where
  settled : t.Settled p progress
  denoted : Denotes p t e [] x
  run : Resolves {} maxInstances (.type e []) 0 { table := t } (.ok [id]) w
  filled : fillAll w.table w.aliases = .ok t'

namespace Regained

theorem retraces (h : Regained p progress t e x id w t') :
    Task.Retraces p progress t (.type e []) { table := t } := .start h.settled h.denoted

theorem along (h : Regained p progress t e x id w t') : w.Along p progress t :=
  (h.retraces.resolves h.settled h.run).1

theorem arrives (h : Regained p progress t e x id w t') :
    Arrives p (.type e []) (Workspace.over { table := t } progress) [id] (w.over progress) :=
  h.retraces.arrives h.settled h.run

theorem idle (h : Regained p progress t e x id w t') : w.Idle :=
  (Workspace.Idle.start t).of_returns (h.run.returns)

theorem extended (h : Regained p progress t e x id w t') : t.Extends t' :=
  fillAll_keeps (fun a ha _ s hu => hu.fill s (h.along.since.aliases a ha)) h.along.since.extends
    h.filled

theorem kept (h : Regained p progress t e x id w t') : (w.over progress).KeptBy t' :=
  h.arrives.faithful.keptBy_fillAll ⟨h.settled.idle.definitions, h.idle.instances⟩ h.filled

theorem keptBy (h : Regained p progress t e x id w t') :
    Workspace.KeptBy { table := t, progress } t' := h.kept.of_refines h.arrives.refines

/-- Every place has a shape in the end. -/
theorem shapes (h : Regained p progress t e x id w t') (place : TypeId) (hid : place < t'.size) :
    ∃ s, t'.shape? place = some s := by
  obtain ⟨hdescends, -⟩ := h.run.descends h.settled h.retraces
  rw [size_fillAll h.filled] at hid
  exact (hdescends.leads h.along.orderly h.idle hid).filled_of_fillAll h.along.orderly.pending
    h.filled

theorem sound (h : Regained p progress t e x id w t') :
    Workspace.SoundBelow t'.size { table := t' } :=
  h.settled.world.soundBelow h.run h.filled

theorem headed (h : Regained p progress t e x id w t') : t'.Headed := by
  obtain ⟨P, -, hP, -⟩ := h.run.sinks h.settled.world.orderly
    (Table.closed_start h.settled.world.closed) h.retraces.within trivial
    (Workspace.hollow_of_headed h.settled.headed)
  exact hP.headed h.along.orderly h.filled h.shapes

theorem meant (h : Regained p progress t e x id w t') : t'.Meant p where
  filled := h.shapes
  references place s hs := (h.sound place s hs).2
  positions := (closed_fillAll h.filled h.along.closed.table
    fun a ha => (h.along.closed.aliases a ha).1).positions
  headed := h.headed
  instances key place hplace := by
    have hnotes := sameNotes_fillAll h.filled
    rw [hnotes.instances] at hplace
    obtain ⟨g, hg, hbody⟩ := h.arrives.faithful.instances key place hplace
    exact ⟨g, hnotes.generics ▸ hg, hbody t' h.kept⟩

/-- Every new place is like an old one. -/
theorem repeats (h : Regained p progress t e x id w t') (place : TypeId) (hid : place < t'.size)
    (hnew : t.size ≤ place) : ∃ old < t.size, Alike p t' old place := by
  have hrepeats := h.run.repeats h.settled h.meant h.keptBy h.retraces
    ⟨[], x, ⟨rfl, by rintro _ _ _ ⟨⟩⟩, h.denoted⟩ h.kept
    fun place hplace hnew => absurd hplace (Nat.not_lt_of_le hnew)
  exact hrepeats place (Nat.lt_of_lt_of_eq hid (size_fillAll h.filled)) hnew

/-- The new places keep the rules, as the old places that they are like do. -/
theorem checked (h : Regained p progress t e x id w t') (place : TypeId) (hid : place < t'.size) :
    t'.Checked place := by
  rcases Nat.lt_or_ge place t.size with hlt | hge
  · exact h.settled.world.checked_extends h.extended hlt
  · refine ⟨h.shapes place hid, fun s hs => (h.sound place s hs).2, fun inner hinner => ?_⟩
    obtain ⟨old, hold, halike⟩ := h.repeats place hid hge
    obtain ⟨s, s', hs, hs', hmatches⟩ := h.meant.bisimulation old place halike
    cases hinner.symm.trans hs'
    obtain ⟨first, rfl, hfirst⟩ := hmatches.compact
    have hunsigned := (h.settled.world.checked_extends h.extended hold).unsigned first hs
    obtain ⟨width, hwidth⟩ := Table.shape?_of_isUnsigned hunsigned
    obtain ⟨s, s', hs, hs', hmatches⟩ := h.meant.bisimulation first inner hfirst
    cases hwidth.symm.trans hs
    rw [hmatches.primitive] at hs'
    rw [Table.isUnsigned, hs']
    rfl

theorem grounded (h : Regained p progress t e x id w t') (ht : t.Grounded) : t'.Grounded := by
  have hold : ∀ old < t.size, Acc (t'.Holds 0) old := fun old hlt =>
    (h.settled.world.sharesBelow h.extended).acc hlt (ht old)
  refine .of_places fun place hid => ?_
  rcases Nat.lt_or_ge place t.size with hlt | hge
  · exact hold place hlt
  · obtain ⟨old, hlt, halike⟩ := h.repeats place hid hge
    exact h.meant.bisimulation.acc halike (hold old hlt)

theorem check (h : Regained p progress t e x id w t') (ht : t.Grounded) :
    t'.check t.size = .ok () :=
  (h.grounded ht).check h.checked (fun place s hs => (h.sound place s hs).1) t.size

/-- The place that it comes to holds the same type. -/
theorem equivalent (h : Regained p progress t e x id w t') : t'.Equivalent x id := by
  obtain ⟨_, hid, hdenotes⟩ := h.arrives.denoted t' h.kept
  cases hid
  refine h.meant.equivalent (.denoted (h.denoted.keep h.settled h.keptBy ?_) hdenotes rfl ?_)
  · rintro _ _ ⟨⟩
  · rintro _ _ _ ⟨⟩

end Regained

namespace Table.Settled

theorem regained (ht : t.Settled p progress) (hx : Denotes p t e [] x)
    (hid : (t.resolving e).1 = .ok id) :
    ∃ t', Regained p progress t e x id (t.resolving e).2 t' := by
  have hrun := resolves_resolving t e
  rw [hid] at hrun
  have hstart := Task.Retraces.start ht hx
  obtain ⟨hw, -, -⟩ := hstart.resolves ht hrun
  obtain ⟨hdescends, -⟩ := hrun.descends ht hstart
  have hidle := (Workspace.Idle.start t).of_returns hrun.returns
  obtain ⟨t', hfill⟩ := hw.orderly.pending.fillAll_ok fun a ha =>
    hdescends.leads hw.orderly hidle (hw.closed.aliases a ha).2
  exact ⟨t', ht, hx, hrun, hfill⟩

/-- What denotes a place of a finished table is taken up there, at a place that holds the same
type, unless instances stand too deep. -/
theorem extend_again (ht : t.Settled p progress) (hapart : t.Apart) (hgrounded : t.Grounded)
    (hx : Denotes p t e [] x) :
    (∃ id t', t.extend e = (.ok id, t') ∧ t'.Equivalent x id) ∨
      ∃ err t', t.extend e = (.error err, t') ∧ err.TooDeep := by
  cases hresult : (t.resolving e).1 with
  | ok id =>
    obtain ⟨t', h⟩ := ht.regained hx hresult
    exact Or.inl ⟨id, t', extend_of_ok hresult h.filled (h.check hgrounded), h.equivalent⟩
  | error err =>
    exact Or.inr ⟨err, _, extend_of_error hresult, ht.tooDeep_of_error hapart hx hresult⟩

end Table.Settled

end Typewire
