-- What a finished table makes of a type that it took up before. Every shape in it is found, and
-- every generic instance is known, so it comes to the same place and nothing is added.
import Typewire.Proofs.Shape.World

namespace Typewire

open Typewire.Language Resolving

/-! ## Types that are found -/

/-- A type comes to a place by looking things up alone: names, positions, shapes and generic
instances that the table has. -/
inductive Table.Recalls (t : Table) : Task → List TypeId → Prop where
  | nil {s} : Recalls t (.parts [] s) []
  | next {s id ids e es} : Recalls t (.type e s) [id] → Recalls t (.parts es s) ids →
    Recalls t (.parts (.ok e :: es) s) (id :: ids)
  | built {s id ids e shape} : Recalls t (.parts (parts e) s) ids →
    shapeOver e ids = some shape → shape.check = .ok () → t.interned.lookup shape = some id →
    Recalls t (.type e s) [id]
  | placed {s id i} : t.typeAt i = .ok id → Recalls t (.type (.index i) s) [id]
  | bound {s id name} : s.lookup name = some id → Recalls t (.type (.named name []) s) [id]
  | known {s id name} : s.lookup name = none → t.names.lookup name = some id →
    Recalls t (.type (.named name []) s) [id]
  | primitive {s id name prim} : s.lookup name = none → t.names.lookup name = none →
    Primitive.ofName? name = some prim → t.interned.lookup (.primitive prim) = some id →
    Recalls t (.type (.named name []) s) [id]
  | applied {s id g name e es ids} : Program.genericOf {} t s name (es.length + 1) = .ok g →
    Recalls t (.parts ((e :: es).map .ok) s) ids → Recalls t (.generic g ⟨name, ids⟩) [id] →
    Recalls t (.type (.named name (e :: es)) s) [id]
  | cached {g key id} : t.instances.lookup key = some id → Recalls t (.generic g key) [id]

namespace Table.Recalls

variable {t t' : Table} {task : Task} {ids : List TypeId}

theorem genericOf_congr {p : Program} {bindings : Bindings} {name : String} {given : Nat}
    (hnames : t'.names = t.names) (hgenerics : t'.generics = t.generics) :
    p.genericOf t' bindings name given = p.genericOf t bindings name given := by
  unfold Program.genericOf Program.isConcrete
  rw [hnames, hgenerics]

/-- What is found in a table is found in one that finds all that this one finds, under the same
names. -/
theorem keep (h : t.Recalls task ids) (hfinds : t.Finds t')
    (hpositions : t'.positions = t.positions) (hnames : t'.names = t.names)
    (hgenerics : t'.generics = t.generics) : t'.Recalls task ids := by
  induction h with
  | nil => exact .nil
  | next _ _ ih ih' => exact .next ih ih'
  | built _ hshape hcheck hid ih => exact .built ih hshape hcheck (hfinds.shapes _ _ hid)
  | placed hi => exact .placed ((congrFun (typeAt_congr hpositions) _).trans hi)
  | bound hs => exact .bound hs
  | known hs hname => exact .known hs (hnames ▸ hname)
  | primitive hs hname hprim hid =>
    exact .primitive hs (hnames ▸ hname) hprim (hfinds.shapes _ _ hid)
  | applied hg _ _ ih ih' => exact .applied ((genericOf_congr hnames hgenerics).trans hg) ih ih'
  | cached hid => exact .cached (hfinds.instances _ _ hid)

theorem keep_extends (h : t.Recalls task ids) (hfinds : t.Finds t') (hext : t.Extends t') :
    t'.Recalls task ids :=
  h.keep hfinds hext.positions hext.names hext.generics

/-! ## Resolving again -/

/-- What is found is what resolving comes to, and resolving changes nothing. -/
theorem resolves {room n : Nat} {w w' : Workspace} {r : Except ResolveError (List TypeId)}
    (h : w.table.Recalls task ids) (hr : Resolves {} (room + 1) task n w r w') :
    r = .ok ids ∧ w' = w := by
  generalize ht : w.table = t at h
  have hintern {w : Workspace} {s : Shape} {id : TypeId} (ht : w.table = t)
      (hid : t.interned.lookup s = some id) :
      (Except.ok [(w.table.intern s).1] : Except ResolveError _) = .ok [id] ∧ w.intern s = w := by
    unfold Workspace.intern
    rw [intern_of_lookup (ht ▸ hid)]
    exact ⟨rfl, rfl⟩
  induction h generalizing n w w' r with
  | nil =>
    cases hr
    exact ⟨rfl, rfl⟩
  | next _ _ ih ih' =>
    cases hr with
    | stop hhead => cases (ih hhead ht).1
    | next hhead hrest =>
      obtain ⟨hid, rfl⟩ := ih hhead ht
      cases hid
      obtain ⟨rfl, rfl⟩ := ih' hrest ht
      exact ⟨rfl, rfl⟩
  | built _ hshape hcheck hid ih =>
    cases hr with
    | unbuilt hparts => cases (ih hparts ht).1
    | unsound hparts hover hbad =>
      cases (ih hparts ht).1
      cases hshape.symm.trans hover
      cases hcheck.symm.trans hbad
    | built hparts hover =>
      obtain ⟨hids, rfl⟩ := ih hparts ht
      cases hids
      cases hshape.symm.trans hover
      exact hintern ht hid
    | index | placed | bound | declared | known | primitive | unknown | refused | unapplied
    | applied => cases hshape
  | placed hi =>
    cases hr with
    | unbuilt hparts => cases hparts
    | unsound _ hover | built _ hover => cases hover
    | index hlt => exact absurd hlt (Nat.not_lt_zero _)
    | placed =>
      rw [ht, hi]
      exact ⟨rfl, rfl⟩
  | bound hs =>
    cases hr with
    | unbuilt hparts => cases hparts
    | unsound _ hover | built _ hover => cases hover
    | bound hs' =>
      cases hs.symm.trans hs'
      exact ⟨rfl, rfl⟩
    | declared hs' | known hs' | primitive hs' | unknown hs' => cases hs.symm.trans hs'
  | known hs hname =>
    subst ht
    cases hr with
    | unbuilt hparts => cases hparts
    | unsound _ hover | built _ hover => cases hover
    | bound hs' => cases hs.symm.trans hs'
    | declared _ hposition => cases hposition
    | known _ _ hname' =>
      cases hname.symm.trans hname'
      exact ⟨rfl, rfl⟩
    | primitive _ _ hname' | unknown _ _ hname' => cases hname.symm.trans hname'
  | primitive hs hname hprim hid =>
    cases hr with
    | unbuilt hparts => cases hparts
    | unsound _ hover | built _ hover => cases hover
    | bound hs' => cases hs.symm.trans hs'
    | declared _ hposition => cases hposition
    | known _ _ hname' => cases hname.symm.trans (ht ▸ hname')
    | primitive _ _ _ hprim' =>
      cases hprim.symm.trans hprim'
      exact hintern ht hid
    | unknown _ _ _ hprim' => cases hprim.symm.trans hprim'
  | applied hg _ _ ih ih' =>
    cases hr with
    | unbuilt hparts => cases hparts
    | unsound _ hover | built _ hover => cases hover
    | refused hg' =>
      rw [ht, hg] at hg'
      cases hg'
    | unapplied _ hparts => cases (ih hparts ht).1
    | applied hg' hparts hinstance =>
      obtain ⟨hids, rfl⟩ := ih hparts ht
      cases hids
      subst ht
      cases hg.symm.trans hg'
      exact ih' hinstance rfl
  | cached hid =>
    subst ht
    cases hr with
    | cached hid' =>
      cases hid.symm.trans hid'
      exact ⟨rfl, rfl⟩
    | flatInstance hnew | againInstance hnew | failedInstance hnew | endlessInstance hnew
    | instantiated hnew => cases hid.symm.trans hnew

end Table.Recalls

/-! ## Taken up once -/

/-- What was resolved with nothing underway is found from then on. -/
theorem Resolves.recalls {room : Nat} {task : Task} {n : Nat} {w w' : Workspace} {t : Table}
    {ids : List TypeId} (h : Resolves {} room task n w (.ok ids) w') (hw : w.Orderly)
    (hsince : w.Since t) (hidle : w.Idle) : w'.table.Recalls task ids := by
  -- What is found right after one step is found after the next.
  have hkeep {task : Task} {ids : List TypeId} {v v' : Workspace} (hv : v.table.Recalls task ids)
      (hfinds : v.table.Finds v'.table) (hs : v.Since t) (hs' : v'.Since t) :
      v'.table.Recalls task ids :=
    hv.keep hfinds (hs'.extends.positions.trans hs.extends.positions.symm)
      (hs'.extends.names.trans hs.extends.names.symm)
      (hs'.extends.generics.trans hs.extends.generics.symm)
  induction h using Resolves.ok_induction with
  | nil => exact .nil
  | next hhead hrest ih ih' =>
    obtain ⟨hw', -⟩ := hhead.orderly hw
    have hsince' := hhead.since hsince
    have htail := ih' hw' hsince' (hidle.of_returns hhead.returns)
    exact .next (hkeep (ih hw hsince hidle) (hrest.orderly hw').2 hsince'
      (hrest.since hsince')) htail
  | built hparts hshape hcheck ih =>
    have hsince' := hparts.since hsince
    exact .built (hkeep (ih hw hsince hidle) (.intern _ _) hsince' (hsince'.intern _)) hshape
      hcheck (Table.lookup_intern_self _ _)
  | index hlt => exact absurd hlt (Nat.not_lt_zero _)
  | placed _ hplace => exact .placed hplace
  | bound hs => exact .bound hs
  | declared _ hposition => cases hposition
  | known hs _ hname => exact .known hs hname
  | primitive hs _ hname hprim =>
    refine .primitive hs ?_ hprim (Table.lookup_intern_self _ _)
    exact (congrArg _ (Table.SameNotes.intern _).names).trans hname
  | applied hg hparts hinstance ih ih' =>
    obtain ⟨hw', -⟩ := hparts.orderly hw
    have hsince' := hparts.since hsince
    have hsince'' := hinstance.since hsince'
    have hargs := hkeep (ih hw hsince hidle) (hinstance.orderly hw').2 hsince' hsince''
    have hg' := (Table.Recalls.genericOf_congr
      (hsince''.extends.names.trans hsince.extends.names.symm)
      (hsince''.extends.generics.trans hsince.extends.generics.symm)).trans hg
    cases ih' hw' hsince' (hidle.of_returns hparts.returns) with
    | cached hid => exact .applied hg' hargs (.cached hid)
  | done hi | again hi | defined hi => cases (hsince.progressAt _).symm.trans hi
  | cached hid => exact .cached hid
  | againInstance _ hkey => exact (hidle.instances _ _ hkey).elim
  | instantiated =>
    refine .cached ?_
    rw [(Workspace.notes_finishInstance _ _ _ _).2.2.2.2]
    exact List.lookup_cons_self

/-! ## Taking up again -/

namespace Table

variable {t t' : Table} {e : TypeExpr} {id : TypeId}

theorem Finds.noteAll (t : Table) {notes : List Note}
    (hnew : ∀ n ∈ notes, t.instances.lookup n.key = none) : t.Finds (t.noteAll notes) := by
  refine ⟨fun s id hs => (congrArg _ (interned_noteAll t notes)).trans hs, fun key id hkey => ?_⟩
  have hnone : (notes.map fun n => (n.key, n.id)).lookup key = none := by
    rw [List.lookup_eq_none_iff]
    intro p hp
    obtain ⟨n, hn, rfl⟩ := List.mem_map.mp hp
    rw [bne_iff_ne]
    rintro rfl
    cases (hnew n hn).symm.trans hkey
  rw [instances_noteAll, List.lookup_append, hnone, hkey]
  rfl

/-- What a finished table finds, it finds again after a type was taken up or not. -/
theorem ClosedWorld.finds_extend (ht : t.ClosedWorld) (e : TypeExpr) : t.Finds (t.extend e).2 := by
  rcases extend_cases t e with ⟨id, t', hid, hfill, -, hext⟩ | ⟨x, hext⟩
  · have hrun := resolves_resolving t e
    rw [hid] at hrun
    rw [hext]
    exact (hrun.orderly ht.orderly).2.trans (.fillAll hfill)
  · obtain ⟨notes, -, hleft, hnew⟩ := extend_error ht.closed hext
    rw [hext, hleft]
    exact .noteAll t fun n hn => hnew n (List.mem_filter.mp hn).1

theorem ClosedWorld.expressions_extend (ht : t.ClosedWorld) (e : TypeExpr) :
    (t.extend e).2.expressions = t.expressions := by
  rcases extend_cases t e with ⟨id, t', hid, hfill, -, hext⟩ | ⟨x, hext⟩
  · have hrun := resolves_resolving t e
    rw [hid] at hrun
    rw [hext]
    exact (sameNotes_fillAll hfill).expressions.trans hrun.expressions
  · obtain ⟨notes, -, hleft, -⟩ := extend_error ht.closed hext
    rw [hext, hleft, expressions_noteAll]

/-- A type that was taken up is found from then on. -/
theorem ClosedWorld.recalls_extend (ht : t.ClosedWorld) (h : t.extend e = (.ok id, t')) :
    t'.Recalls (.type e []) [id] := by
  rcases extend_cases t e with ⟨id', u, hid, hfill, -, hext⟩ | ⟨x, hext⟩
  · cases hext.symm.trans h
    have hrun := resolves_resolving t e
    rw [hid] at hrun
    have hsince := since_resolving ht.closed e
    have hext := extends_extend ht.closed e
    rw [h] at hext
    have hfound := hrun.recalls ht.orderly (.start ht.closed) (.start t)
    exact hfound.keep (.fillAll hfill) (hext.positions.trans hsince.extends.positions.symm)
      (hext.names.trans hsince.extends.names.symm)
      (hext.generics.trans hsince.extends.generics.symm)
  · cases hext.symm.trans h

theorem check_size (t : Table) : t.check t.size = .ok () := by
  have hnone : (List.range t.size).drop t.size = [] := by simp
  unfold check checkGuarded
  rw [hnone]
  rfl

/-- A type that is found is taken up without any change. -/
theorem Recalls.extend (h : t.Recalls (.type e []) [id]) : t.extend e = (.ok id, t) := by
  obtain ⟨hid, hw⟩ := Recalls.resolves (w := { table := t }) h
    (resolves_resolving t e)
  have hresult : (t.resolving e).1 = .ok id := by
    cases hresult : (t.resolving e).1 with
    | error x =>
      rw [hresult] at hid
      cases hid
    | ok other =>
      rw [hresult] at hid
      cases hid
      rfl
  refine extend_of_ok hresult ?_ t.check_size
  rw [hw, fillAll]

end Table

end Typewire
