-- Well-formed definitions are accepted. Each shape in their table is what one of the types in them
-- denotes, so it keeps the rules as the type does; and a place that led to itself would make a type
-- that holds itself.
import Typewire.Proofs.Shape.Grounded
import Typewire.Proofs.Shape.Translated
import Typewire.Proofs.Shape.Unfailing

namespace Typewire

open Typewire.Language Resolving

variable {ds : List Definition} {known : Declared} {t : Table}

/-! ## Shapes of types -/

/-- The place holds what one of the types denotes, at the end of its chain of names, in every table
that keeps what is promised. -/
def Workspace.Spells (ds : List Definition) (known : Declared) (w : Workspace) (id : TypeId) :
    Prop :=
  ∃ e, Occurs ds e ∧ (known.program ds).target e = none ∧
    ∀ t, w.KeptBy t → Denotes (known.program ds) t e [] id

/-- Every shape is one of a type. -/
def Workspace.Spelled (ds : List Definition) (known : Declared) (w : Workspace) : Prop :=
  ∀ id s, w.table.shape? id = some s → w.Spells ds known id

namespace Workspace

variable {w w' w'' : Workspace}

theorem Spells.of_refines {id : TypeId} (h : w.Spells ds known id) (hw : w.Refines w') :
    w'.Spells ds known id := by
  obtain ⟨e, he, htarget, hdenotes⟩ := h
  exact ⟨e, he, htarget, fun t ht => hdenotes t (ht.of_refines hw)⟩

/-- What is spelled stays so where each new shape is one of a type. -/
theorem Spelled.grow (h : w.Spelled ds known) (hw : w.Refines w')
    (hnew : ∀ id s, w'.table.shape? id = some s →
      w.table.shape? id = some s ∨ w'.Spells ds known id) : w'.Spelled ds known := by
  intro id s hs
  rcases hnew id s hs with hold | hspells
  · exact (h id s hold).of_refines hw
  · exact hspells

theorem Spelled.intern (h : w.Spelled ds known) (hw : w.Faithful (known.program ds)) {s : Shape}
    {e : TypeExpr} (he : Occurs ds e) (htarget : (known.program ds).target e = none)
    (hdenotes : ∀ t id, w.KeptBy t → t.shape? id = some s → Denotes (known.program ds) t e [] id) :
    (w.intern s).Spelled ds known := by
  refine h.grow (refines_intern w s) fun id s' hs => ?_
  have hself := hw.orderly.reserved.indexed.shape?_intern s
  rcases Table.intern_cases w.table s with ⟨_, -, hi⟩ | ⟨-, hi⟩
  · left
    rw [Workspace.intern, hi] at hs
    exact hs
  · rw [hi] at hself
    rw [Workspace.intern, hi, Table.shape?_push rfl] at hs
    split at hs
    · rename_i hid
      refine Or.inr ⟨e, he, htarget, fun t ht => ?_⟩
      refine hdenotes t id (ht.of_refines (refines_intern w s)) (ht.shapes id s ?_)
      rw [Workspace.intern, hi, hid]
      exact hself
    · exact Or.inl hs

/-- A place that is filled when a definition is done takes the shape of the body. -/
theorem Spelled.finish (h : w.Spelled ds known) (hw : w.Faithful (known.program ds)) {i : Nat}
    {u : Underway} {id id' : TypeId} {label : String} (hu : w.progressAt i = .underway u)
    (hsettle : outcome (settle u id label) w = (.ok id', w')) (name? : Option String) :
    (w'.finishDefinition i name? id').Spelled ds known := by
  have hrefines := refines_finishDefinition hw.orderly hu hsettle name?
  have hself := reservedBy_underway hu
  refine h.grow hrefines fun other s hs => ?_
  rw [Table.shape?_congr (slots_finishDefinition w' i name? id')] at hs
  rcases settle_ok hsettle with ⟨-, -, rfl⟩ | ⟨hslot, hne, s', hs', rfl⟩ | ⟨-, rfl⟩
  · exact Or.inl hs
  · by_cases hother : other = id'
    · subst hother
      obtain ⟨e, he, htarget, hdenotes⟩ := h id s' hs'
      refine Or.inr ⟨e, he, htarget, fun t ht => (hdenotes t (ht.of_refines hrefines)).congr ?_⟩
      have hlt := (hw.orderly.reserved.unfilled _ other (hself.trans hslot)).1
      rw [ht.shapes id s' (hrefines.shapes id s' hs'), ht.shapes other s']
      rw [Table.shape?_congr (slots_finishDefinition _ i name? other)]
      exact Table.shape?_fill_self s' hlt
    · left
      rwa [Table.shape?_fill_ne s' hother] at hs
  · exact Or.inl hs

end Workspace

/-- Whatever is resolved, every shape is one of a type. -/
theorem Resolves.spelled (hof : Declared.Of ds known) (hplain : Plain ds) {room : Nat} {task : Task}
    {n : Nat} {w w' : Workspace} {ids : List TypeId}
    (h : Resolves (known.program ds) room task n w (.ok ids) w') (htask : task.Of ds)
    (hw : w.Faithful (known.program ds)) (hspelled : w.Spelled ds known) : w'.Spelled ds known := by
  induction h using Resolves.ok_induction with
  | cached | againInstance | instantiated => exact htask.elim
  | applied => exact absurd htask (Task.Of.not_applied hplain)
  | nil | placed | bound | known | done => exact hspelled
  | next hfirst _ ih ih' =>
    exact ih' htask.rest (hfirst.arrives hw trivial).faithful (ih htask.first hw hspelled)
  | built hparts hover _ ih =>
    have harrives := hparts.arrives hw trivial
    refine (ih htask.parts hw hspelled).intern harrives.faithful htask.1
      (target_of_shapeOver hover) fun t id ht hid => ?_
    have hdenoted := harrives.denoted t ht
    rw [htask.2] at hdenoted
    exact .built hover hdenoted hid
  | index hlt _ ih => exact ih (.index hlt) hw hspelled
  | declared _ hname _ ih => exact ih (.declared hof hname) hw hspelled
  | primitive _ hname _ hprim =>
    have htarget : (known.program ds).target (.named _ []) = none := hname
    exact hspelled.intern hw htask.1 htarget fun t id _ hid => .primitive rfl hname hprim hid
  | again hi hmeet =>
    refine hspelled.grow (hw.meetDefinition hi hmeet).1 fun id s hs => Or.inl ?_
    exact (Workspace.shape?_meetAgain hmeet id).symm.trans hs
  | defined hi hbody hu hsettle ih =>
    obtain ⟨henter, hentered⟩ := hw.enterDefinition hi _
    exact (ih htask.body hentered (hspelled.grow henter fun _ _ hs => Or.inl hs)).finish
      (hbody.arrives hentered trivial).faithful hu hsettle _

/-! ## Rules -/

/-- A type that leads to another by names holds what that holds. -/
theorem LeadsTo.path {e inner : TypeExpr} (h : LeadsTo ds e inner) :
    Relation.ReflTransGen (Contains ds) (.type e) (.type inner) := by
  induction h with
  | refl => exact .refl
  | index hd _ ih => exact .head .index (.head (.body hd) ih)
  | named hd _ ih => exact .head (.named hd) (.head (.body hd.1) ih)

namespace Translated

/-- A place leads to no cycle where it holds what a type denotes that leads to none. -/
theorem acc_of_grounded (h : Translated ds known t) {e : TypeExpr}
    (hgrounded : Grounded ds (.type e)) (he : Occurs ds e) {id : TypeId}
    (hid : Denotes (known.program ds) t e [] id) :
    Acc (t.Holds 0) id := by
  have hacc := acc_transGen_iff.mpr hgrounded
  generalize hpart : Part.type e = part at hacc
  clear hgrounded
  induction hacc generalizing e id with
  | intro part _ ih =>
    subst hpart
    obtain ⟨inner, hleads, htarget⟩ := h.ends e
    have hinner := he.leadsTo hleads
    refine Acc.intro id fun child hchild => ?_
    rcases h.own hinner htarget (h.denotes_of_leadsTo hleads hid) with
      ⟨ids, shape, hover, hparts, hshape⟩ | ⟨name, prim, -, -, hshape⟩
    · have hmem := hchild.1
      rw [Table.unguarded, hshape] at hmem
      obtain ⟨e', he', hdenotes⟩ := (hparts.held hover).type_of_mem hmem
      obtain ⟨e'', hheld, hsame⟩ := List.mem_map.mp he'
      cases hsame
      refine ih (.type e') ?_ (hinner.inside (TypeExpr.inside_of_held hheld)) hdenotes rfl
      exact Relation.transGen_swap.mpr (.tail' hleads.path (.held hheld))
    · have hmem := hchild.1
      rw [Table.unguarded, hshape] at hmem
      cases hmem

/-- A type that leads to an unsigned integer by names stands at one. -/
theorem unsigned (h : Translated ds known t) (hwf : WellFormed ds) {e : TypeExpr}
    (he : Occurs ds (.compact e)) {id : TypeId} (hid : Denotes (known.program ds) t e [] id) :
    t.isUnsigned id = true := by
  obtain ⟨inner, hleads, hunsigned⟩ := hwf.compacts e he
  have hinner := h.denotes_of_leadsTo hleads hid
  have hprimitive {name : String} {prim : Primitive} (hname : Primitive.ofName? name = some prim)
      (hany : (Primitive.ofName? name).any (·.isUnsigned) = true)
      (hshape : t.shape? id = some (.primitive prim)) : t.isUnsigned id = true := by
    rw [hname] at hany
    rw [Table.isUnsigned, hshape]
    exact hany
  cases inner with
  | primitive name =>
    obtain ⟨ids, shape, hover, -, hshape⟩ :=
      hinner.of_built (fun _ _ => TypeExpr.noConfusion) fun _ => TypeExpr.noConfusion
    obtain ⟨prim, hname, rfl⟩ := Option.map_eq_some_iff.mp hover
    exact hprimitive hname hunsigned hshape
  | named name args =>
    cases args with
    | nil =>
      rcases hinner.of_name with ⟨_, hs, -⟩ | ⟨-, i, _, hname, -⟩ | ⟨-, -, prim, hname, hshape⟩
      · cases hs
      · obtain ⟨d, hd, hdname, -⟩ := h.of.position name i hname
        have hfree := hwf.unreserved i d name ⟨hd, hdname⟩
        rw [Primitive.isName, Option.isSome_eq_false_iff, Option.isNone_iff_eq_none] at hfree
        rw [TypeExpr.isUnsigned, hfree] at hunsigned
        cases hunsigned
      · exact hprimitive hname hunsigned hshape
    | cons => cases hunsigned
  | _ => cases hunsigned

theorem lt_size (h : Translated ds known t) {e : TypeExpr} {id : TypeId}
    (hid : Denotes (known.program ds) t e [] id) : id < t.size := by
  obtain ⟨s, hs⟩ := h.denoted.shape_of_writtenAs ⟨hid, fun _ _ hs => by cases hs⟩
  exact Table.lt_size_of_shape? hs

/-- The shape of a well-formed type keeps the rules for one shape. -/
theorem sound (h : Translated ds known t) (hwf : WellFormed ds) {e : TypeExpr} (he : Occurs ds e)
    (htarget : (known.program ds).target e = none) {id : TypeId}
    (hid : Denotes (known.program ds) t e [] id) {s : Shape} (hs : t.shape? id = some s) :
    s.check = .ok () := by
  rcases h.own he htarget hid with ⟨ids, shape, hover, -, hshape⟩ | ⟨_, prim, -, -, hshape⟩
  · cases hs.symm.trans hshape
    exact hwf.check he hover
  · cases hs.symm.trans hshape
    rfl

/-- The place of a well-formed type keeps the rules for one place. -/
theorem checked (h : Translated ds known t) (hwf : WellFormed ds) {e : TypeExpr} (he : Occurs ds e)
    (htarget : (known.program ds).target e = none) {id : TypeId}
    (hid : Denotes (known.program ds) t e [] id) : t.Checked id := by
  rcases h.own he htarget hid with ⟨ids, shape, hover, hparts, hshape⟩ | ⟨_, prim, -, -, hshape⟩
  · refine ⟨⟨shape, hshape⟩, fun s hs child hchild => ?_, fun inner hs => ?_⟩
    · cases hs.symm.trans hshape
      obtain ⟨_, -, hdenotes⟩ := hparts.type_of_mem (references_shapeOver hover child hchild)
      exact h.lt_size hdenotes
    · cases hs.symm.trans hshape
      obtain ⟨e, rfl, rfl⟩ := compact_of_shapeOver hover
      cases hparts with
      | cons hinner _ => exact h.unsigned hwf he hinner
  · refine ⟨⟨_, hshape⟩, fun s hs child hchild => ?_, fun inner hs => ?_⟩
    · cases hs.symm.trans hshape
      cases hchild
    · cases hs.symm.trans hshape

/-- The table of well-formed definitions keeps the rules where its shapes are those of types. -/
theorem check (h : Translated ds known t) (hwf : WellFormed ds)
    (hspelled : ∀ id < t.size, ∃ e, Occurs ds e ∧ (known.program ds).target e = none ∧
      Denotes (known.program ds) t e [] id) : t.check 0 = .ok () := by
  have hsound : t.Sound := by
    intro id s hs
    obtain ⟨e, he, htarget, hid⟩ := hspelled id (Table.lt_size_of_shape? hs)
    exact h.sound hwf he htarget hid hs
  have hchecked : ∀ id < t.size, t.Checked id := by
    intro id hlt
    obtain ⟨e, he, htarget, hid⟩ := hspelled id hlt
    exact h.checked hwf he htarget hid
  have hgrounded : t.Grounded := by
    refine .of_places fun id hlt => ?_
    obtain ⟨e, he, -, hid⟩ := hspelled id hlt
    exact h.acc_of_grounded (hwf.grounded e) he hid
  exact hgrounded.check hchecked hsound 0

end Translated

/-! ## Declaring and resolving -/

namespace Declared

/-- A new name of a definition without parameters can be declared. -/
theorem add_ok {front : List Definition} {start : Declared} (hof : Of front start) {d : Definition}
    (hparams : d.params = [])
    (hname : ∀ name, d.name = some name → Primitive.isName name = false ∧
      ∀ (i : Nat) (x : Definition), front[i]? = some x → x.name ≠ some name) :
    ∃ known, start.add d = .ok known := by
  unfold add
  cases hd : d.name with
  | none => exact ⟨_, rfl⟩
  | some name =>
    obtain ⟨hprim, hnew⟩ := hname name hd
    have hcontains : start.contains name = false := by
      unfold contains
      cases hposition : start.positionOf.lookup name with
      | some i =>
        obtain ⟨x, hx, hxname, -⟩ := hof.position name i hposition
        exact absurd hxname (hnew i x hx)
      | none =>
        cases hgeneric : start.generics.lookup name with
        | some g =>
          obtain ⟨i, x, hx, hxname, -⟩ := hof.generic name g hgeneric
          exact absurd hxname (hnew i x hx)
        | none => rfl
    have hproblem : start.problem? name d.params = none := by
      simp [problem?, hprim, hcontains, hparams]
    simp only [hproblem]
    split
    · exact ⟨_, rfl⟩
    · exact ⟨_, rfl⟩

/-- The names of well-formed definitions can be declared. -/
theorem all_ok (hplain : Plain ds) (hwf : WellFormed ds) : ∃ known, all ds = .ok known := by
  have hfold : ∀ (rest front : List Definition) (start : Declared), Of front start →
      front ++ rest = ds → ∃ known, rest.foldlM Declared.add start = .ok known := by
    intro rest
    induction rest with
    | nil => exact fun _ start _ _ => ⟨start, rfl⟩
    | cons d rest ih =>
      rintro front start hof hds
      have hd : ds[front.length]? = some d := by
        rw [← hds, List.getElem?_append_right (Nat.le_refl _), Nat.sub_self]
        rfl
      obtain ⟨mid, hmid⟩ := add_ok hof (hplain.params d (List.mem_of_getElem? hd))
        fun name hname => by
          refine ⟨hwf.unreserved _ _ _ ⟨hd, hname⟩, fun i x hx hxname => ?_⟩
          have hlt := (List.getElem?_eq_some_iff.mp hx).1
          have hx' : ds[i]? = some x := by rw [← hds, List.getElem?_append_left hlt, hx]
          have hsame := hwf.distinct _ _ _ _ _ ⟨hx', hxname⟩ ⟨hd, hname⟩
          exact absurd hsame (Nat.ne_of_lt hlt)
      obtain ⟨known, hknown⟩ := ih (front ++ [d]) mid (hof.add hmid) (by simpa using hds)
      refine ⟨known, ?_⟩
      rw [List.foldlM_cons, hmid]
      exact hknown
  exact hfold ds [] {} .empty rfl

/-- There are no generic bodies to look over. -/
theorem checkBodies_ok (hplain : Plain ds) (known : Declared) : known.checkBodies ds = .ok () := by
  refine forM_of fun q hq => ?_
  obtain ⟨d, i⟩ := q
  have hd : ds[i]? = some d := List.mk_mem_zipIdx_iff_getElem?.mp hq
  exact if_neg (by rw [hplain.isGeneric hd]; simp)

end Declared

/-- Where each definition in turn is resolved without fail, all of them are. -/
theorem resolveAll_ok {p : Program} {P : Workspace → Prop}
    (hstep : ∀ i w r w', i < p.definitions.size → P w → w.Idle →
      Resolves p maxInstances (.definition i) 0 w r w' → (∃ ids, r = .ok ids) ∧ P w')
    {w : Workspace} (hw : w.waiting ≤ p.definitions.size) (hidle : w.Idle) (hP : P w) :
    ∃ w', outcome p.resolveAll w = (.ok (), w') ∧ P w' ∧ w'.Idle := by
  have hall : ∀ (positions : List Nat) (w : Workspace), (∀ i ∈ positions, i < p.definitions.size) →
      w.waiting ≤ p.definitions.size → w.Idle → P w →
      ∃ w', outcome (positions.forM p.resolveNext) w = (.ok (), w') ∧ P w' ∧ w'.Idle := by
    intro positions
    induction positions with
    | nil => exact fun w _ _ hidle hP => ⟨w, rfl, hP, hidle⟩
    | cons i positions ih =>
      intro w hin hw hidle hP
      obtain ⟨hi, hin⟩ := List.forall_mem_cons.mp hin
      change ∃ w', outcome (p.resolveNext i >>= fun _ => positions.forM p.resolveNext) w = _ ∧ _
      by_cases hgeneric : w.progressAt i = .generic
      · rw [outcome_bind_ok (outcome_resolveNext_generic hgeneric)]
        exact ih w hin hw hidle hP
      · have hdef := (resolves_resolve p (.index i) [] 0 hw).of_index hi
        obtain ⟨⟨ids, hids⟩, hP'⟩ := hstep i w _ _ hi hP hidle hdef
        rcases ho : outcome (p.resolve (.index i) [] 0) w with ⟨x | id, w'⟩
        · rw [ho] at hids
          cases hids
        · rw [ho] at hdef hP'
          rw [outcome_bind_ok ((outcome_resolveNext hgeneric).trans (outcome_bind_ok ho _))]
          exact ih w' hin (Nat.le_trans hdef.continues.waiting hw)
            (hidle.of_returns hdef.returns) hP'
  exact hall (List.range p.definitions.size) w (fun i hi => List.mem_range.mp hi) hw hidle hP

/-! ## The table -/

/-- At first nothing is resolved. -/
theorem clear_start (hof : Declared.Of ds known) (hplain : Plain ds) :
    (known.start ds).Clear ds known where
  faithful := faithful_start hof
  closed := closed_start hof
  instances _ := rfl
  own _ hi := own_start hof hplain hi
  aliases := rfl
  linked _ _ k u _ hk := ((idle_start hof).definitions k u hk).elim

theorem ofDefinitions_of {w : Workspace} (hall : Declared.all ds = .ok known)
    (hbodies : known.checkBodies ds = .ok ())
    (hrun : outcome (known.program ds).resolveAll (known.start ds) = (.ok (), w))
    (hfill : fillAll w.table w.aliases = .ok t) (hcheck : t.check 0 = .ok ()) :
    Table.ofDefinitions ds = .ok t := by
  unfold Table.ofDefinitions
  rw [hall]
  change (known.checkBodies ds >>= fun _ =>
    match outcome (known.program ds).resolveAll (known.start ds) with
    | (result, w) => (do
      result
      let t ← fillAll w.table w.aliases
      t.check 0
      return t : Except ResolveError Table)) = .ok t
  rw [hbodies, hrun]
  change (fillAll w.table w.aliases >>= fun t => t.check 0 >>= fun _ => pure t) = .ok t
  rw [hfill]
  change (t.check 0 >>= fun _ => pure t) = .ok t
  rw [hcheck]
  rfl

/-- What is well formed is accepted. -/
theorem WellFormed.accepted (hwf : WellFormed ds) (hplain : Plain ds) :
    ∃ t, Table.ofDefinitions ds = .ok t := by
  obtain ⟨known, hall⟩ := Declared.all_ok hplain hwf
  have hof := Declared.of_all hall
  obtain ⟨w, hrun, ⟨hclear, hspelled⟩, hidle⟩ := resolveAll_ok
    (P := fun w => w.Clear ds known ∧ w.Spelled ds known)
    (fun i w r w' hi hw hidle hdef => by
      have htask : Task.Of ds (.definition i) := .index hi
      have hsucceeds := hdef.succeeds hof hplain hwf htask trivial hw.1
        (.of_nested (hidle.nested 0) _)
      obtain ⟨ids, rfl⟩ := hsucceeds.ok
      exact ⟨⟨ids, rfl⟩, hw.1.of_resolves hdef htask hsucceeds.aliases hsucceeds.linked,
        hdef.spelled hof hplain htask hw.1.faithful hw.2⟩)
    (waiting_start hof) (idle_start hof)
    ⟨clear_start hof hplain, fun id s hs => by simp [Declared.start, Table.shape?] at hs⟩
  have hfill : fillAll w.table w.aliases = .ok w.table := by
    rw [hclear.aliases]
    unfold fillAll
    rfl
  have hshapes : ∀ id, id < w.table.size → ∃ shape, w.table.shape? id = some shape := by
    intro id hid
    cases hs : w.table.shape? id with
    | some shape => exact ⟨shape, rfl⟩
    | none =>
      obtain ⟨k, u, hk, -⟩ := hclear.holder hid hs
      exact (hidle.definitions k u hk).elim
  have htranslated := translated_of_run hof hplain hrun hfill hshapes
  have hkept := hclear.faithful.keptBy_fillAll hidle hfill
  refine ⟨w.table, ofDefinitions_of hall (Declared.checkBodies_ok hplain known) hrun hfill
    (htranslated.check hwf fun id hid => ?_)⟩
  obtain ⟨shape, hs⟩ := hshapes id hid
  obtain ⟨e, he, htarget, hdenotes⟩ := hspelled id shape hs
  exact ⟨e, he, htarget, hdenotes w.table hkept⟩

end Typewire
