-- Definitions that were resolved have their places. Each type in them has one, what it leads to by
-- names alone stands there, too, and what it holds stands at the places that the place holds.
import Typewire.Proofs.Shape.Chains

namespace Typewire

open Typewire.Language Resolving

variable {ds : List Definition} {known : Declared} {t : Table}

/-- What comes with the table of some definitions that were resolved: it denotes them, it has one
position for each, and every chain of names in them has an end. -/
structure Translated (ds : List Definition) (known : Declared) (t : Table) : Prop where
  plain : Plain ds
  of : Declared.Of ds known
  denoted : Denoted ds known t
  size : t.positions.size = ds.length
  ends : ∀ e, ∃ inner, LeadsTo ds e inner ∧ (known.program ds).target inner = none

/-- A definition that the name or index of a type leads to is one of the definitions. -/
theorem of_target (hof : Declared.Of ds known) {e : TypeExpr} {i : Nat}
    (h : (known.program ds).target e = some i) : Task.Of ds (.definition i) := by
  cases e with
  | index j =>
    simp only [Program.target] at h
    split at h
    · rename_i hlt
      cases h
      exact .index hlt
    · cases h
  | named name args =>
    cases args with
    | nil => exact .declared hof h
    | cons e es => cases h
  | _ => cases h

theorem Workspace.Idle.nested {w : Workspace} (h : w.Idle) (n : Nat) : w.Nested n :=
  fun i u hu => (h.definitions i u hu).elim

/-- A definition that has come to its place is not generic. -/
theorem Resolves.own {p : Program} {room i n : Nat} {w w' : Workspace} {ids : List TypeId}
    (h : Resolves p room (.definition i) n w (.ok ids) w') : w.progressAt i ≠ .generic := by
  cases h with
  | done hi | again hi | defined hi =>
    rw [hi]
    exact Progress.noConfusion

/-- Chains of names have an end wherever nothing is underway any more. -/
theorem leadsTo_of_chained (hof : Declared.Of ds known) {w : Workspace}
    (hchained : w.Chained (known.program ds) 0) (hidle : w.Idle)
    (hdone : ∀ i < ds.length, ∃ id, w.progressAt i = .done id) (e : TypeExpr) :
    ∃ inner, LeadsTo ds e inner ∧ (known.program ds).target inner = none := by
  refine Ends.leadsTo hof hidle (n := 0) ?_
  cases htarget : (known.program ds).target e with
  | none => exact .here
  | some i =>
    obtain ⟨id, hid⟩ := hdone i (of_target hof htarget)
    exact hchained i id hid

/-- At first no plain definition is generic. -/
theorem own_start (hof : Declared.Of ds known) (hplain : Plain ds) {i : Nat} (hi : i < ds.length) :
    (known.start ds).progressAt i ≠ .generic :=
  have hd := List.getElem?_eq_getElem hi
  start_not_generic hof hd (hplain.isGeneric hd)

/-- When every definition was resolved and every place has its shape, the definitions have their
places. -/
theorem translated_of_run (hof : Declared.Of ds known) (hplain : Plain ds) {w : Workspace}
    (hrun : outcome (known.program ds).resolveAll (known.start ds) = (.ok (), w))
    (hfill : fillAll w.table w.aliases = .ok t)
    (hshapes : ∀ id, id < t.size → ∃ shape, t.shape? id = some shape) :
    Translated ds known t := by
  have hsize := size_program ds known
  have hstart : (known.start ds).Chained (known.program ds) 0 := by
    intro i id hi
    rcases progressAt_start_cases hof i with hw | hg
    · cases hw.symm.trans hi
    · cases hg.symm.trans hi
  obtain ⟨⟨hfaithful, hgenerics, hclosed, hchained⟩, hidle, hdone⟩ := resolveAll_keeps
    (P := fun w => w.Faithful (known.program ds) ∧ w.table.generics = known.generics ∧ w.Closed ∧
      w.Chained (known.program ds) 0)
    (fun i w ids w' hw hidle hdef => by
      obtain ⟨hfaithful, hgenerics⟩ := hdef.faithful hw.1
      have hi : i < (known.program ds).definitions.size :=
        hw.1.size ▸ Workspace.lt_of_progressAt hdef.own
      obtain ⟨hchained, -⟩ := hdef.ends hof hplain (.index hi) hw.2.2.2 (hidle.nested _)
      exact ⟨hfaithful, hgenerics.trans hw.2.1, (hdef.closed hw.2.2.1 trivial).closed,
        hchained.of_nested ((hidle.of_returns hdef.returns).nested 0)⟩)
    (waiting_start hof) (idle_start hof) ⟨faithful_start hof, rfl, closed_start hof, hstart⟩ hrun
  refine ⟨hplain, hof, denoted_of_faithful hof hfaithful hidle hgenerics hdone hfill ?_ hshapes, ?_,
    fun e => ?_⟩
  · exact closed_fillAll hfill hclosed.table fun a ha => (hclosed.aliases a ha).1
  · rw [(sameNotes_fillAll hfill).positions, hfaithful.positions, hsize]
  · have hend (i : Nat) (hi : i < ds.length) : ∃ id, w.progressAt i = .done id :=
      hdone i (hsize ▸ hi) (own_start hof hplain hi)
    exact leadsTo_of_chained hof hchained hidle hend e

/-! ## Chains -/

theorem Occurs.leadsTo {e inner : TypeExpr} (h : Occurs ds e) (hleads : LeadsTo ds e inner) :
    Occurs ds inner := by
  induction hleads with
  | refl => exact h
  | index hd _ ih => exact ih (.body (List.mem_of_getElem? hd))
  | named hd _ ih => exact ih (.body (List.mem_of_getElem? hd.1))

namespace Translated

/-- Every type in the definitions has a place. -/
theorem place (h : Translated ds known t) {e : TypeExpr} (he : Occurs ds e) :
    ∃ id, Denotes (known.program ds) t e [] id := by
  induction he with
  | body hd =>
    obtain ⟨i, hi⟩ := List.getElem?_of_mem hd
    obtain ⟨id, -, hbody, -⟩ := h.denoted.definitions i _ hi (h.plain.isGeneric hi)
    exact ⟨id, hbody⟩
  | inside he hinner ih =>
    obtain ⟨id, hdenotes⟩ := ih
    cases hdenotes with
    | built _ hparts =>
      have hargs (name : String) (args : List TypeExpr) (hname : _ = TypeExpr.named name args) :
          args = [] := h.plain.args name args (hname ▸ he)
      rcases parts_of_inside hargs hinner with hok | ⟨x, hx⟩
      · obtain ⟨inner, -, hinner⟩ := hparts.place_of_mem hok
        exact ⟨inner, hinner⟩
      · exact absurd hx (hparts.sound x)
    | index | bound | declared | primitive => cases hinner
    | applied => cases h.plain.args _ _ he

/-- What a type denotes the end of its chain denotes, too. -/
theorem denotes_of_leadsTo (h : Translated ds known t) {e inner : TypeExpr}
    (hleads : LeadsTo ds e inner) {id : TypeId} (hid : Denotes (known.program ds) t e [] id) :
    Denotes (known.program ds) t inner [] id := by
  have hbody {i : Nat} {d : Definition} (hd : ds[i]? = some d) {other : TypeId}
      (hi : t.positions[i]? = some (some other)) (hsame : t.shape? id = t.shape? other) :
      Denotes (known.program ds) t d.body [] id := by
    obtain ⟨other', hi', hbody, -⟩ := h.denoted.definitions i d hd (h.plain.isGeneric hd)
    cases hi.symm.trans hi'
    exact hbody.congr hsame
  induction hleads with
  | refl => exact hid
  | index hd _ ih =>
    obtain ⟨other, hi, hsame⟩ := hid.of_index
    exact ih (hbody hd hi hsame)
  | named hd _ ih =>
    have hposition := h.of.positionOf hd.1 hd.2 (h.plain.isGeneric hd.1)
    rcases hid.of_name with ⟨_, hs, -⟩ | ⟨-, i, other, hname, hi, hsame⟩ | ⟨-, hname, -⟩
    · cases hs
    · cases hposition.symm.trans hname
      exact ih (hbody hd.1 hi hsame)
    · cases hposition.symm.trans hname

/-- A type at the end of its chain is built from its parts, or it is the name of a primitive. -/
theorem own (h : Translated ds known t) {e : TypeExpr} (he : Occurs ds e)
    (htarget : (known.program ds).target e = none) {id : TypeId}
    (hid : Denotes (known.program ds) t e [] id) :
    (∃ ids shape, shapeOver e ids = some shape ∧
        DenoteAll (known.program ds) t (parts e) [] ids ∧ t.shape? id = some shape) ∨
      ∃ name prim, e = .named name [] ∧ Primitive.ofName? name = some prim ∧
        t.shape? id = some (.primitive prim) := by
  cases hid with
  | built hover hparts hid => exact Or.inl ⟨_, _, hover, hparts, hid⟩
  | index hi =>
    have hlt := (Array.getElem?_eq_some_iff.mp hi).1
    rw [Program.target, if_pos (by rwa [size_program, ← h.size])] at htarget
    cases htarget
  | bound hs => cases hs
  | declared _ hname => cases hname.symm.trans htarget
  | primitive _ _ hprim hid => exact Or.inr ⟨_, _, rfl, hprim, hid⟩
  | applied => cases h.plain.args _ _ he

end Translated

end Typewire
