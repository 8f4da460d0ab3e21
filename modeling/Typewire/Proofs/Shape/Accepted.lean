-- Accepted definitions are well formed. Each type in them has its place in the table, so what is
-- checked of places is true of types; and as chains of names end, a type that held itself would
-- be a place that leads to itself.
import Typewire.Proofs.Shape.Translated
import Typewire.Proofs.Shape.World

namespace Typewire

open Typewire.Language Resolving

variable {ds : List Definition} {known : Declared} {t : Table}

/-- The table of definitions that are accepted keeps the rules. -/
structure Accepted (ds : List Definition) (known : Declared) (t : Table) : Prop extends
    Translated ds known t where
  checked : t.check 0 = .ok ()

theorem accepted_ofDefinitions (hplain : Plain ds) (h : Table.ofDefinitions ds = .ok t) :
    ∃ known, Accepted ds known t := by
  obtain ⟨known, w, hall, -, hrun, hfill, hcheck⟩ := ofDefinitions_ok h
  have htranslated := translated_of_run (Declared.of_all hall) hplain hrun hfill
    fun id => shapes_of_check hcheck
  exact ⟨known, htranslated, hcheck⟩

/-- A type leads to one definition at most, so it is grounded when the end of its chain is. -/
theorem grounded_of_leadsTo
    (hdistinct : ∀ {i j d x name}, Declares ds i d name → Declares ds j x name → i = j)
    {e inner : TypeExpr} (hleads : LeadsTo ds e inner) (h : Grounded ds (.type inner)) :
    Grounded ds (.type e) := by
  have hdefinition {i : Nat} {d : Definition} (hd : ds[i]? = some d)
      (hbody : Grounded ds (.type d.body)) : Grounded ds (.definition i) := by
    refine Acc.intro _ fun part hpart => ?_
    cases hpart with
    | body hd' =>
      cases hd.symm.trans hd'
      exact hbody
  induction hleads with
  | refl => exact h
  | index hd _ ih =>
    refine Acc.intro _ fun part hpart => ?_
    cases hpart with
    | index => exact hdefinition hd (ih h)
    | held hinner => cases hinner
  | named hd _ ih =>
    refine Acc.intro _ fun part hpart => ?_
    cases hpart with
    | named hd' =>
      cases hdistinct hd hd'
      exact hdefinition hd.1 (ih h)
    | held hinner => cases hinner

namespace Accepted

theorem distinct (h : Accepted ds known t) {i j : Nat} {d x : Definition} {name : String}
    (hd : Declares ds i d name) (hx : Declares ds j x name) : i = j :=
  h.of.distinct i j d x name hd.1 hx.1 hd.2 hx.2

/-- A type is grounded where its place is. -/
theorem grounded_of_acc (h : Accepted ds known t) {id : TypeId}
    (hacc : Acc (t.Holds 0) id) {e : TypeExpr} (he : Occurs ds e)
    (hid : Denotes (known.program ds) t e [] id) : Grounded ds (.type e) := by
  -- By induction on the place, not on the type: names do not lead to other places.
  induction hacc generalizing e with
  | intro id _ ih =>
    obtain ⟨inner, hleads, htarget⟩ := h.ends e
    have hinner := he.leadsTo hleads
    refine grounded_of_leadsTo h.distinct hleads (Acc.intro _ fun part hpart => ?_)
    cases hpart with
    | index =>
      refine grounded_past (Nat.le_of_not_lt fun hlt => ?_)
      rw [Program.target, if_pos (by rwa [size_program])] at htarget
      cases htarget
    | named hd =>
      cases h.plain.args _ _ hinner
      rw [Program.target] at htarget
      cases (h.of.positionOf hd.1 hd.2 (h.plain.isGeneric hd.1)).symm.trans htarget
    | held hheld =>
      rcases h.own hinner htarget (h.denotes_of_leadsTo hleads hid) with
        ⟨ids, shape, hover, hparts, hshape⟩ | ⟨name, prim, rfl, -⟩
      · obtain ⟨child, hchild, hdenotes⟩ :=
          (hparts.held hover).place_of_mem (List.mem_map_of_mem hheld)
        refine ih child ⟨?_, Nat.zero_le _⟩ (hinner.inside (TypeExpr.inside_of_held hheld)) hdenotes
        rw [Table.unguarded, hshape]
        exact hchild
      · cases hheld

/-! ## Rules -/

theorem acyclic (h : Accepted ds known t) (part : Part) :
    ¬ Relation.TransGen (Contains ds) part part := by
  obtain ⟨u, -, hguarded⟩ := except_bind_ok h.checked
  have hdefinition (i : Nat) : Grounded ds (.definition i) := by
    refine Acc.intro _ fun part hpart => ?_
    cases hpart with
    | body hd =>
      have hbody := Occurs.body (List.mem_of_getElem? hd)
      obtain ⟨id, hid⟩ := h.place hbody
      exact h.grounded_of_acc (Table.acc_of_checkGuarded hguarded (Nat.zero_le id)) hbody hid
  refine acyclic_of_grounded (fun part => ?_) part
  cases part with
  | definition i => exact hdefinition i
  | type e => exact grounded_type e fun i _ => hdefinition i

/-- A built type has a place with its shape, over places that its parts denote. -/
theorem built (h : Accepted ds known t) {e : TypeExpr} (he : Occurs ds e)
    (hindex : ∀ i, e ≠ .index i) (hnamed : ∀ name args, e ≠ .named name args) :
    ∃ ids shape, shapeOver e ids = some shape ∧
      DenoteAll (known.program ds) t (parts e) [] ids ∧ shape.check = .ok () ∧
      ∃ id, t.shape? id = some shape := by
  obtain ⟨id, hid⟩ := h.place he
  obtain ⟨ids, shape, hover, hparts, hshape⟩ := hid.of_built hnamed hindex
  have hsound := Table.sound_of_check h.checked fun id s hlt => absurd hlt (Nat.not_lt_zero id)
  exact ⟨ids, shape, hover, hparts, hsound id shape hshape, id, hshape⟩

theorem enum (h : Accepted ds known t)
    {vs : List (String × Option TypeExpr × Option Nat)} (he : Occurs ds (.enum vs)) :
    (vs.length ≤ 256 ∧ (vs.map (·.1)).Nodup) ∧
      (writtenTags vs 0).Nodup ∧ ∀ tag ∈ writtenTags vs 0, tag ≤ 255 := by
  obtain ⟨ids, shape, hover, hparts, hcheck, -⟩ :=
    h.built he (fun _ => TypeExpr.noConfusion) fun _ _ => TypeExpr.noConfusion
  obtain ⟨hfew, htags⟩ := parts_enum_sound.mp hparts.sound
  cases hover
  obtain ⟨-, hnames, hnodup⟩ := (check_variantsOver htags ids).mp hcheck
  exact ⟨⟨hfew, hnames⟩, hnodup, htags⟩

theorem struct (h : Accepted ds known t) {fs : List (String × TypeExpr)}
    (he : Occurs ds (.struct fs)) : (fs.map (·.1)).Nodup := by
  obtain ⟨ids, shape, hover, hparts, hcheck, -⟩ :=
    h.built he (fun _ => TypeExpr.noConfusion) fun _ _ => TypeExpr.noConfusion
  have hlength : ids.length = fs.length := by simpa [parts] using hparts.length
  cases hover
  rw [check_struct_iff, names_fieldsOver hlength] at hcheck
  exact hcheck

/-- A type that denotes a primitive has that at the end of its chain. -/
theorem isUnsigned (h : Accepted ds known t) {e : TypeExpr} (he : Occurs ds e)
    {id : TypeId} (hid : Denotes (known.program ds) t e [] id)
    (hunsigned : t.isUnsigned id = true) :
    ∃ inner, LeadsTo ds e inner ∧ inner.isUnsigned = true := by
  obtain ⟨inner, hleads, htarget⟩ := h.ends e
  refine ⟨inner, hleads, ?_⟩
  obtain ⟨width, hprim⟩ := Table.shape?_of_isUnsigned hunsigned
  rcases h.own (he.leadsTo hleads) htarget (h.denotes_of_leadsTo hleads hid) with
    ⟨ids, shape, hover, -, hshape⟩ | ⟨name, prim, rfl, hname, hshape⟩
  · cases hprim.symm.trans hshape
    obtain ⟨name, rfl, hname⟩ := primitive_of_shapeOver hover
    rw [TypeExpr.isUnsigned, hname]
    rfl
  · cases hprim.symm.trans hshape
    rw [TypeExpr.isUnsigned, hname]
    rfl

theorem compact (h : Accepted ds known t) {e : TypeExpr}
    (he : Occurs ds (.compact e)) : ∃ inner, LeadsTo ds e inner ∧ inner.isUnsigned = true := by
  obtain ⟨ids, shape, hover, hparts, -, id, hshape⟩ :=
    h.built he (fun _ => TypeExpr.noConfusion) fun _ _ => TypeExpr.noConfusion
  cases hparts with
  | cons hinner hrest =>
    cases hrest
    cases hover
    have hchecked :=
      Table.checked_of_check h.checked (Nat.zero_le id) (Table.lt_size_of_shape? hshape)
    exact h.isUnsigned (he.inside List.mem_cons_self) hinner (hchecked.unsigned _ hshape)

/-- What is accepted is well formed. -/
theorem wellFormed (h : Accepted ds known t) : WellFormed ds where
  unreserved i d name hd := (h.of.named i d name hd.1 hd.2).1
  distinct _ _ _ _ _ := h.distinct
  primitives name he := by
    obtain ⟨ids, shape, hover, -⟩ :=
      h.built he (fun _ => TypeExpr.noConfusion) fun _ _ => TypeExpr.noConfusion
    obtain ⟨prim, hname, -⟩ := Option.map_eq_some_iff.mp hover
    rw [Primitive.isName, hname]
    rfl
  indices i he := by
    obtain ⟨id, hid⟩ := h.place he
    obtain ⟨other, hi, -⟩ := hid.of_index
    exact h.size ▸ (Array.getElem?_eq_some_iff.mp hi).1
  names name he := by
    obtain ⟨id, hid⟩ := h.place he
    rcases hid.of_name with ⟨_, hs, -⟩ | ⟨-, i, other, hname, -⟩ | ⟨-, -, prim, hprim, -⟩
    · cases hs
    · obtain ⟨d, hd, hdname, -⟩ := h.of.position name i hname
      exact Or.inl ⟨i, d, hd, hdname⟩
    · exact Or.inr (by rw [Primitive.isName, hprim]; rfl)
  variants vs he := (h.enum he).1
  tags vs he := (h.enum he).2
  fields fs he := h.struct he
  compacts e he := h.compact he
  acyclic := h.acyclic

end Accepted

end Typewire
