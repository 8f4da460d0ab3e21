-- What places are called. A label is the name of a definition, or a generic type with its arguments
-- as texts. That is so whether resolving succeeds or fails, and it stays so as a table grows.
import Typewire.Proofs.Shape.Labels
import Typewire.Proofs.Shape.TextLength

namespace Typewire

open Typewire.Language Resolving

variable {p : Program} {w w' w'' : Workspace} {t t' : Table}

/-! ## Names and instances -/

/-- The label is a generic name with texts as its arguments. -/
def CallsInstance (generics : List (String × Generic)) (label : String) : Prop :=
  ∃ name ∈ generics.map (·.1), ∃ texts, label = name ++ "<" ++ commaJoined texts ++ ">"

/-- The label is the name of a definition, or it calls a generic instance. -/
def Table.Calls (t : Table) (label : String) : Prop :=
  label ∈ t.names.map (·.1) ++ t.generics.map (·.1) ∨ CallsInstance t.generics label

/-- All places that have labels are called by them. -/
def Table.Called (t : Table) : Prop := ∀ q ∈ t.labels, t.Calls q.2

theorem callsInstance_instanceLabel {generics : List (String × Generic)} {g : Generic}
    {key : InstanceKey} (h : generics.lookup key.name = some g) (t : Table) :
    CallsInstance generics (Program.instanceLabel t key) :=
  ⟨key.name, List.mem_map_of_mem (mem_of_lookup h), key.args.map t.text, rfl⟩

/-! ## While types are resolved -/

/-- The label is the name of a definition, or it calls a generic instance. -/
def Program.Calls (p : Program) (generics : List (String × Generic)) (label : String) : Prop :=
  (∃ i, (p.definitionAt i).name = some label) ∨ CallsInstance generics label

/-- No generic definition is new, and what is labelled anew is called by its name. -/
structure Workspace.Relabels (p : Program) (w w' : Workspace) : Prop where
  generics : w'.table.generics = w.table.generics
  labels : ∀ q ∈ w'.table.labels, q ∈ w.table.labels ∨ p.Calls w.table.generics q.2

namespace Workspace.Relabels

theorem of_eq (hgenerics : w'.table.generics = w.table.generics)
    (hlabels : w'.table.labels = w.table.labels) : w.Relabels p w' :=
  ⟨hgenerics, fun _ hq => Or.inl (hlabels ▸ hq)⟩

theorem refl (w : Workspace) : w.Relabels p w := of_eq rfl rfl

/-- What is underway does not matter. -/
theorem congr {v v' : Workspace} (h : v.Relabels p v') (hw : w.table = v.table)
    (hw' : w'.table = v'.table) : w.Relabels p w' := by
  refine ⟨?_, ?_⟩
  · rw [hw, hw', h.generics]
  · rw [hw, hw']
    exact h.labels

theorem trans (h : w.Relabels p w') (h' : w'.Relabels p w'') : w.Relabels p w'' where
  generics := h'.generics.trans h.generics
  labels q hq := by
    rcases h'.labels q hq with hold | hnew
    · exact h.labels q hold
    · exact Or.inr (h.generics ▸ hnew)

theorem intern (w : Workspace) (s : Shape) : w.Relabels p (w.intern s) :=
  of_eq (Table.SameNotes.intern s).generics (labels_intern s)

theorem meetAgain {u : Underway} {n : Nat} {label : String} {reservedLabel : Option String} {r}
    (h : outcome (meetAgain u n label reservedLabel) w = (r, w'))
    (hlabel : ∀ text, reservedLabel = some text → p.Calls w.table.generics text) :
    w.Relabels p w' := by
  cases r with
  | error x =>
    rcases meetAgain_cases u n label reservedLabel w with ⟨-, ho⟩ | ⟨-, _, -, ho⟩ | ⟨-, -, ho⟩
    · cases ho.symm.trans h
      exact refl w
    · cases ho.symm.trans h
    · cases ho.symm.trans h
  | ok result =>
    obtain ⟨slot, u'⟩ := result
    refine ⟨(Table.SameNotes.meetAgain h).generics, fun q hq => ?_⟩
    exact (labels_meetAgain h hq).imp_right fun hnew => hlabel q.2 hnew.2

theorem settle {u : Underway} {id : TypeId} {label : String} {r}
    (h : outcome (settle u id label) w = (r, w')) : w.Relabels p w' := by
  cases r with
  | error x =>
    rcases settle_cases u id label w with
      ⟨-, ho⟩ | ⟨_, -, ⟨-, ho⟩ | ⟨_, -, -, ho⟩ | ⟨-, -, ho⟩⟩
    · cases ho.symm.trans h
    · cases ho.symm.trans h
      exact refl w
    · cases ho.symm.trans h
    · cases ho.symm.trans h
  | ok id' => exact of_eq (Table.SameNotes.settle h).generics (labels_settle h).1

theorem finishDefinition (w : Workspace) (i : Nat) (id : TypeId) :
    w.Relabels p (w.finishDefinition i (p.definitionAt i).name id) := by
  refine ⟨(notes_finishDefinition w i _ id).2.2.1, fun q hq => ?_⟩
  unfold Workspace.finishDefinition at hq
  cases hname : (p.definitionAt i).name with
  | none =>
    rw [hname] at hq
    exact Or.inl hq
  | some name =>
    rw [hname] at hq
    rcases labels_bindName hq with hold | rfl
    · exact Or.inl hold
    · exact Or.inr (Or.inl ⟨i, hname⟩)

theorem finishInstance (w : Workspace) {key : InstanceKey} {label : String} (id : TypeId)
    (h : p.Calls w.table.generics label) : w.Relabels p (w.finishInstance key label id) := by
  refine ⟨(notes_finishInstance w key label id).2.2.1, fun q hq => ?_⟩
  rcases labels_setLabel hq with hold | rfl
  · exact Or.inl hold
  · exact Or.inr h

end Workspace.Relabels

/-- Whatever is resolved, also where that fails, the labels that are new call their places. -/
theorem Resolves.relabels {room : Nat} {task : Task} {n : Nat}
    {r : Except ResolveError (List TypeId)} (h : Resolves p room task n w r w')
    (hknown : task.Known w) : w.Relabels p w' := by
  induction h with
  | nil | fault | placed | bound | known | unknown | refused | tooDeep | done | bare | cached =>
    exact .refl _
  | stop _ ih | unbuilt _ ih | unsound _ _ _ ih | index _ _ ih | declared _ _ _ ih
  | unapplied _ _ ih => exact ih trivial
  | next _ _ ih ih' => exact (ih trivial).trans (ih' trivial)
  | built _ _ _ ih => exact (ih trivial).trans (.intern _ _)
  | primitive => exact .intern _ _
  | applied hg _ _ ih ih' =>
    have hparts := ih trivial
    refine hparts.trans (ih' ?_)
    rw [Task.Known, hparts.generics]
    exact (genericOf_ok hg).1
  | flat _ hmeet => exact .meetAgain hmeet fun _ hname => Or.inl ⟨_, hname⟩
  | again _ hmeet =>
    have hslot : Workspace.Relabels p _ _ := .meetAgain hmeet fun _ hname => Or.inl ⟨_, hname⟩
    exact hslot.congr rfl rfl
  | failed _ _ ih => exact (ih trivial).congr rfl rfl
  | endless _ _ _ hsettle ih => exact ((ih trivial).trans (.settle hsettle)).congr rfl rfl
  | defined _ _ _ hsettle ih =>
    exact (((ih trivial).trans (.settle hsettle)).trans (.finishDefinition _ _ _)).congr rfl rfl
  | flatInstance _ _ hmeet =>
    refine .meetAgain hmeet fun _ hlabel => Or.inr ?_
    cases hlabel
    exact callsInstance_instanceLabel hknown _
  | againInstance _ _ hmeet =>
    have hslot : Workspace.Relabels p _ _ := .meetAgain hmeet fun _ hlabel => Or.inr (by
      cases hlabel
      exact callsInstance_instanceLabel hknown _)
    exact hslot.congr rfl rfl
  | failedInstance _ _ _ ih => exact (ih trivial).congr rfl rfl
  | endlessInstance _ _ _ _ hsettle ih =>
    have hsettled : Workspace.Relabels p _ _ := .settle hsettle
    exact ((ih trivial).trans (hsettled.congr rfl rfl)).congr rfl rfl
  | instantiated _ _ _ _ hsettle ih =>
    have hsettled : Workspace.Relabels p _ _ := .settle hsettle
    have hbody := (ih trivial).trans (hsettled.congr rfl rfl)
    refine Workspace.Relabels.congr (hbody.trans (.finishInstance _ _ (Or.inr ?_))) rfl rfl
    rw [hbody.generics]
    exact callsInstance_instanceLabel hknown _

/-! ## Tables -/

namespace Table

/-- Labels go on to call their places where names are added. -/
theorem Calls.mono {label : String} (h : t.Calls label) (hnames : t.names ⊆ t'.names)
    (hgenerics : t'.generics = t.generics) : t'.Calls label := by
  rw [Calls, hgenerics]
  refine h.imp_left fun hname => ?_
  rcases List.mem_append.mp hname with hname | hname
  · exact List.mem_append_left _ (List.map_subset _ hnames hname)
  · exact List.mem_append_right _ hname

theorem Called.intern (h : t.Called) (s : Shape) : (t.intern s).2.Called := by
  have hnotes := SameNotes.intern (t := t) s
  intro q hq
  rw [labels_intern] at hq
  exact (h q hq).mono (fun _ hname => hnotes.names.symm ▸ hname) hnotes.generics

/-- A place is called by the name that is bound to it. -/
theorem Called.bindName (h : t.Called) (name : String) (id : TypeId) :
    (t.bindName name id).Called := by
  rcases bindName_cases t name id with ⟨-, ht⟩ | ⟨labels, shared, ht⟩
  · rw [ht]
    exact h
  · intro q hq
    rcases labels_bindName hq with hold | rfl
    · rw [ht]
      exact (h q hold).mono (List.subset_cons_self _ _) rfl
    · rw [ht]
      exact Or.inl (List.mem_append_left _ (List.mem_map_of_mem List.mem_cons_self))

theorem labels_fillAll {aliases : List (TypeId × TypeId)} (h : fillAll t aliases = .ok t') :
    t'.labels = t.labels :=
  fillAll_keeps (P := fun u => u.labels = t.labels) (fun _ _ _ _ hu => hu) rfl h

/-- A finished table that takes up a type, or fails to, calls its places as before. -/
theorem Called.extend (h : t.Called) (ht : t.Closed) (e : TypeExpr) : (t.extend e).2.Called := by
  have hext := extends_extend ht e
  have hrelabels := (resolves_resolving t e).relabels trivial
  have hlabels : ∀ q ∈ (t.extend e).2.labels, q ∈ (t.resolving e).2.table.labels := by
    rcases extend_cases t e with ⟨id, t', -, hfill, -, hok⟩ | ⟨x, herr⟩
    · rw [hok]
      exact fun q hq => labels_fillAll hfill ▸ hq
    · rw [herr]
      exact fun q hq => (List.mem_filter.mp hq).1
  intro q hq
  rw [Calls, hext.names, hext.generics]
  rcases hrelabels.labels q (hlabels q hq) with hold | ⟨i, hname⟩ | hcalls
  · exact h q hold
  · cases hname
  · exact Or.inr hcalls

/-- A table of definitions calls its places by the names of the definitions. -/
theorem called_ofDefinitions {ds : List Definition} (h : ofDefinitions ds = .ok t) :
    t.Called := by
  obtain ⟨known, w, hall, -, hrun, hfill, -⟩ := ofDefinitions_ok h
  have hof := Declared.of_all hall
  obtain ⟨hgenerics, -, -, hsettled⟩ := settled_ofDefinitions h hof hrun hfill
  obtain ⟨hrelabels, -, -⟩ := resolveAll_keeps
    (P := fun w => (known.start ds).Relabels (known.program ds) w)
    (fun _ _ _ _ hw _ hdef => hw.trans (hdef.relabels trivial))
    (waiting_start hof) (idle_start hof) (.refl _) hrun
  intro q hq
  rw [labels_fillAll hfill] at hq
  rw [Calls, hgenerics]
  rcases hrelabels.labels q hq with hold | ⟨i, hname⟩ | hcalls
  · cases hold
  · refine Or.inl ?_
    cases hd : ds[i]? with
    | none =>
      have hnone : (known.program ds).definitionAt i = default := by
        simp [Program.definitionAt, Declared.program, hd]
      rw [hnone] at hname
      cases hname
    | some d =>
      rw [definitionAt_program hd] at hname
      have hnamed := (hof.named i d q.2 hd hname).2
      split at hnamed
      · exact List.mem_append_right _ (List.mem_map_of_mem (mem_of_lookup hnamed))
      · obtain ⟨id, hid⟩ := hsettled.declared q.2 i hnamed
        exact List.mem_append_left _ (List.mem_map_of_mem (mem_of_lookup hid))
  · exact Or.inr hcalls

/-! ## Lengths of labels -/

/-- A label that calls no generic instance is one of the pieces. -/
theorem Called.overshoot_eq_zero (h : t.Called) (hnone : t.generics = []) : t.overshoot = 0 := by
  refine Nat.sub_eq_zero_of_le (longest_le_iff.mpr fun label hlabel => ?_)
  obtain ⟨q, hq, rfl⟩ := List.mem_map.mp hlabel
  rcases h q hq with hname | ⟨name, hname, -⟩
  · exact Nat.le_trans (le_longest (List.mem_append_left _ hname)) (Nat.le_max_right 16 _)
  · rw [hnone] at hname
    cases hname

end Table

end Typewire
