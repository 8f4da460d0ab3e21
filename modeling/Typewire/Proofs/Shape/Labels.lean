-- Labels read as the types at their places. A place is labelled by the name of a definition or by
-- a generic type with its arguments, and each of these denotes what comes to the place. What a
-- workspace has of its places reads all along, so it reads in the finished table.
import Typewire.Proofs.Shape.Parts
import Typewire.Proofs.Shape.Settled
import Typewire.Proofs.Shape.Shown

namespace Typewire

open Typewire.Language Resolving

variable {p : Program} {w w' w'' : Workspace} {t : Table}

/-! ## What is written -/

theorem Language.Writable.inside {e inner : TypeExpr} (h : Writable e) (hinner : inner ∈ e.inside) :
    Writable inner := by
  cases h with
  | primitive | index => cases hinner
  | named _ hargs => exact hargs inner hinner
  | compact h | sequence h | array h =>
    cases List.mem_singleton.mp hinner
    exact h
  | tuple hmembers => exact hmembers inner hinner
  | enum _ _ hpayloads =>
    obtain ⟨v, hv, hpayload⟩ := List.mem_filterMap.mp hinner
    exact hpayloads v hv inner hpayload
  | struct _ htypes =>
    obtain ⟨f, hf, rfl⟩ := List.mem_map.mp hinner
    exact htypes f hf

/-- The shape of a type that can be written can be written, if it keeps the rules. -/
theorem Shape.writable_of_shapeOver {e : TypeExpr} {ids : List TypeId} {shape : Shape}
    (he : Language.Writable e) (hover : shapeOver e ids = some shape)
    (hcheck : shape.check = .ok ()) : shape.Writable := by
  cases he with
  | primitive =>
    obtain ⟨prim, -, rfl⟩ := Option.map_eq_some_iff.mp hover
    trivial
  | index | named => cases hover
  | compact | sequence | array =>
    rcases ids with _ | ⟨id, _ | ⟨other, ids⟩⟩
    · cases hover
    · cases hover
      trivial
    · cases hover
  | tuple =>
    cases hover
    trivial
  | @enum vs hne hnames =>
    cases hover
    obtain ⟨hfew, -⟩ := check_enum_iff.mp hcheck
    refine ⟨fun hnil => hne ?_, hfew, fun v hv => ?_⟩
    · rw [← List.length_eq_zero_iff, ← length_variantsOver vs 0 ids, hnil]
      rfl
    · have hname := List.mem_map_of_mem (f := (·.name)) hv
      rw [names_variantsOver] at hname
      obtain ⟨x, hx, hsame⟩ := List.mem_map.mp hname
      exact hsame ▸ hnames x hx
  | struct hnames =>
    cases hover
    intro f hf
    have hname := (names_fieldsOver_sublist _ ids).subset (List.mem_map_of_mem (f := (·.name)) hf)
    obtain ⟨x, hx, hsame⟩ := List.mem_map.mp hname
    exact hsame ▸ hnames x hx

/-- What is written in the program can be written again: its names are names of the language, and
no definition has the name of a primitive. -/
structure Program.Written (p : Program) (generics : List (String × Generic)) : Prop where
  free : ∀ prim : Primitive, p.positionOf.lookup prim.name = none
  names : ∀ i name, p.positionOf.lookup name = some i → IsName name
  bodies : ∀ i, i < p.definitions.size → Writable (p.definitionAt i).body
  generics : ∀ name g, generics.lookup name = some g → IsName name ∧ Writable g.body

/-- The types of the task can be written, and an instance has as many arguments as it takes. -/
def Task.Writable : Task → Prop
  | .type e _ => Language.Writable e
  | .parts es _ => ∀ e, .ok e ∈ es → Language.Writable e
  | .definition _ => True
  | .generic g key => key.args ≠ [] ∧ g.params.length = key.args.length

theorem Task.Writable.parts {e : TypeExpr} {s : Bindings} (h : Task.Writable (.type e s)) :
    Task.Writable (.parts (Typewire.parts e) s) :=
  fun _ hinner => Language.Writable.inside h (inside_of_parts hinner)

/-! ## Labels of a table -/

theorem labels_setLabel {id : TypeId} {label : String} {q : TypeId × String}
    (h : q ∈ (t.setLabel id label).labels) : q ∈ t.labels ∨ q = (id, label) := by
  rcases Table.setLabel_cases t id label with ht | ht
  · rw [ht] at h
    exact Or.inl h
  · rw [ht] at h
    exact (List.mem_cons.mp h).symm

theorem labels_bindName {id : TypeId} {name : String} {q : TypeId × String}
    (h : q ∈ (t.bindName name id).labels) : q ∈ t.labels ∨ q = (id, name) := by
  unfold Table.bindName at h
  split at h
  · exact Or.inl h
  split at h
  · exact Or.inl (List.mem_filter.mp h).1
  · exact labels_setLabel h

theorem labels_intern (shape : Shape) : (t.intern shape).2.labels = t.labels := by
  rcases Table.intern_cases t shape with ⟨_, -, ht⟩ | ⟨-, ht⟩ <;> rw [ht]

/-- Where a type is met again only a new place has a new label. -/
theorem labels_meetAgain {u u' : Underway} {n : Nat} {label : String}
    {reservedLabel : Option String} {slot : TypeId} {q : TypeId × String}
    (h : outcome (meetAgain u n label reservedLabel) w = (.ok (slot, u'), w'))
    (hq : q ∈ w'.table.labels) : q ∈ w.table.labels ∨ (q.1 = slot ∧ reservedLabel = some q.2) := by
  rcases meetAgain_cases u n label reservedLabel w with ⟨-, ho⟩ | ⟨-, _, -, ho⟩ | ⟨-, -, ho⟩
  · cases ho.symm.trans h
  · cases ho.symm.trans h
    exact Or.inl hq
  · cases ho.symm.trans h
    cases reservedLabel with
    | none => exact Or.inl hq
    | some text =>
      rcases labels_setLabel hq with hq | rfl
      · exact Or.inl hq
      · exact Or.inr ⟨rfl, rfl⟩

/-- Where a body settles no label is new, and no shape is. -/
theorem labels_settle {u : Underway} {id id' : TypeId} {label : String}
    (h : outcome (settle u id label) w = (.ok id', w')) :
    w'.table.labels = w.table.labels ∧ ∀ other shape, w'.table.shape? other = some shape →
      ∃ place, w.table.shape? place = some shape := by
  rcases settle_ok h with ⟨-, -, rfl⟩ | ⟨-, -, s, hs, rfl⟩ | ⟨-, rfl⟩
  · exact ⟨rfl, fun other shape hshape => ⟨other, hshape⟩⟩
  · refine ⟨rfl, fun other shape hshape => ?_⟩
    by_cases hother : other = id'
    · subst hother
      have hlt := Table.lt_size_of_shape? hshape
      rw [Table.size_fill] at hlt
      cases (Table.shape?_fill_self s hlt).symm.trans hshape
      exact ⟨id, hs⟩
    · exact ⟨other, (Table.shape?_fill_ne s hother).symm.trans hshape⟩
  · exact ⟨rfl, fun other shape hshape => ⟨other, hshape⟩⟩

/-! ## Reading on -/

namespace Workspace.Readable

/-- What reads goes on to read where the shapes that are new can be written, and the labels that
are new read. -/
theorem grow (h : w.Readable p) (hw : w.Refines w')
    (hshapes : ∀ id shape, w'.table.shape? id = some shape →
      (∃ place, w.table.shape? place = some shape) ∨ shape.Writable)
    (hlabels : ∀ q ∈ w'.table.labels, Placeless q.2 →
      q ∈ w.table.labels ∨ w'.Reads p q.1 q.2) : w'.Readable p where
  shapes id shape hid := by
    rcases hshapes id shape hid with ⟨place, hplace⟩ | hwritable
    · exact h.shapes place shape hplace
    · exact hwritable
  labels q hq hplaceless := by
    rcases hlabels q hq hplaceless with hold | hnew
    · exact (h.labels q hold hplaceless).of_refines hw
    · exact hnew

theorem intern (h : w.Readable p) {shape : Shape} (hshape : shape.Writable) :
    (w.intern shape).Readable p := by
  refine h.grow (refines_intern w shape) (fun id other hid => ?_) fun q hq _ => Or.inl ?_
  · rcases Table.intern_cases w.table shape with ⟨_, -, ht⟩ | ⟨-, ht⟩
    · rw [Workspace.intern, ht] at hid
      exact Or.inl ⟨id, hid⟩
    · rw [Workspace.intern, ht, Table.shape?_push rfl] at hid
      split at hid
      · cases hid
        exact Or.inr hshape
      · exact Or.inl ⟨id, hid⟩
  · rwa [Workspace.intern, labels_intern] at hq

/-- A definition reads by its name. -/
theorem reads_definition (hp : p.Written w.table.generics) {i : Nat} {name : String} {id : TypeId}
    (hi : p.positionOf.lookup name = some i) (h : Arrives p (.definition i) w [id] w') :
    w'.Reads p id name := by
  refine ⟨.named name [], ⟨.named (hp.names i name hi) (by simp), fun t ht => ?_⟩, rfl⟩
  obtain ⟨_, y, hid, hplace, hshape⟩ := h.denoted t ht
  cases hid
  exact .declared rfl hi hplace hshape

/-- A generic type reads by its name with the texts of its arguments. -/
theorem reads_generic (h : w.Readable p) (hp : p.Written w.table.generics) {g : Generic}
    {key : InstanceKey} {id : TypeId} (hg : w.table.generics.lookup key.name = some g)
    (htask : Task.Writable (.generic g key)) (harrives : Arrives p (.generic g key) w [id] w')
    (hplaceless : Placeless (Program.instanceLabel w.table key)) :
    w'.Reads p id (Program.instanceLabel w.table key) := by
  obtain ⟨name, args⟩ := key
  obtain ⟨hargs, hlength⟩ := htask
  have hall := placeless_of_commaJoined hplaceless.between
  have hrow : List.Forall₂ (w.Reads p) args (args.map w.table.text) := by
    refine List.forall₂_map_right_iff.mpr (List.forall₂_same.mpr fun arg harg => ?_)
    exact h.reads_text hp.free arg (hall _ (List.mem_map_of_mem harg))
  obtain ⟨es, htexts, hes, hdenotes⟩ := exists_types hrow
  have hcount : es.length = args.length := by simpa using congrArg List.length htexts
  cases es with
  | nil => exact absurd (List.length_eq_zero_iff.mp hcount.symm) hargs
  | cons e es =>
    refine ⟨.named name (e :: es), ⟨.named (hp.generics name g hg).1 hes, fun t ht => ?_⟩, ?_⟩
    · obtain ⟨_, y, hid, hkey, hshape⟩ := harrives.denoted t ht
      cases hid
      have hkept := ht.of_refines harrives.refines
      exact .applied (hkept.generics ▸ hg) (hlength.trans hcount.symm) (hdenotes t hkept) hkey
        hshape
    · rw [TypeExpr.text, texts_eq_map, htexts]
      · rfl
      · exact List.cons_ne_nil _ _

end Workspace.Readable

/-- What a workspace has of its places reads all along. -/
theorem Resolves.readable {room : Nat} {task : Task} {n : Nat} {ids : List TypeId}
    (h : Resolves p room task n w (.ok ids) w') (hp : p.Written w.table.generics)
    (hw : w.Faithful p) (hknown : task.Known w) (htask : task.Writable) (hread : w.Readable p) :
    w'.Readable p := by
  induction h using Resolves.ok_induction with
  | nil | placed | bound | known | done | cached => exact hread
  | next hfirst _ ih ih' =>
    have harrives := hfirst.arrives hw trivial
    exact ih' (harrives.refines.generics.symm ▸ hp) harrives.faithful trivial
      (fun e he => htask e (List.mem_cons_of_mem _ he))
      (ih hp hw trivial (htask _ List.mem_cons_self) hread)
  | built _ hover hcheck ih =>
    exact (ih hp hw trivial htask.parts hread).intern
      (Shape.writable_of_shapeOver htask hover hcheck)
  | index _ _ ih | declared _ _ _ ih => exact ih hp hw trivial trivial hread
  | primitive => exact hread.intern trivial
  | @applied _ _ _ _ _ s _ name e es args _ hg hparts _ ih ih' =>
    obtain ⟨hg, hlength⟩ := genericOf_ok hg
    have harrives := hparts.arrives hw trivial
    have hcount : args.length = es.length + 1 := by simpa using length_of_resolves hparts
    have hargs : Task.Writable (.parts ((e :: es).map .ok) s) := by
      intro arg harg
      obtain ⟨_, harg, ⟨⟩⟩ := List.mem_map.mp harg
      exact Language.Writable.inside htask harg
    refine ih' (harrives.refines.generics.symm ▸ hp) harrives.faithful ?_ ⟨?_, ?_⟩
      (ih hp hw trivial hargs hread)
    · rw [Task.Known, harrives.refines.generics, hg]
    · exact List.ne_nil_of_length_eq_add_one hcount
    · exact hlength.trans hcount.symm
  | @again room n w w' i u u' id hi hmeet =>
    have hrun : Resolves p room (.definition i) n w (.ok [id]) _ := .again hi hmeet
    have harrives := hrun.arrives hw trivial
    refine hread.grow harrives.refines (fun other shape hid => Or.inl ⟨other, ?_⟩) fun q hq _ => ?_
    · exact (Workspace.shape?_meetAgain hmeet other).symm.trans hid
    · rcases labels_meetAgain hmeet hq with hold | ⟨hslot, hname⟩
      · exact Or.inl hold
      · have hown : w.progressAt i ≠ .generic := by
          rw [hi]
          exact Progress.noConfusion
        refine Or.inr (hslot ▸ Workspace.Readable.reads_definition hp ?_ harrives)
        exact hw.declared i q.2 hown hname
  | @defined room n w w' w'' i u id id' hi hbody hu hsettle ih =>
    have hrun : Resolves p room (.definition i) n w (.ok [id']) _ := .defined hi hbody hu hsettle
    have harrives := hrun.arrives hw trivial
    obtain ⟨henter, hentered⟩ := hw.enterDefinition hi n
    have hlt : i < p.definitions.size := by
      rw [← hw.size]
      exact Workspace.lt_of_progressAt (by rw [hi]; simp)
    have hbody' := ih hp hentered trivial (hp.bodies i hlt)
      (hread.grow henter (fun other shape hid => Or.inl ⟨other, hid⟩) fun q hq _ => Or.inl hq)
    have hbodyArrives := hbody.arrives hentered trivial
    obtain ⟨hlabels, hshapes⟩ := labels_settle hsettle
    refine hbody'.grow
      (Workspace.refines_finishDefinition hbodyArrives.faithful.orderly hu hsettle _)
      (fun other shape hid => Or.inl ?_) fun q hq _ => ?_
    · rw [Table.shape?_congr (Workspace.slots_finishDefinition w'' i _ id')] at hid
      exact hshapes other shape hid
    · cases hname : (p.definitionAt i).name with
      | none =>
        rw [hname] at hq
        exact Or.inl (hlabels ▸ hq)
      | some name =>
        rw [hname] at hq harrives
        rcases labels_bindName hq with hold | rfl
        · exact Or.inl (hlabels ▸ hold)
        · have hown : w.progressAt i ≠ .generic := by
            rw [hi]
            exact Progress.noConfusion
          exact Or.inr (Workspace.Readable.reads_definition hp (hw.declared i name hown hname)
            harrives)
  | @againInstance room n w w' g key u u' id hnone hkey hmeet =>
    have hrun : Resolves p (room + 1) (.generic g key) n w (.ok [id]) _ :=
      .againInstance hnone hkey hmeet
    have harrives := hrun.arrives hw hknown
    refine hread.grow harrives.refines (fun other shape hid => Or.inl ⟨other, ?_⟩)
      fun q hq hplaceless => ?_
    · exact (Workspace.shape?_meetAgain hmeet other).symm.trans hid
    · rcases labels_meetAgain hmeet hq with hold | ⟨hslot, hlabel⟩
      · exact Or.inl hold
      · obtain ⟨place, label⟩ := q
        cases hslot
        cases hlabel
        exact Or.inr (hread.reads_generic hp hknown htask harrives hplaceless)
  | @instantiated room n w w' w'' g key u id id' hnone hkey hbody hu hsettle ih =>
    have hrun : Resolves p (room + 1) (.generic g key) n w (.ok [id']) _ :=
      .instantiated hnone hkey hbody hu hsettle
    have harrives := hrun.arrives hw hknown
    obtain ⟨henter, hentered⟩ := hw.enterInstance hnone hkey n
    have hbody' := ih hp hentered trivial (hp.generics key.name g hknown).2
      (hread.grow henter (fun other shape hid => Or.inl ⟨other, hid⟩) fun q hq _ => Or.inl hq)
    have hbodyArrives := hbody.arrives hentered trivial
    obtain ⟨hlabels, hshapes⟩ := labels_settle hsettle
    refine hbody'.grow (Workspace.refines_finishInstance hbodyArrives.faithful.orderly hu hsettle)
      (fun other shape hid => Or.inl ?_) fun q hq hplaceless => ?_
    · rw [Table.shape?_congr (Workspace.slots_finishInstance w'' key _ id')] at hid
      exact hshapes other shape hid
    · rcases labels_setLabel hq with hold | rfl
      · exact Or.inl (hlabels ▸ hold)
      · exact Or.inr (hread.reads_generic hp hknown htask harrives hplaceless)

/-! ## Finished tables -/

/-- No pass over the aliases brings a new shape. -/
theorem shapes_fillAliases {t : Table} {aliases : List (TypeId × TypeId)} {id : TypeId}
    {shape : Shape} (h : (fillAliases t aliases).1.shape? id = some shape) :
    ∃ place, t.shape? place = some shape := by
  induction aliases generalizing t with
  | nil => exact ⟨id, h⟩
  | cons a rest ih =>
    obtain ⟨slot, target⟩ := a
    unfold fillAliases at h
    split at h
    · rename_i s hs
      obtain ⟨place, hplace⟩ := ih h
      by_cases hslot : place = slot
      · subst hslot
        have hlt := Table.lt_size_of_shape? hplace
        rw [Table.size_fill] at hlt
        cases (Table.shape?_fill_self s hlt).symm.trans hplace
        exact ⟨target, hs⟩
      · exact ⟨place, (Table.shape?_fill_ne s hslot).symm.trans hplace⟩
    · exact ih h

theorem shapes_fillAll {t t' : Table} {aliases : List (TypeId × TypeId)}
    (h : fillAll t aliases = .ok t') {id : TypeId} {shape : Shape}
    (hid : t'.shape? id = some shape) : ∃ place, t.shape? place = some shape := by
  fun_induction fillAll t aliases generalizing id with
  | case1 t =>
    cases h
    exact ⟨id, hid⟩
  | case2 => cases h
  | case3 t a rest pass hne ih =>
    obtain ⟨place, hplace⟩ := ih h hid
    exact shapes_fillAliases hplace

/-- What reads in the end reads in the table when all reserved places are filled. -/
theorem Workspace.Readable.filled (h : w.Readable p) (hw : w.Faithful p) (hidle : w.Idle)
    (hfill : fillAll w.table w.aliases = .ok t) (ht : t.ClosedWorld) :
    Workspace.Readable p { table := t, progress := w.progress } where
  shapes id shape hid := by
    obtain ⟨place, hplace⟩ := shapes_fillAll hfill hid
    exact h.shapes place shape hplace
  labels q hq hplaceless := by
    have hlabels : t.labels = w.table.labels :=
      fillAll_keeps (P := fun u => u.labels = w.table.labels) (fun _ _ _ _ hu => hu) rfl hfill
    obtain ⟨e, he, htext⟩ := h.labels q (hlabels ▸ hq) hplaceless
    exact ⟨e, ⟨he.writable, fun t' ht' => he.denotes t' (hw.keptBy_filled hidle hfill ht ht')⟩,
      htext⟩

/-- The table is settled, and what it has of its places reads. -/
structure Table.Legible (p : Program) (progress : Array Progress) (t : Table) : Prop where
  settled : t.Settled p progress
  written : p.Written t.generics
  readable : Workspace.Readable p { table := t, progress }

variable {progress : Array Progress}

/-- A program of definitions that can be written is written. -/
theorem Declared.Of.written {ds : List Definition} {known : Declared} (h : Declared.Of ds known)
    (hds : ∀ d ∈ ds, (∀ name, d.name = some name → IsName name) ∧ Language.Writable d.body) :
    (known.program ds).Written known.generics where
  free prim := by
    cases hi : known.positionOf.lookup prim.name with
    | none => exact hi
    | some i =>
      obtain ⟨d, hd, hname, -⟩ := h.position _ i hi
      have hfree := (h.named i d _ hd hname).1
      rw [Primitive.isName, ofName?_name] at hfree
      cases hfree
  names i name hi := by
    obtain ⟨d, hd, hname, -⟩ := h.position name i hi
    exact (hds d (List.mem_of_getElem? hd)).1 name hname
  bodies i hi := by
    rw [size_program] at hi
    rw [definitionAt_program (List.getElem?_eq_getElem hi)]
    exact (hds _ (List.getElem_mem hi)).2
  generics name g hg := by
    obtain ⟨i, d, ⟨hd, hname⟩, -, rfl⟩ := h.generic_eq hg
    exact ⟨(hds d (List.mem_of_getElem? hd)).1 name hname, (hds d (List.mem_of_getElem? hd)).2⟩

namespace Table

/-- Whatever definitions that can be written are accepted as a table, it is legible. -/
theorem legible_ofDefinitions {ds : List Definition} (h : Table.ofDefinitions ds = .ok t)
    (hds : ∀ d ∈ ds, (∀ name, d.name = some name → IsName name) ∧ Language.Writable d.body) :
    ∃ known progress, Declared.Of ds known ∧ known.checkBodies ds = .ok () ∧
      t.generics = known.generics ∧ t.Legible (known.program ds) progress := by
  obtain ⟨known, w, hall, hbodies, hrun, hfill, -⟩ := ofDefinitions_ok h
  have hof := Declared.of_all hall
  have hwritten := hof.written hds
  obtain ⟨hgenerics, hfaithful, hidle, hsettled⟩ := settled_ofDefinitions h hof hrun hfill
  have hstart : (known.start ds).Readable (known.program ds) := by
    refine ⟨fun id shape hid => ?_, fun q hq => (by cases hq)⟩
    simp [Declared.start, Table.shape?] at hid
  obtain ⟨⟨-, -, hreadable⟩, -⟩ := resolveAll_keeps
    (P := fun w => w.Faithful (known.program ds) ∧ w.table.generics = known.generics ∧
      w.Readable (known.program ds))
    (fun i w ids w' hw _ hdef => by
      obtain ⟨hw, hgenerics, hread⟩ := hw
      obtain ⟨hfaithful, hkept⟩ := hdef.faithful hw
      exact ⟨hfaithful, hkept.trans hgenerics,
        hdef.readable (hgenerics.symm ▸ hwritten) hw trivial trivial hread⟩)
    (waiting_start hof) (idle_start hof) ⟨faithful_start hof, rfl, hstart⟩ hrun
  exact ⟨known, w.progress, hof, hbodies, hgenerics, hsettled, hgenerics.symm ▸ hwritten,
    hreadable.filled hfaithful hidle hfill hsettled.world⟩

namespace Legible

/-- A legible table stays legible when a type that can be written was taken up. -/
theorem extend (ht : t.Legible p progress) {t' : Table} {e : TypeExpr} {id : TypeId}
    (he : Language.Writable e) (h : t.extend e = (.ok id, t')) : t'.Legible p progress := by
  have hsettled := ht.settled.extend h
  obtain ⟨w, hrun, harrives, rfl, hidle, hfill⟩ := ht.settled.runs h
  have hext := extends_extend ht.settled.world.closed e
  rw [h] at hext
  exact ⟨hsettled, hext.generics.symm ▸ ht.written,
    (hrun.readable ht.written ht.settled.faithful trivial he ht.readable).filled
      harrives.faithful hidle hfill hsettled.world⟩

/-- A table is legible whatever texts it remembers. -/
theorem withExpression (ht : t.Legible p progress) (text : String) {id : TypeId}
    (hid : id < t.size) :
    Legible p progress { t with expressions := (text, id) :: t.expressions } where
  settled := ht.settled.withExpression text hid
  written := ht.written
  readable :=
    { shapes := ht.readable.shapes
      labels := fun q hq hplaceless => (ht.readable.labels q hq hplaceless).of_refines
        (refines_withExpression t progress text id) }

/-- A text without a place in it is the written form of what the place denotes. -/
theorem reads (ht : t.Legible p progress) {id : TypeId} (h : Placeless (t.text id)) :
    ∃ e, Language.Writable e ∧ e.text = t.text id ∧ Denotes p t e [] id := by
  obtain ⟨e, he, htext⟩ := ht.readable.reads_text ht.written.free id h
  exact ⟨e, he.writable, htext, he.denotes t ht.settled.keptBy⟩

end Legible

end Table

end Typewire
