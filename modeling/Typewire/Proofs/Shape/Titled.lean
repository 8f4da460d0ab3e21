-- Which declared names are shown. A place is labelled by whoever comes first: a definition that
-- reserved it, a generic instance that came to it, or the first name that is bound to it. With the
-- second name the label goes and never comes back.
import Typewire.Proofs.Shape.Called

namespace Typewire

open Typewire.Language Resolving

variable {p : Program} {w w' w'' : Workspace} {t t' : Table} {id : TypeId} {name label : String}

/-! ## Names and labels of a table -/

/-- Each name is bound once. The places with two names or more are shared and have no label, and a
place with a single name has a label, unless it holds a primitive. -/
structure Table.Titled (t : Table) : Prop where
  nodup : (t.names.map Prod.fst).Nodup
  shared : ∀ id, id ∈ t.shared ↔
    ∃ a b, a ≠ b ∧ t.names.lookup a = some id ∧ t.names.lookup b = some id
  plain : ∀ id ∈ t.shared, t.labels.lookup id = none
  single : ∀ name id, t.names.lookup name = some id → id ∈ t.shared ∨
    (∃ label, t.labels.lookup id = some label) ∨ (t.shape? id).any (·.isPrimitive) = true

namespace Table

/-- A place that is labelled has a label then, or it is shared, or it holds a primitive. -/
theorem labelled_setLabel (t : Table) (id : TypeId) (label : String) :
    id ∈ t.shared ∨ (∃ other, (t.setLabel id label).labels.lookup id = some other) ∨
      (t.shape? id).any (·.isPrimitive) = true := by
  unfold setLabel
  split
  · rename_i hkept
    rw [Bool.or_eq_true, Bool.or_eq_true] at hkept
    rcases hkept with (hshared | hprimitive) | hlabel
    · exact Or.inl (List.contains_iff_mem.mp hshared)
    · exact Or.inr (Or.inr hprimitive)
    · exact Or.inr (Or.inl (Option.isSome_iff_exists.mp hlabel))
  · exact Or.inr (Or.inl ⟨label, List.lookup_cons_self⟩)

/-- A label that a place has stays, and a shared place is not labelled. -/
theorem lookup_setLabel (t : Table) (id : TypeId) (label : String) (other : TypeId) :
    (∀ old, t.labels.lookup other = some old →
      (t.setLabel id label).labels.lookup other = some old) ∧
      (other ∈ t.shared → (t.setLabel id label).labels.lookup other = t.labels.lookup other) := by
  unfold setLabel
  split
  · exact ⟨fun _ h => h, fun _ => rfl⟩
  · rename_i hnew
    simp only [Bool.or_eq_true, not_or] at hnew
    obtain ⟨⟨hshared, -⟩, hlabel⟩ := hnew
    by_cases hother : other = id
    · subst hother
      refine ⟨fun old hold => absurd (by rw [hold]; rfl) hlabel, fun hmem => ?_⟩
      exact absurd (List.contains_iff_mem.mpr hmem) hshared
    · simp [List.lookup_cons, beq_false_of_ne hother]

theorem names_setLabel (t : Table) (id : TypeId) (label : String) :
    (t.setLabel id label).names = t.names ∧ (t.setLabel id label).shared = t.shared := by
  rcases setLabel_cases t id label with h | h <;> simp [h]

namespace Titled

/-- Names and labels hang together where they are the same and shapes stay. -/
theorem of_eq (h : t.Titled) (hnames : t'.names = t.names) (hshared : t'.shared = t.shared)
    (hlabels : t'.labels = t.labels)
    (hshapes : ∀ id s, t.shape? id = some s → t'.shape? id = some s) : t'.Titled where
  nodup := hnames ▸ h.nodup
  shared := by
    rw [hnames, hshared]
    exact h.shared
  plain := by
    rw [hshared, hlabels]
    exact h.plain
  single name id hname := by
    rw [hnames] at hname
    rw [hshared, hlabels]
    refine (h.single name id hname).imp_right (Or.imp_right fun hprimitive => ?_)
    cases hs : t.shape? id with
    | none => simp [hs] at hprimitive
    | some s => rwa [hshapes id s hs, ← hs]

theorem setLabel (h : t.Titled) (id : TypeId) (label : String) : (t.setLabel id label).Titled := by
  obtain ⟨hnames, hshared⟩ := names_setLabel t id label
  constructor
  case nodup => exact hnames ▸ h.nodup
  case shared =>
    rw [hnames, hshared]
    exact h.shared
  case plain =>
    rw [hshared]
    intro other hother
    rw [(lookup_setLabel t id label other).2 hother]
    exact h.plain other hother
  case single =>
    rw [hnames, hshared]
    intro name other hname
    rw [shape?_setLabel]
    refine (h.single name other hname).imp_right (Or.imp_left fun ⟨old, hold⟩ => ?_)
    exact ⟨old, (lookup_setLabel t id label other).1 old hold⟩

/-- The names of a place are looked up among all that are bound to it. -/
theorem any_iff (h : t.Titled) (id : TypeId) :
    (t.names.any (·.2 == id)) = true ↔ ∃ name, t.names.lookup name = some id := by
  rw [List.any_eq_true]
  constructor
  · rintro ⟨⟨name, other⟩, hmem, hsame⟩
    cases eq_of_beq hsame
    exact ⟨name, lookup_of_mem h.nodup hmem⟩
  · rintro ⟨name, hname⟩
    exact ⟨(name, id), mem_of_lookup hname, beq_self_eq_true id⟩

/-- The second name of a place takes its label away. -/
theorem bindShared (h : t.Titled) {name other : String} (hnew : t.names.lookup name = none)
    (hother : t.names.lookup other = some id) :
    Titled { t with
      labels := t.labels.filter (·.1 != id)
      shared := id :: t.shared
      names := (name, id) :: t.names } := by
  have hold {a : String} {place : TypeId} (ha : t.names.lookup a = some place) :
      a ≠ name ∧ ((name, id) :: t.names).lookup a = some place := by
    have hne : a ≠ name := by
      rintro rfl
      cases hnew.symm.trans ha
    exact ⟨hne, by rwa [List.lookup_cons, beq_false_of_ne hne]⟩
  have hback {a : String} {place : TypeId} (ha : ((name, id) :: t.names).lookup a = some place)
      (hplace : place ≠ id) : t.names.lookup a = some place := by
    rw [List.lookup_cons] at ha
    split at ha
    · cases ha
      exact absurd rfl hplace
    · exact ha
  constructor
  case nodup =>
    refine List.nodup_cons.mpr ⟨fun hmem => ?_, h.nodup⟩
    have hbound := mem_keys_iff.mp hmem
    simp [hnew] at hbound
  case shared =>
    intro place
    by_cases hplace : place = id
    · subst hplace
      obtain ⟨hne, hother⟩ := hold hother
      simp only [List.mem_cons, true_or, true_iff]
      exact ⟨other, name, hne, hother, List.lookup_cons_self⟩
    · simp only [List.mem_cons, hplace, false_or]
      rw [h.shared place]
      constructor
      · rintro ⟨a, b, hne, ha, hb⟩
        exact ⟨a, b, hne, (hold ha).2, (hold hb).2⟩
      · rintro ⟨a, b, hne, ha, hb⟩
        exact ⟨a, b, hne, hback ha hplace, hback hb hplace⟩
  case plain =>
    intro place hmem
    by_cases hplace : place = id
    · rw [hplace]
      exact lookup_filter_self id t.labels
    · rw [lookup_filter_ne hplace]
      exact h.plain place ((List.mem_cons.mp hmem).resolve_left hplace)
  case single =>
    intro a place ha
    by_cases hplace : place = id
    · exact Or.inl (hplace ▸ List.mem_cons_self)
    · rw [lookup_filter_ne hplace]
      exact (h.single a place (hback ha hplace)).imp_left (List.mem_cons_of_mem _)

/-- The first name of a place is bound to it, where the place has what it is shown by. -/
theorem bindFirst (h : t.Titled) {name : String} (hnew : t.names.lookup name = none)
    (hfirst : ∀ other, t.names.lookup other ≠ some id)
    (hid : id ∈ t.shared ∨ (∃ label, t.labels.lookup id = some label) ∨
      (t.shape? id).any (·.isPrimitive) = true) :
    Titled { t with names := (name, id) :: t.names } := by
  have hlookup (a : String) :
      ((name, id) :: t.names).lookup a = if a = name then some id else t.names.lookup a := by
    by_cases ha : a = name
    · simp [ha]
    · simp [List.lookup_cons, beq_false_of_ne ha, ha]
  constructor
  case nodup =>
    refine List.nodup_cons.mpr ⟨fun hmem => ?_, h.nodup⟩
    have hbound := mem_keys_iff.mp hmem
    simp [hnew] at hbound
  case shared =>
    intro place
    rw [h.shared place]
    constructor
    · rintro ⟨a, b, hne, ha, hb⟩
      refine ⟨a, b, hne, ?_, ?_⟩
      · rw [hlookup, if_neg]
        · exact ha
        · rintro rfl
          cases hnew.symm.trans ha
      · rw [hlookup, if_neg]
        · exact hb
        · rintro rfl
          cases hnew.symm.trans hb
    · rintro ⟨a, b, hne, ha, hb⟩
      rw [hlookup] at ha hb
      split at ha
      · rename_i hname
        cases ha
        rw [if_neg (fun hb' => hne (hname.trans hb'.symm))] at hb
        exact absurd hb (hfirst b)
      · split at hb
        · cases hb
          exact absurd ha (hfirst a)
        · exact ⟨a, b, hne, ha, hb⟩
  case plain => exact h.plain
  case single =>
    intro a place ha
    rw [hlookup] at ha
    split at ha
    · cases ha
      exact hid
    · exact h.single a place ha

/-- A name that is new is bound: as the label of its place where that has no name yet, else the
label goes. -/
theorem bindName (h : t.Titled) {name : String} (hnew : t.names.lookup name = none)
    (id : TypeId) : (t.bindName name id).Titled := by
  unfold Table.bindName
  rw [if_neg (by rw [hnew]; simp)]
  split
  · rename_i hany
    obtain ⟨other, hother⟩ := (h.any_iff id).mp hany
    exact h.bindShared hnew hother
  · rename_i hany
    obtain ⟨hnames, hshared⟩ := names_setLabel t id name
    refine (h.setLabel id name).bindFirst (hnames ▸ hnew) (fun other hother => ?_) ?_
    · exact hany ((h.any_iff id).mpr ⟨other, hnames ▸ hother⟩)
    · rw [hshared, shape?_setLabel]
      exact labelled_setLabel t id name

end Titled

end Table

/-! ## While definitions are resolved -/

namespace Workspace

/-- The label is the name of a definition that has the place, or the text of a generic instance
that has it. -/
def Owns (p : Program) (w : Workspace) (id : TypeId) (label : String) : Prop :=
  (∃ i, w.placeOf i = some id ∧ (p.definitionAt i).name = some label) ∨
    ∃ key t, w.instancePlace key = some id ∧ label = Program.instanceLabel t key

theorem Owns.of_refines (h : w.Owns p id label) (hw : w.Refines w') : w'.Owns p id label := by
  rcases h with ⟨i, hi, hname⟩ | ⟨key, t, hkey, hlabel⟩
  · exact Or.inl ⟨i, hw.definitions i id hi, hname⟩
  · exact Or.inr ⟨key, t, hw.instances key id hkey, hlabel⟩

/-- Names and labels hang together, and each label is owned by its place. -/
structure Entitled (p : Program) (w : Workspace) : Prop where
  titled : w.table.Titled
  owned : ∀ q ∈ w.table.labels, w.Owns p q.1 q.2

namespace Entitled

/-- Labels go on to be owned where those that are new are. -/
theorem grow (h : w.Entitled p) (hw : w.Refines w') (htitled : w'.table.Titled)
    (hlabels : ∀ q ∈ w'.table.labels, q ∈ w.table.labels ∨ w'.Owns p q.1 q.2) :
    w'.Entitled p where
  titled := htitled
  owned q hq := by
    rcases hlabels q hq with hold | hnew
    · exact (h.owned q hold).of_refines hw
    · exact hnew

theorem intern (h : w.Entitled p) (s : Shape) : (w.intern s).Entitled p := by
  refine h.grow (refines_intern w s) ?_ fun q hq => Or.inl ?_
  · rcases Table.intern_cases w.table s with ⟨_, -, ht⟩ | ⟨-, ht⟩
    · rw [Workspace.intern, ht]
      exact h.titled
    · refine h.titled.of_eq ?_ ?_ ?_ fun _ _ hs => Table.shape?_intern s hs
      all_goals simp [Workspace.intern, ht]
  · rwa [Workspace.intern, labels_intern] at hq

end Entitled

/-- Names and labels hang together where a type is met again. -/
theorem titled_meetAgain {u u' : Underway} {n : Nat} {label : String}
    {reservedLabel : Option String} {slot : TypeId} (ht : w.table.Titled)
    (h : outcome (meetAgain u n label reservedLabel) w = (.ok (slot, u'), w')) :
    w'.table.Titled := by
  rcases meetAgain_cases u n label reservedLabel w with ⟨-, ho⟩ | ⟨-, _, -, ho⟩ | ⟨-, -, ho⟩
  · cases ho.symm.trans h
  · cases ho.symm.trans h
    exact ht
  · cases ho.symm.trans h
    have hreserved : w.table.reserve.2.Titled :=
      ht.of_eq rfl rfl rfl fun id s hs => by rwa [Table.shape?_reserve]
    cases reservedLabel with
    | none => exact hreserved
    | some text => exact hreserved.setLabel _ text

/-- Names and labels hang together where a body settles, as shapes stay. -/
theorem titled_settle {u : Underway} {id' : TypeId} {label : String} (ht : w.table.Titled)
    (h : outcome (settle u id label) w = (.ok id', w'))
    (hshapes : ∀ id s, w.table.shape? id = some s → w'.table.shape? id = some s) :
    w'.table.Titled := by
  refine ht.of_eq (Table.SameNotes.settle h).names ?_ (labels_settle h).1 hshapes
  rcases settle_ok h with ⟨-, -, rfl⟩ | ⟨-, -, s, -, rfl⟩ | ⟨-, rfl⟩ <;> rfl

namespace Entitled

/-- A definition that is met again owns the place that it has. -/
theorem meetDefinition (h : w.Entitled p) (hw : w.Faithful p) {i n : Nat} {u u' : Underway}
    {slot : TypeId} (hi : w.progressAt i = .underway u)
    (hmeet : outcome (meetAgain u n (p.label i) (p.definitionAt i).name) w = (.ok (slot, u'), w')) :
    (w'.setProgress i (.underway u')).Entitled p := by
  obtain ⟨hrefines, -⟩ := hw.meetDefinition hi hmeet
  have htitled := titled_meetAgain h.titled hmeet
  refine h.grow hrefines htitled fun q hq => ?_
  refine (labels_meetAgain hmeet hq).imp_right fun ⟨hslot, hname⟩ => Or.inl ⟨i, ?_, hname⟩
  obtain ⟨hp, -⟩ := progress_meetAgain hmeet
  have hlt : i < w'.progress.size := by
    rw [hp]
    exact lt_of_progressAt (by rw [hi]; simp)
  rw [placeOf_eq (progressAt_setProgress_self hlt), hslot]
  exact (underway_meetAgain hmeet).2

/-- A definition that is done owns its place, and its name was not bound before. -/
theorem finishDefinition (h : w.Entitled p) (hw : w.Faithful p) {i : Nat} {u : Underway}
    {id id' : TypeId} {label : String} (hu : w.progressAt i = .underway u)
    (hsettle : outcome (settle u id label) w = (.ok id', w')) :
    (w'.finishDefinition i (p.definitionAt i).name id').Entitled p := by
  have hrefines := refines_finishDefinition hw.orderly hu hsettle (p.definitionAt i).name
  have htitled : w'.table.Titled := titled_settle h.titled hsettle fun other s hs => by
    rw [← Table.shape?_congr (slots_finishDefinition w' i (p.definitionAt i).name id')]
    exact hrefines.shapes other s hs
  have hown : w.progressAt i ≠ .generic := by
    rw [hu]
    exact Progress.noConfusion
  obtain ⟨hp, -⟩ := progress_settle hsettle
  have hlt : i < w'.progress.size := hp ▸ lt_of_progressAt hown
  have hlabels := (labels_settle hsettle).1
  have hplace := placeOf_eq (progressAt_finishDefinition_self hlt (p.definitionAt i).name id')
  cases hname : (p.definitionAt i).name with
  | none =>
    rw [hname] at hrefines
    refine h.grow hrefines (htitled.of_eq rfl rfl rfl fun _ _ hs => hs) fun q hq => Or.inl ?_
    exact hlabels ▸ hq
  | some name =>
    rw [hname] at hrefines hplace
    have hnew : w'.table.names.lookup name = none := by
      rw [(Table.SameNotes.settle hsettle).names]
      by_contra hbound
      obtain ⟨other, hother⟩ := Option.ne_none_iff_exists'.mp hbound
      obtain ⟨j, hj, hdone⟩ := hw.bound name other hother
      cases (hw.declared i name hown hname).symm.trans hj
      cases hu.symm.trans hdone
    have hpositioned : Table.Titled
        { w'.table with positions := w'.table.positions.setIfInBounds i (some id') } :=
      htitled.of_eq rfl rfl rfl fun _ _ hs => hs
    refine h.grow hrefines (hpositioned.bindName hnew id') fun q hq => ?_
    rcases labels_bindName hq with hold | rfl
    · exact Or.inl (hlabels ▸ hold)
    · exact Or.inr (Or.inl ⟨i, hplace, hname⟩)

/-- A generic instance that is met again owns the place that it has. -/
theorem meetInstance (h : w.Entitled p) (hw : w.Faithful p) {key : InstanceKey} {n : Nat}
    {u u' : Underway} {slot : TypeId} (hnone : w.table.instances.lookup key = none)
    (hkey : w.instances.lookup key = some u)
    (hmeet : outcome (meetAgain u n (Program.instanceLabel w.table key)
      (some (Program.instanceLabel w.table key))) w = (.ok (slot, u'), w')) :
    (w'.setInstance key u').Entitled p := by
  obtain ⟨hrefines, -⟩ := hw.meetInstance hkey hmeet
  have htitled := titled_meetAgain h.titled hmeet
  refine h.grow hrefines htitled fun q hq => ?_
  refine (labels_meetAgain hmeet hq).imp_right fun ⟨hslot, hlabel⟩ => Or.inr ⟨key, w.table, ?_, ?_⟩
  · exact hslot ▸ instancePlace_meetInstance hnone hmeet
  · exact (Option.some.inj hlabel).symm

/-- A generic instance that is done owns its place. -/
theorem finishInstance (h : w.Entitled p) (hw : w.Faithful p) {key : InstanceKey} {u : Underway}
    {id id' : TypeId} {label : String} (hu : w.instances.lookup key = some u)
    (hsettle : outcome (settle u id label) (w.leaveInstance key) = (.ok id', w')) (t : Table) :
    (w'.finishInstance key (Program.instanceLabel t key) id').Entitled p := by
  have hrefines : w.Refines (w'.finishInstance key (Program.instanceLabel t key) id') :=
    refines_finishInstance hw.orderly hu hsettle
  have htitled : w'.table.Titled :=
    titled_settle (w := w.leaveInstance key) h.titled hsettle fun other s hs => by
      rw [← Table.shape?_congr (slots_finishInstance w' key (Program.instanceLabel t key) id')]
      exact hrefines.shapes other s hs
  have hnoted : Table.Titled
      { w'.table with instances := (key, id') :: w'.table.instances } :=
    htitled.of_eq rfl rfl rfl fun _ _ hs => hs
  refine h.grow hrefines (hnoted.setLabel id' _) fun q hq => ?_
  rcases labels_setLabel hq with hold | rfl
  · have hlabels : w'.table.labels = w.table.labels := (labels_settle hsettle).1
    exact Or.inl (hlabels ▸ hold)
  · refine Or.inr (Or.inr ⟨key, t, instancePlace_of_done ?_, rfl⟩)
    rw [(notes_finishInstance w' key _ id').2.2.2.2]
    exact List.lookup_cons_self

end Entitled

end Workspace

/-- Whatever is resolved, names and labels hang together, and labels are owned. -/
theorem Resolves.entitled {room : Nat} {task : Task} {n : Nat} {ids : List TypeId}
    (h : Resolves p room task n w (.ok ids) w') (hw : w.Faithful p) (hknown : task.Known w)
    (hentitled : w.Entitled p) : w'.Entitled p := by
  induction h using Resolves.ok_induction with
  | nil | placed | bound | known | done | cached => exact hentitled
  | next hfirst _ ih ih' =>
    have harrives := hfirst.arrives hw trivial
    exact ih' harrives.faithful trivial (ih hw trivial hentitled)
  | built _ _ _ ih => exact (ih hw trivial hentitled).intern _
  | index _ _ ih | declared _ _ _ ih => exact ih hw trivial hentitled
  | primitive => exact hentitled.intern _
  | applied hg hparts _ ih ih' =>
    have harrives := hparts.arrives hw trivial
    refine ih' harrives.faithful ?_ (ih hw trivial hentitled)
    rw [Task.Known, harrives.refines.generics]
    exact (genericOf_ok hg).1
  | again hi hmeet => exact hentitled.meetDefinition hw hi hmeet
  | defined hi hbody hu hsettle ih =>
    obtain ⟨henter, hentered⟩ := hw.enterDefinition hi _
    have hbody' := ih hentered trivial
      (hentitled.grow henter hentitled.titled fun q hq => Or.inl hq)
    exact hbody'.finishDefinition (hbody.arrives hentered trivial).faithful hu hsettle
  | againInstance hnone hkey hmeet => exact hentitled.meetInstance hw hnone hkey hmeet
  | instantiated hnone hkey hbody hu hsettle ih =>
    obtain ⟨henter, hentered⟩ := hw.enterInstance hnone hkey _
    have hbody' := ih hentered trivial
      (hentitled.grow henter hentitled.titled fun q hq => Or.inl hq)
    exact hbody'.finishInstance (hbody.arrives hentered trivial).faithful hu hsettle _

/-! ## Finished tables -/

namespace Table

/-- Where a name or a generic instance leads to the place, the label is that name or the text of
that instance. -/
def Owns (t : Table) (id : TypeId) (label : String) : Prop :=
  t.names.lookup label = some id ∨
    ∃ key t', t.instances.lookup key = some id ∧ label = Program.instanceLabel t' key

/-- When nothing is underway labels are owned by what is done. -/
theorem owns_of_idle (hw : w.Faithful p) (hidle : w.Idle) (h : w.Owns p id label) :
    w.table.Owns id label := by
  rcases h with ⟨i, hi, hname⟩ | ⟨key, t', hkey, hlabel⟩
  · cases hi' : w.progressAt i with
    | waiting | generic =>
      rw [Workspace.placeOf_eq hi'] at hi
      cases hi
    | underway u => exact (hidle.definitions i u hi').elim
    | done other =>
      rw [Workspace.placeOf_eq hi'] at hi
      cases hi
      exact Or.inl (hw.named i id label hi' hname)
  · exact Or.inr ⟨key, t', hidle.instancePlace hkey, hlabel⟩

theorem titled_fillAll {aliases : List (TypeId × TypeId)} (h : t.Titled)
    (hpending : Pending t aliases) (hfill : fillAll t aliases = .ok t') : t'.Titled := by
  refine h.of_eq (sameNotes_fillAll hfill).names ?_ (labels_fillAll hfill)
    (hpending.fillAll hfill).1
  exact fillAll_keeps (P := fun u => u.shared = t.shared) (fun _ _ _ _ hu => hu) rfl hfill

/-- In a table of definitions names and labels hang together, and labels are owned. -/
theorem titled_ofDefinitions {ds : List Definition} (h : Table.ofDefinitions ds = .ok t) :
    t.Titled ∧ ∀ id label, t.labels.lookup id = some label → t.Owns id label := by
  obtain ⟨known, w, hall, -, hrun, hfill, -⟩ := ofDefinitions_ok h
  have hof := Declared.of_all hall
  have hstart : (known.start ds).Entitled (known.program ds) := by
    refine ⟨⟨List.nodup_nil, fun id => ?_, by rintro id ⟨⟩, by rintro name id ⟨⟩⟩, by rintro q ⟨⟩⟩
    constructor
    · rintro ⟨⟩
    · rintro ⟨a, b, -, ⟨⟩, -⟩
  obtain ⟨⟨hfaithful, hentitled⟩, hidle, -⟩ := resolveAll_keeps
    (P := fun w => w.Faithful (known.program ds) ∧ w.Entitled (known.program ds))
    (fun i w ids w' hw _ hdef =>
      ⟨(hdef.faithful hw.1).1, hdef.entitled hw.1 trivial hw.2⟩)
    (waiting_start hof) (idle_start hof) ⟨faithful_start hof, hstart⟩ hrun
  have hnotes := sameNotes_fillAll hfill
  refine ⟨titled_fillAll hentitled.titled hfaithful.orderly.pending hfill,
    fun id label hlabel => ?_⟩
  rw [labels_fillAll hfill] at hlabel
  rw [Owns, hnotes.names, hnotes.instances]
  exact owns_of_idle hfaithful hidle (hentitled.owned _ (mem_of_lookup hlabel))

/-! ## Types that come later -/

/-- The labels of a table stay, and its shared places get none. -/
structure KeepsLabels (t t' : Table) : Prop where
  labelled : ∀ id label, t.labels.lookup id = some label → t'.labels.lookup id = some label
  shared : ∀ id ∈ t.shared, id ∈ t'.shared ∧ t'.labels.lookup id = t.labels.lookup id

namespace KeepsLabels

theorem of_eq (hlabels : t'.labels = t.labels) (hshared : t'.shared = t.shared) :
    t.KeepsLabels t' :=
  ⟨fun _ _ h => hlabels ▸ h, fun _ h => ⟨hshared ▸ h, by rw [hlabels]⟩⟩

theorem refl (t : Table) : t.KeepsLabels t := of_eq rfl rfl

theorem trans {t'' : Table} (h : t.KeepsLabels t') (h' : t'.KeepsLabels t'') :
    t.KeepsLabels t'' where
  labelled id label hid := h'.labelled id label (h.labelled id label hid)
  shared id hid := by
    obtain ⟨hid', hlabel⟩ := h.shared id hid
    exact ⟨(h'.shared id hid').1, (h'.shared id hid').2.trans hlabel⟩

theorem noteAll (t : Table) (notes : List Note) : t.KeepsLabels (t.noteAll notes) := by
  induction notes with
  | nil => exact refl t
  | cons n notes ih =>
    refine ih.trans ?_
    let noted : Table :=
      { t.noteAll notes with instances := (n.key, n.id) :: (t.noteAll notes).instances }
    have hlookup := lookup_setLabel noted n.id n.label
    refine ⟨fun id label hid => (hlookup id).1 label hid, fun id hid => ⟨?_, (hlookup id).2 hid⟩⟩
    change id ∈ (noted.setLabel n.id n.label).shared
    rw [(names_setLabel noted n.id n.label).2]
    exact hid

/-- What is looked up at known places is what undoing would leave there. -/
theorem of_rollback (ht : t.Closed) (h : t.KeepsLabels (t'.rollback t.size)) :
    t.KeepsLabels t' where
  labelled id label hid := by
    have hlt : id < t.size := ht.labels _ (mem_of_lookup hid)
    rw [← h.labelled id label hid]
    exact (lookup_filter_of_pos (· < t.size) (by simpa using hlt)).symm
  shared id hid := by
    have hlt : id < t.size := ht.shared id hid
    obtain ⟨hshared, hlabel⟩ := h.shared id hid
    refine ⟨(List.mem_filter.mp hshared).1, ?_⟩
    rw [← hlabel]
    exact (lookup_filter_of_pos (· < t.size) (by simpa using hlt)).symm

/-- A table that takes up a type, or fails to, keeps its labels. -/
theorem extend (ht : t.Closed) (e : TypeExpr) : t.KeepsLabels (t.extend e).2 := by
  obtain ⟨notes, -, hrollback, -⟩ := (since_resolving ht e).notes
  have hkept : t.KeepsLabels ((t.resolving e).2.table.rollback t.size) := by
    rw [hrollback]
    exact noteAll t _
  rcases extend_cases t e with ⟨id, t', -, hfill, -, h⟩ | ⟨x, h⟩
  · rw [h]
    refine (of_rollback ht hkept).trans (of_eq (labels_fillAll hfill) ?_)
    exact fillAll_keeps (P := fun u => u.shared = (t.resolving e).2.table.shared)
      (fun _ _ _ _ hu => hu) rfl hfill
  · rw [h]
    exact hkept

end KeepsLabels

/-! ## What is shown -/

/-- A place with a label is shown by it. -/
theorem text_of_label (h : t.labels.lookup id = some label) : t.text id = label := by
  refine (Workspace.spoken_textWithin t textBudget [] id textBudget).trans ?_
  simp [h, textBudget]

/-- The structure of a shape at a place, with what the budget leaves for it. -/
def structureText (t : Table) (id : TypeId) (s : Shape) : String :=
  spoken (s.textWith (t.textWithin textBudget [id])) (textBudget - 1)

/-- A place without a label is shown by its structure. -/
theorem text_of_shape {s : Shape} (h : t.labels.lookup id = none) (hs : t.shape? id = some s) :
    t.text id = t.structureText id s := by
  refine (Workspace.spoken_textWithin t textBudget [] id textBudget).trans ?_
  simp [h, hs, textBudget, structureText]

end Table

/-- The text begins with a sign with which no name begins. -/
def Bracketed (text : String) : Prop := ∃ c cs, text.toList = c :: cs ∧ startsName c = false

theorem Bracketed.append {text : String} (h : Bracketed text) (rest : String) :
    Bracketed (text ++ rest) := by
  obtain ⟨c, cs, htext, hc⟩ := h
  exact ⟨c, cs ++ rest.toList, by simp [htext], hc⟩

/-- The structure of a type begins with a bracket, or with the sign of a compact form. -/
theorem bracketed_textWith {s : Shape} (h : s.isPrimitive = false)
    (textOf : TypeId → StateM Nat String) (budget : Nat) :
    Bracketed (spoken (s.textWith textOf) budget) := by
  cases s with
  | primitive => cases h
  | compact inner =>
    have hsign : Bracketed "@" := ⟨'@', [], by decide, by decide⟩
    exact hsign.append _
  | sequence element =>
    have hsign : Bracketed "[" := ⟨'[', [], by decide, by decide⟩
    exact (hsign.append (spoken (textOf element) budget)).append "]"
  | array element length =>
    have hsign : Bracketed "[" := ⟨'[', [], by decide, by decide⟩
    exact (((hsign.append (spoken (textOf element) budget)).append ";").append _).append "]"
  | tuple members =>
    have hsign : Bracketed "(" := ⟨'(', [], by decide, by decide⟩
    exact (hsign.append (commaJoined (spoken (members.mapM textOf) budget))).append ")"
  | enum variants =>
    have hsign : Bracketed "<" := ⟨'<', [], by decide, by decide⟩
    exact (hsign.append (commaJoined (spoken (variants.zipIdx.mapM _) budget))).append ">"
  | struct fields =>
    have hsign : Bracketed "\x7b" := ⟨'\x7b', [], by decide, by decide⟩
    exact (hsign.append (commaJoined (spoken (fields.mapM _) budget))).append "\x7d"

end Typewire
