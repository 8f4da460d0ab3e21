-- Resolution is faithful to what is written. Whatever a type comes to holds what the type
-- denotes, in every table that keeps what the workspace promises then. So it does not matter
-- that shapes come late: they are promised where they are needed.
import Typewire.Proofs.Shape.Denotes
import Typewire.Proofs.Shape.Orderly
import Typewire.Proofs.Shape.Promises

namespace Typewire

open Typewire.Language Resolving

/-! ## Faithful workspaces -/

/-- What is done holds what its body denotes, once the promises are kept. A definition is done at
its position and under its name. -/
structure Workspace.Faithful (p : Program) (w : Workspace) : Prop where
  orderly : w.Orderly
  size : w.progress.size = p.definitions.size
  positions : w.table.positions.size = p.definitions.size
  done : ∀ i id, w.progressAt i = .done id → w.table.positions[i]? = some (some id)
  declared : ∀ i name, w.progressAt i ≠ .generic → (p.definitionAt i).name = some name →
    p.positionOf.lookup name = some i
  bound : ∀ name id, w.table.names.lookup name = some id →
    ∃ i, p.positionOf.lookup name = some i ∧ w.progressAt i = .done id
  named : ∀ i id name, w.progressAt i = .done id → (p.definitionAt i).name = some name →
    w.table.names.lookup name = some id
  definitions : ∀ i id, w.progressAt i = .done id →
    ∀ t, w.KeptBy t → Denotes p t (p.definitionAt i).body [] id
  instances : ∀ key id, w.table.instances.lookup key = some id →
    ∃ g, w.table.generics.lookup key.name = some g ∧
      ∀ t, w.KeptBy t → Denotes p t g.body (Program.bind g.params key.args) id

namespace Workspace

variable {p : Program} {w w' w'' : Workspace}

/-! ## What is not done yet -/

/-- A workspace stays faithful where nothing more is done. -/
theorem Faithful.goOn (h : w.Faithful p) (hw : w.Refines w')
    (horderly : w'.Orderly) (hnotes : w.table.SameNotes w'.table)
    (hsize : w'.progress.size = w.progress.size)
    (hdone : ∀ i id, w'.progressAt i = .done id ↔ w.progressAt i = .done id)
    (hown : ∀ i, w'.progressAt i ≠ .generic → w.progressAt i ≠ .generic) : w'.Faithful p where
  orderly := horderly
  size := hsize.trans h.size
  positions := by rw [hnotes.positions, h.positions]
  done i id hi := by rw [hnotes.positions, h.done i id ((hdone i id).mp hi)]
  declared i name hi hname := h.declared i name (hown i hi) hname
  bound name id hname := by
    rw [hnotes.names] at hname
    obtain ⟨i, hi, hid⟩ := h.bound name id hname
    exact ⟨i, hi, (hdone i id).mpr hid⟩
  named i id name hi hname := by
    rw [hnotes.names, h.named i id name ((hdone i id).mp hi) hname]
  definitions i id hi t ht := h.definitions i id ((hdone i id).mp hi) t (ht.of_refines hw)
  instances key id hid := by
    rw [hnotes.instances] at hid
    obtain ⟨g, hg, hbody⟩ := h.instances key id hid
    exact ⟨g, by rw [hnotes.generics, hg], fun t ht => hbody t (ht.of_refines hw)⟩

theorem refines_intern (w : Workspace) (s : Shape) : w.Refines (w.intern s) :=
  .of_shapes (fun _ _ hs => Table.shape?_intern s hs) rfl rfl rfl
    (Table.SameNotes.intern s).instances (Table.SameNotes.intern s).generics

theorem Faithful.intern (h : w.Faithful p) (s : Shape) : (w.intern s).Faithful p :=
  h.goOn (refines_intern w s) (h.orderly.intern s) (.intern s) rfl (fun _ _ => Iff.rfl)
    fun _ hi => hi

theorem done_setProgress {i : Nat} {q : Progress} (hq : ∀ id, q ≠ .done id)
    (hi : ∀ id, w.progressAt i ≠ .done id) (j : Nat) (id : TypeId) :
    (w.setProgress i q).progressAt j = .done id ↔ w.progressAt j = .done id := by
  constructor
  · intro hj
    rcases of_progressAt_setProgress hj (by simp) with ⟨-, hqid⟩ | ⟨-, hj⟩
    · exact absurd hqid (hq id)
    · exact hj
  · intro hj
    have hij : j ≠ i := fun hij => hi id (hij ▸ hj)
    rw [progressAt_setProgress_ne hij, hj]

theorem own_setProgress {i : Nat} {q : Progress} (hi : w.progressAt i ≠ .generic) (j : Nat)
    (hj : (w.setProgress i q).progressAt j ≠ .generic) : w.progressAt j ≠ .generic := by
  by_cases hij : j = i
  · rw [hij]
    exact hi
  · rwa [progressAt_setProgress_ne hij] at hj

theorem refines_meetAgain {u u' : Underway} {n : Nat} {label : String}
    {reservedLabel : Option String} {slot : TypeId}
    (h : outcome (meetAgain u n label reservedLabel) w = (.ok (slot, u'), w')) :
    w.Refines w' := by
  obtain ⟨hp, hinst⟩ := progress_meetAgain h
  have hnotes := Table.SameNotes.meetAgain h
  exact .of_shapes (fun id s hs => (shape?_meetAgain h id).trans hs) (aliases_meetAgain h) hp hinst
    hnotes.instances hnotes.generics

theorem instancePlace_meetInstance {key : InstanceKey} {u u' : Underway} {n : Nat} {label : String}
    {reservedLabel : Option String} {slot : TypeId}
    (hdone : w.table.instances.lookup key = none)
    (hmeet : outcome (meetAgain u n label reservedLabel) w = (.ok (slot, u'), w')) :
    (w'.setInstance key u').instancePlace key = some slot := by
  have hdone' : (w'.setInstance key u').table.instances.lookup key = none :=
    (congrArg _ (Table.SameNotes.meetAgain hmeet).instances).trans hdone
  have hself : (w'.setInstance key u').instances.lookup key = some u' := by
    simp [Workspace.setInstance]
  rw [instancePlace_of_underway hdone' hself]
  exact (underway_meetAgain hmeet).2

theorem refines_enterDefinition {i : Nat} (hi : w.progressAt i = .waiting) (u : Underway) :
    w.Refines (w.setProgress i (.underway u)) := by
  refine .setProgress fun id hid => ?_
  rw [placeOf_eq hi] at hid
  cases hid

theorem refines_meetDefinition {i n : Nat} {u u' : Underway} {slot : TypeId} {label : String}
    {reservedLabel : Option String} (hi : w.progressAt i = .underway u)
    (hmeet : outcome (meetAgain u n label reservedLabel) w = (.ok (slot, u'), w')) :
    w.Refines (w'.setProgress i (.underway u')) := by
  obtain ⟨hp, -⟩ := progress_meetAgain hmeet
  refine (refines_meetAgain hmeet).trans (.setProgress fun id hid => ?_)
  rw [placeOf_eq ((progressAt_of_eq hp i).trans hi)] at hid
  exact (underway_meetAgain hmeet).1.reserved id hid

theorem refines_meetInstance {key : InstanceKey} {n : Nat} {u u' : Underway} {slot : TypeId}
    {label : String} {reservedLabel : Option String} (hkey : w.instances.lookup key = some u)
    (hmeet : outcome (meetAgain u n label reservedLabel) w = (.ok (slot, u'), w')) :
    w.Refines (w'.setInstance key u') := by
  obtain ⟨-, hinst⟩ := progress_meetAgain hmeet
  refine (refines_meetAgain hmeet).trans (.setInstance fun v hv other hother => ?_)
  rw [hinst, hkey] at hv
  cases hv
  exact (underway_meetAgain hmeet).1.reserved other hother

/-- A definition goes underway. -/
theorem Faithful.enterDefinition (h : w.Faithful p) {i : Nat} (hi : w.progressAt i = .waiting)
    (n : Nat) : w.Refines (w.setProgress i (.underway ⟨n, none⟩)) ∧
      (w.setProgress i (.underway ⟨n, none⟩)).Faithful p := by
  have hrefines := refines_enterDefinition hi ⟨n, none⟩
  have hown : w.progressAt i ≠ .generic := by
    rw [hi]
    exact Progress.noConfusion
  exact ⟨hrefines, h.goOn hrefines (h.orderly.enterDefinition hi n) (.refl _)
    (by simp [Workspace.setProgress])
    (done_setProgress (by rintro id ⟨⟩) (by rw [hi]; rintro id ⟨⟩)) (own_setProgress hown)⟩

/-- A definition underway is met again. -/
theorem Faithful.meetDefinition (h : w.Faithful p) {i n : Nat} {u u' : Underway} {slot : TypeId}
    {label : String} {reservedLabel : Option String} (hi : w.progressAt i = .underway u)
    (hmeet : outcome (meetAgain u n label reservedLabel) w = (.ok (slot, u'), w')) :
    w.Refines (w'.setProgress i (.underway u')) ∧
      (w'.setProgress i (.underway u')).Faithful p := by
  obtain ⟨hp, -⟩ := progress_meetAgain hmeet
  have hnotes := Table.SameNotes.meetAgain hmeet
  have hi' : w'.progressAt i = .underway u := (progressAt_of_eq hp i).trans hi
  have hown : w'.progressAt i ≠ .generic := by
    rw [hi']
    exact Progress.noConfusion
  have hrefines := refines_meetDefinition hi hmeet
  refine ⟨hrefines, h.goOn hrefines (h.orderly.meetDefinition hi hmeet) hnotes ?_ ?_ ?_⟩
  · simp [Workspace.setProgress, hp]
  · intro j id
    rw [done_setProgress (by rintro id ⟨⟩) (by rw [hi']; rintro id ⟨⟩) j id,
      progressAt_of_eq hp]
  · intro j hj
    have := own_setProgress hown j hj
    rwa [progressAt_of_eq hp] at this

/-- A generic instance goes underway. -/
theorem Faithful.enterInstance (h : w.Faithful p) {key : InstanceKey}
    (hdone : w.table.instances.lookup key = none) (hkey : w.instances.lookup key = none) (n : Nat) :
    w.Refines (w.enterInstance key n) ∧ (w.enterInstance key n).Faithful p := by
  have hrefines := Refines.enterInstance (n := n) hkey
  exact ⟨hrefines, h.goOn hrefines (h.orderly.enterInstance hdone hkey n) (.refl _) rfl
    (fun _ _ => Iff.rfl) fun _ hi => hi⟩

/-- A generic instance underway is met again. -/
theorem Faithful.meetInstance (h : w.Faithful p) {key : InstanceKey} {n : Nat} {u u' : Underway}
    {slot : TypeId} {label : String} {reservedLabel : Option String}
    (hkey : w.instances.lookup key = some u)
    (hmeet : outcome (meetAgain u n label reservedLabel) w = (.ok (slot, u'), w')) :
    w.Refines (w'.setInstance key u') ∧ (w'.setInstance key u').Faithful p := by
  obtain ⟨hp, -⟩ := progress_meetAgain hmeet
  have hnotes := Table.SameNotes.meetAgain hmeet
  have hrefines := refines_meetInstance hkey hmeet
  refine ⟨hrefines, h.goOn hrefines (h.orderly.meetInstance hkey hmeet) hnotes ?_ ?_ ?_⟩
  · exact congrArg Array.size hp
  · intro i id
    exact Iff.of_eq (congrArg (· = _) (progressAt_of_eq hp i))
  · intro i hi
    have hsame : (w'.setInstance key u').progressAt i = w.progressAt i := progressAt_of_eq hp i
    rwa [← hsame]

/-! ## What is done -/

/-- How names are looked up when a definition is done. -/
theorem lookup_names_finishDefinition (w : Workspace) (i : Nat) (name? : Option String)
    (id : TypeId) (name : String) :
    (w.finishDefinition i name? id).table.names.lookup name
      = if name? = some name then some id else w.table.names.lookup name := by
  cases name? with
  | none => rfl
  | some name' =>
    rcases Table.bindName_cases
        { w.table with positions := w.table.positions.setIfInBounds i (some id) } name' id with
      ⟨hname, ht⟩ | ⟨labels, shared, ht⟩
    · simp only [finishDefinition, ht]
      split
      · rename_i hsame
        cases hsame
        exact hname
      · rfl
    · simp only [finishDefinition, ht]
      by_cases hsame : name' = name
      · subst hsame
        simp
      · have hne : name ≠ name' := fun h => hsame h.symm
        simp [List.lookup_cons, beq_false_of_ne hne, hsame]

theorem placeOf_finishDefinition_ne {i j : Nat} (h : j ≠ i) (name? : Option String)
    (id : TypeId) : (w.finishDefinition i name? id).placeOf j = w.placeOf j :=
  (placeOf_congr rfl j).trans (placeOf_setProgress_ne h)

section Finishing

variable {i : Nat} {u : Underway} {id id' : TypeId} {label : String}

/-- What is promised stays promised when a definition is done. -/
theorem refines_finishDefinition (h : w.Orderly) (hu : w.progressAt i = .underway u)
    (hsettle : outcome (settle u id label) w = (.ok id', w')) (name? : Option String) :
    w.Refines (w'.finishDefinition i name? id') := by
  obtain ⟨hp, hinst⟩ := progress_settle hsettle
  obtain ⟨new, hnew⟩ := aliases_settle hsettle
  have hnotes := Table.SameNotes.settle hsettle
  obtain ⟨-, hinstances, hgenerics, -⟩ := notes_finishDefinition w' i name? id'
  have hself : w.reservedBy (.definition i) = u.reserved := by
    rw [reservedBy, hu]
    rfl
  refine ⟨?_, ?_, ?_, ?_, hgenerics.trans hnotes.generics⟩
  · intro other s hs
    rw [Table.shape?_congr (slots_finishDefinition w' i name? id') other]
    exact shape?_settle h.reserved hsettle hself hs
  · intro a ha
    change a ∈ w'.aliases
    rw [hnew]
    exact List.mem_append_left _ ha
  · intro j other hj
    by_cases hij : j = i
    · subst hij
      have hlt := lt_of_progressAt (show w.progressAt j ≠ .generic by rw [hu]; simp)
      rw [placeOf_eq hu] at hj
      rw [placeOf_eq (progressAt_finishDefinition_self (by rwa [hp]) name? id')]
      rcases settle_ok hsettle with ⟨hnone, -, -⟩ | ⟨hslot, -⟩ | ⟨hslot, -⟩
      · cases hnone.symm.trans hj
      · exact hslot.symm.trans hj
      · exact hslot.symm.trans hj
    · rw [placeOf_finishDefinition_ne hij, placeOf_congr hp, hj]
  · intro key other hkey
    rw [instancePlace_congr (hinstances.trans hnotes.instances) hinst, hkey]

/-- A definition whose body came to a place is done where that settles. -/
theorem Faithful.finishDefinition (h : w.Faithful p) (hu : w.progressAt i = .underway u)
    (hsettle : outcome (settle u id label) w = (.ok id', w'))
    (hbody : ∀ t, w.KeptBy t → Denotes p t (p.definitionAt i).body [] id) :
    (w'.finishDefinition i (p.definitionAt i).name id').Faithful p := by
  obtain ⟨hp, hinst⟩ := progress_settle hsettle
  have hnotes := Table.SameNotes.settle hsettle
  obtain ⟨hpositions, hinstances, hgenerics, -⟩ :=
    notes_finishDefinition w' i (p.definitionAt i).name id'
  have hrefines := refines_finishDefinition h.orderly hu hsettle (p.definitionAt i).name
  have hself : w.reservedBy (.definition i) = u.reserved := by
    rw [reservedBy, hu]
    rfl
  have hown : w.progressAt i ≠ .generic := by
    rw [hu]
    exact Progress.noConfusion
  have hlt : i < w.progress.size := lt_of_progressAt hown
  have hdone := progressAt_finishDefinition_self (w := w') (hp ▸ hlt) (p.definitionAt i).name id'
  have hothers {j : Nat} (hij : j ≠ i) :
      (w'.finishDefinition i (p.definitionAt i).name id').progressAt j = w.progressAt j :=
    (progressAt_finishDefinition_ne hij _ id').trans (progressAt_of_eq hp j)
  have hdone_cases {j : Nat} {other : TypeId}
      (hj : (w'.finishDefinition i (p.definitionAt i).name id').progressAt j = .done other) :
      (j = i ∧ other = id') ∨ (j ≠ i ∧ w.progressAt j = .done other) := by
    by_cases hij : j = i
    · subst hij
      cases hdone.symm.trans hj
      exact Or.inl ⟨rfl, rfl⟩
    · exact Or.inr ⟨hij, (hothers hij).symm.trans hj⟩
  constructor
  case orderly => exact h.orderly.finishDefinition hu hsettle _
  case size =>
    change (w'.progress.setIfInBounds i _).size = _
    rw [Array.size_setIfInBounds, hp, h.size]
  case positions => rw [hpositions, Array.size_setIfInBounds, hnotes.positions, h.positions]
  case done =>
    intro j other hj
    rw [hpositions, hnotes.positions]
    rcases hdone_cases hj with ⟨rfl, rfl⟩ | ⟨hij, hj⟩
    · rw [Array.getElem?_setIfInBounds_self_of_lt (by rw [h.positions, ← h.size]; exact hlt)]
    · rw [Array.getElem?_setIfInBounds_ne (Ne.symm hij), h.done j other hj]
  case declared =>
    intro j name hj hname
    refine h.declared j name ?_ hname
    by_cases hij : j = i
    · rw [hij]
      exact hown
    · rwa [hothers hij] at hj
  case bound =>
    intro name other hname
    rw [lookup_names_finishDefinition] at hname
    split at hname
    · rename_i hsame
      cases hname
      exact ⟨i, h.declared i name hown hsame, hdone⟩
    · rw [hnotes.names] at hname
      obtain ⟨j, hj, hid⟩ := h.bound name other hname
      have hij : j ≠ i := by
        rintro rfl
        cases hu.symm.trans hid
      exact ⟨j, hj, (hothers hij).trans hid⟩
  case named =>
    intro j other name hj hname
    rw [lookup_names_finishDefinition]
    rcases hdone_cases hj with ⟨rfl, rfl⟩ | ⟨hij, hj⟩
    · rw [if_pos hname]
    · have hbound := h.named j other name hj hname
      split
      · rename_i hsame
        have hpos := h.declared i name hown hsame
        have hpos' := h.declared j name (by rw [hj]; simp) hname
        exact absurd (Option.some.inj (hpos'.symm.trans hpos)) hij
      · rw [hnotes.names, hbound]
  case definitions =>
    intro j other hj t ht
    rcases hdone_cases hj with ⟨rfl, rfl⟩ | ⟨-, hj⟩
    · refine (hbody t (ht.of_refines hrefines)).congr ?_
      refine shape?_settled h.orderly.reserved hsettle hself ?_ ht.aliases
      intro place s hs
      refine ht.shapes place s ?_
      rw [Table.shape?_congr (slots_finishDefinition w' j _ other) place, hs]
    · exact h.definitions j other hj t (ht.of_refines hrefines)
  case instances =>
    intro key other hkey
    rw [hinstances, hnotes.instances] at hkey
    obtain ⟨g, hg, hinst⟩ := h.instances key other hkey
    refine ⟨g, ?_, fun t ht => hinst t (ht.of_refines hrefines)⟩
    rw [hgenerics, hnotes.generics, hg]

variable {key : InstanceKey} {label' : String}

theorem refines_finishInstance (h : w.Orderly) (hu : w.instances.lookup key = some u)
    (hsettle : outcome (settle u id label) (w.leaveInstance key) = (.ok id', w')) :
    w.Refines (w'.finishInstance key label' id') := by
  obtain ⟨hp, hinst⟩ := progress_settle hsettle
  obtain ⟨new, hnew⟩ := aliases_settle hsettle
  have hnotes := Table.SameNotes.settle hsettle
  obtain ⟨-, -, hgenerics, -, hinstances⟩ := notes_finishInstance w' key label' id'
  have hself : w.reservedBy (.generic key) = u.reserved := by
    rw [reservedBy, hu]
    rfl
  have hreserved : (w.leaveInstance key).table.Reserved w.reservedBy := h.reserved
  refine ⟨?_, ?_, ?_, ?_, hgenerics.trans hnotes.generics⟩
  · intro other s hs
    rw [Table.shape?_congr (slots_finishInstance w' key label' id') other]
    exact shape?_settle hreserved hsettle hself hs
  · intro a ha
    change a ∈ w'.aliases
    rw [hnew]
    exact List.mem_append_left _ ha
  · intro j other hj
    exact (placeOf_congr hp j).trans hj
  · intro other place hplace
    by_cases hother : other = key
    · subst hother
      rw [instancePlace_of_underway (h.fresh other u hu) hu] at hplace
      refine instancePlace_of_done ?_
      rw [hinstances, List.lookup_cons, beq_self_eq_true]
      rcases settle_ok hsettle with ⟨hnone, -, -⟩ | ⟨hslot, -⟩ | ⟨hslot, -⟩
      · cases hnone.symm.trans hplace
      · exact hslot.symm.trans hplace
      · exact hslot.symm.trans hplace
    · have hdone : (w'.finishInstance key label' id').table.instances.lookup other
          = w.table.instances.lookup other := by
        rw [hinstances, List.lookup_cons, beq_false_of_ne hother]
        exact congrArg (List.lookup other) hnotes.instances
      have hunderway : (w'.finishInstance key label' id').instances.lookup other
          = w.instances.lookup other := by
        change w'.instances.lookup other = _
        rw [hinst]
        exact lookup_filter_ne hother
      rw [instancePlace, hdone, hunderway]
      exact hplace

/-- A generic instance whose body came to a place is done where that settles. -/
theorem Faithful.finishInstance (h : w.Faithful p) (hu : w.instances.lookup key = some u)
    (hsettle : outcome (settle u id label) (w.leaveInstance key) = (.ok id', w')) {g : Generic}
    (hg : w.table.generics.lookup key.name = some g)
    (hbody : ∀ t, w.KeptBy t → Denotes p t g.body (Program.bind g.params key.args) id) :
    (w'.finishInstance key label' id').Faithful p := by
  obtain ⟨hp, hinst⟩ := progress_settle hsettle
  have hnotes := Table.SameNotes.settle hsettle
  obtain ⟨hpositions, hnames, hgenerics, -, hinstances⟩ := notes_finishInstance w' key label' id'
  have hrefines : w.Refines (w'.finishInstance key label' id') :=
    refines_finishInstance h.orderly hu hsettle
  have hself : w.reservedBy (.generic key) = u.reserved := by
    rw [reservedBy, hu]
    rfl
  have hreserved : (w.leaveInstance key).table.Reserved w.reservedBy := h.orderly.reserved
  have hsame (i : Nat) :
      (w'.finishInstance key label' id').progressAt i = w.progressAt i := progressAt_of_eq hp i
  have hgenericsAll : (w'.finishInstance key label' id').table.generics = w.table.generics :=
    hgenerics.trans hnotes.generics
  constructor
  case orderly => exact h.orderly.finishInstance hu hsettle
  case size => exact (congrArg Array.size hp).trans h.size
  case positions =>
    exact (congrArg Array.size (hpositions.trans hnotes.positions)).trans h.positions
  case done =>
    intro i other hi
    rw [hpositions, hnotes.positions]
    exact h.done i other ((hsame i).symm.trans hi)
  case declared =>
    intro i name hi hname
    exact h.declared i name (hsame i ▸ hi) hname
  case bound =>
    intro name other hname
    rw [hnames, hnotes.names] at hname
    obtain ⟨i, hi, hid⟩ := h.bound name other hname
    exact ⟨i, hi, (hsame i).trans hid⟩
  case named =>
    intro i other name hi hname
    rw [hnames, hnotes.names]
    exact h.named i other name ((hsame i).symm.trans hi) hname
  case definitions =>
    intro i other hi t ht
    exact h.definitions i other ((hsame i).symm.trans hi) t (ht.of_refines hrefines)
  case instances =>
    intro other place hplace
    rw [hinstances, List.lookup_cons] at hplace
    by_cases hother : other = key
    · subst hother
      rw [beq_self_eq_true] at hplace
      cases hplace
      refine ⟨g, by rw [hgenericsAll, hg], fun t ht => ?_⟩
      refine (hbody t (ht.of_refines hrefines)).congr ?_
      refine shape?_settled hreserved hsettle hself ?_ ht.aliases
      intro spot s hs
      refine ht.shapes spot s ?_
      rw [Table.shape?_congr (slots_finishInstance w' other label' id') spot, hs]
    · rw [beq_false_of_ne hother, hnotes.instances] at hplace
      obtain ⟨g', hg', hinst'⟩ := h.instances other place hplace
      exact ⟨g', by rw [hgenericsAll, hg'], fun t ht => hinst' t (ht.of_refines hrefines)⟩

end Finishing

end Workspace

end Typewire
