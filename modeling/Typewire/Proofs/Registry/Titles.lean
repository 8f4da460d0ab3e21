-- Names that are shown. In a registry that was read from text a type with two declared names or
-- more is shown by its structure. A type with a single one is shown by that, unless a generic
-- instance came to its place first: then it is shown as the instance, and it stays so.
import Typewire.Proofs.Language.Displayed
import Typewire.Proofs.Registry.Stable
import Typewire.Proofs.Shape.Titled

namespace Typewire

open Typewire.Language

variable {t t' : Table} {p : Program} {progress : Array Progress}

/-! ## Names begin with letters -/

theorem Language.IsName.not_bracketed {name : String} (h : IsName name) (rest : String) :
    ¬ Bracketed (name ++ rest) := by
  rintro ⟨c, cs, htext, hc⟩
  obtain ⟨first, others, hname, hfirst, -⟩ := h
  rw [String.toList_append, hname, List.cons_append] at htext
  cases htext
  rw [hfirst] at hc
  cases hc

namespace Table

/-- What calls a place begins with the name of a definition. -/
theorem Legible.not_bracketed (ht : t.Legible p progress) {label : String} (h : t.Calls label) :
    ¬ Bracketed label := by
  have hgeneric {name : String} (hname : name ∈ t.generics.map Prod.fst) : IsName name := by
    obtain ⟨g, hg⟩ := Option.isSome_iff_exists.mp (mem_keys_iff.mp hname)
    exact (ht.written.generics name g hg).1
  rcases h with hname | ⟨name, hname, texts, rfl⟩
  · have hlabel : IsName label := by
      rcases List.mem_append.mp hname with hname | hname
      · obtain ⟨id, hid⟩ := Option.isSome_iff_exists.mp (mem_keys_iff.mp hname)
        obtain ⟨i, hi, -⟩ := ht.settled.faithful.bound label id hid
        exact ht.written.names i label hi
      · exact hgeneric hname
    have hself := hlabel.not_bracketed ""
    rwa [String.append_empty] at hself
  · rw [String.append_assoc, String.append_assoc]
    exact (hgeneric hname).not_bracketed _

/-! ## Questions -/

/-- No question takes a label away, or gives one to a shared place. -/
theorem Step.keepsLabels (h : t.Step t') (ht : t.Closed) : t.KeepsLabels t' := by
  cases h with
  | same => exact .refl t
  | extended e => exact .extend ht e
  | remembered => exact (KeepsLabels.extend ht _).trans (.of_eq rfl rfl)
  | tuple =>
    refine .of_eq (labels_intern _) ?_
    rcases intern_cases t _ with ⟨_, -, hi⟩ | ⟨-, hi⟩ <;> rw [hi]

end Table

namespace Registry

variable {r : Registry}

theorem Reachable.keepsLabels (h : r.Reachable) (qs : List Question) :
    r.table.KeepsLabels (Registry.afterAll qs r).table := by
  induction qs generalizing r with
  | nil => exact .refl _
  | cons q qs ih =>
    exact ((step_of_question q r).keepsLabels h.closed_and_sound.1).trans (ih (h.asked q))

/-! ## The names that are shown -/

/-- In a registry that was read from text, after any questions: a type with two declared names or
more has no label and is shown by its structure, which is never what calls a place. A type with a
single declared name is shown by it or, where a generic instance had come to its place when the text
was read, as that instance. -/
theorem a_single_declared_name_is_shown_unless_an_instance_came_first {text : String}
    (hr : parse text = .ok r) (qs : List Question) {id : TypeId} {s : Shape}
    (hs : (afterAll qs r).table.shape? id = some s) (hprimitive : s.isPrimitive = false) :
    (∀ a b, a ≠ b → (afterAll qs r).lookup? a = some id → (afterAll qs r).lookup? b = some id →
      (afterAll qs r).table.labels.lookup id = none ∧
      (afterAll qs r).table.text id = (afterAll qs r).table.structureText id s ∧
      ¬ (afterAll qs r).table.Calls ((afterAll qs r).table.text id)) ∧
    (∀ name, (afterAll qs r).lookup? name = some id →
      (∀ other, (afterAll qs r).lookup? other = some id → other = name) →
      (afterAll qs r).table.text id = name ∨
        ∃ key t, r.table.instances.lookup key = some id ∧
          (afterAll qs r).table.text id = Program.instanceLabel t key) := by
  have hreachable : r.Reachable := .made (.parsed hr)
  obtain ⟨ds, hds, htable⟩ := parse_ok hr
  obtain ⟨htitled, howned⟩ := Table.titled_ofDefinitions htable
  obtain ⟨known, progress, -, -, -, hlegible⟩ :=
    Table.legible_ofDefinitions htable (spelled_of_parseDefinitions hds)
  have hheld := (hreachable.world.keeps_afterAll qs).holds
  have hlabels := hreachable.keepsLabels qs
  have hlookup (name : String) : (afterAll qs r).lookup? name = r.table.names.lookup name := by
    rw [lookup?, hheld.names]
  simp only [hlookup]
  constructor
  · intro a b hne ha hb
    have hshared := (htitled.shared id).mpr ⟨a, b, hne, ha, hb⟩
    have hplain : (afterAll qs r).table.labels.lookup id = none :=
      (hlabels.shared id hshared).2.trans (htitled.plain id hshared)
    have hshown := Table.text_of_shape hplain hs
    refine ⟨hplain, hshown, fun hcalls => ?_⟩
    have hcalls' : r.table.Calls ((afterAll qs r).table.text id) := by
      rwa [Table.Calls, hheld.names, hheld.generics] at hcalls
    rw [hshown] at hcalls'
    exact hlegible.not_bracketed hcalls' (bracketed_textWith hprimitive _ _)
  · intro name hname honly
    have hlt : id < r.table.size := hreachable.closed_and_sound.1.names _ (mem_of_lookup hname)
    have hshape : r.table.shape? id = some s := (hheld.shape? id hlt).symm.trans hs
    rcases htitled.single name id hname with hshared | ⟨label, hlabel⟩ | hprimitive'
    · obtain ⟨a, b, hne, ha, hb⟩ := (htitled.shared id).mp hshared
      exact absurd ((honly a ha).trans (honly b hb).symm) hne
    · rw [Table.text_of_label (hlabels.labelled id label hlabel)]
      rcases howned id label hlabel with hbound | hinstance
      · exact Or.inl (honly label hbound)
      · exact Or.inr hinstance
    · simp [hshape, hprimitive] at hprimitive'

/-- A point is a generic pair, and lists of bytes have two names. -/
def pointText : String := "Pair<A,B> = (A,B)\nPoint = Pair<i32,i32>\nBytes = [u8]\nBlob = [u8]"

/-- The registry of them. -/
def points : Registry := (parse pointText).toOption.getD empty

/-- The point has a single name and is shown as a pair all the same. The lists of bytes are shown by
neither of their names. -/
theorem a_point_is_shown_as_a_pair :
    parse pointText = .ok points ∧ points.lookup? "Point" = some 1 ∧
      (∀ other, points.lookup? other = some 1 → other = "Point") ∧
      points.table.text 1 = "Pair<i32,i32>" ∧
      (∃ key t, points.table.instances.lookup key = some 1 ∧
        points.table.text 1 = Program.instanceLabel t key) ∧
      points.lookup? "Bytes" = some 3 ∧ points.lookup? "Blob" = some 3 ∧
      points.table.labels.lookup 3 = none ∧ ¬ points.table.Calls (points.table.text 3) := by
  have hmade : parse pointText = .ok points := by
    have hok : (parse pointText).isOk = true := by decide +kernel
    unfold points
    cases h : parse pointText with
    | error x =>
      rw [h] at hok
      cases hok
    | ok r => rfl
  have hnames : points.table.names = [("Blob", 3), ("Bytes", 3), ("Point", 1)] := by decide +kernel
  have hpair : points.table.shape? 1 = some (.tuple [0, 0]) := by decide +kernel
  have hbytes : points.table.shape? 3 = some (.sequence 2) := by decide +kernel
  have hshown : points.table.text 1 = "Pair<i32,i32>" := by decide +kernel
  have hpoint : points.lookup? "Point" = some 1 := by
    rw [lookup?, hnames]
    decide
  have honly : ∀ other, points.lookup? other = some 1 → other = "Point" := by
    intro other hother
    rw [lookup?, hnames] at hother
    simpa using mem_of_lookup hother
  have hlists : points.lookup? "Bytes" = some 3 ∧ points.lookup? "Blob" = some 3 := by
    rw [lookup?, lookup?, hnames]
    decide
  obtain ⟨-, hsingle⟩ :=
    a_single_declared_name_is_shown_unless_an_instance_came_first hmade [] hpair rfl
  obtain ⟨hseveral, -⟩ :=
    a_single_declared_name_is_shown_unless_an_instance_came_first hmade [] hbytes rfl
  have hinstance := (hsingle "Point" hpoint honly).resolve_left fun hname => by
    have hother := hshown.symm.trans hname
    revert hother
    decide
  obtain ⟨hplain, -, hcalls⟩ := hseveral "Bytes" "Blob" (by decide) hlists.1 hlists.2
  exact ⟨hmade, hpoint, honly, hshown, hinstance, hlists.1, hlists.2, hplain, hcalls⟩

end Registry

end Typewire
