-- What a text says that shows no place. It is the written form of a type, and that type is the one
-- at the place that is shown. A label says so if it reads, and a structure if its parts do.
import Typewire.Proofs.Language.Displayed
import Typewire.Proofs.Shape.Faithful
import Typewire.Proofs.Shape.Heads

namespace Typewire

open Typewire.Language Resolving

/-! ## Texts -/

/-- The text shows no place. -/
def Placeless (text : String) : Prop := '#' ∉ text.toList

theorem placeless_append {a b : String} : Placeless (a ++ b) ↔ Placeless a ∧ Placeless b := by
  simp [Placeless]

theorem Placeless.between {a b c : String} (h : Placeless (a ++ b ++ c)) : Placeless b :=
  (placeless_append.mp (placeless_append.mp h).1).2

theorem placeless_of_commaJoined {texts : List String} (h : Placeless (commaJoined texts)) :
    ∀ text ∈ texts, Placeless text := by
  induction texts with
  | nil => simp
  | cons text texts ih =>
    cases texts with
    | nil =>
      refine List.forall_mem_singleton.mpr ?_
      simpa [commaJoined] using h
    | cons other texts =>
      rw [commaJoined, String.intercalate_cons_cons, placeless_append, placeless_append] at h
      exact List.forall_mem_cons.mpr ⟨h.1.1, ih h.2⟩

theorem not_placeless_id (id : TypeId) : ¬ Placeless id.text := by
  simp [Placeless, TypeId.text]

/-! ## Steps on a budget -/

/-- What a step gives on a budget. -/
def spoken {α : Type} (step : StateM Nat α) (budget : Nat) : α := (step.run budget).1

/-- Each item of a row has its turn on what is left of the budget, so what holds of each of them
holds of the row. -/
theorem forall₂_mapM {α β : Type} {f : α → StateM Nat β} {good : β → Prop} {R : α → β → Prop}
    (hf : ∀ x left, good (spoken (f x) left) → R x (spoken (f x) left)) {xs : List α}
    {budget : Nat} (h : ∀ y ∈ spoken (xs.mapM f) budget, good y) :
    List.Forall₂ R xs (spoken (xs.mapM f) budget) := by
  induction xs generalizing budget with
  | nil => exact .nil
  | cons x xs ih =>
    rw [List.mapM_cons] at h ⊢
    obtain ⟨hfirst, hrest⟩ := List.forall_mem_cons.mp h
    exact .cons (hf x budget hfirst) (ih hrest)

/-- What is found for each item of a row makes up a row. -/
theorem exists_row {α β γ : Type} {R : α → β → Prop} {f : β → γ} {xs : List α} {zs : List γ}
    (h : List.Forall₂ (fun x z => ∃ y, R x y ∧ f y = z) xs zs) :
    ∃ ys, List.Forall₂ R xs ys ∧ ys.map f = zs := by
  induction h with
  | nil => exact ⟨[], .nil, rfl⟩
  | cons hfirst _ ih =>
    obtain ⟨y, hy, rfl⟩ := hfirst
    obtain ⟨ys, hys, rfl⟩ := ih
    exact ⟨y :: ys, .cons hy hys, rfl⟩

/-! ## Types that stand at a place -/

/-- The shape can be written: it has names and numbers of the language, and an enum has variants,
no more than there are tags. -/
def Shape.Writable : Shape → Prop
  | .array _ length => length < numberBound
  | .enum variants => variants ≠ [] ∧ variants.length ≤ maxVariants ∧ ∀ v ∈ variants, IsName v.name
  | .struct fields => ∀ f ∈ fields, IsName f.name
  | .primitive _ | .compact _ | .sequence _ | .tuple _ => True

namespace Workspace

/-- The type can be written, and it denotes what comes to the place. -/
structure Means (p : Program) (w : Workspace) (e : TypeExpr) (id : TypeId) : Prop where
  writable : Writable e
  denotes : ∀ t, w.KeptBy t → Denotes p t e [] id

/-- The text is that of a type at the place. -/
def Reads (p : Program) (w : Workspace) (id : TypeId) (text : String) : Prop :=
  ∃ e, w.Means p e id ∧ e.text = text

variable {p : Program} {w w' : Workspace} {id : TypeId} {text : String} {e : TypeExpr}

theorem Means.of_refines (h : w.Means p e id) (hw : w.Refines w') : w'.Means p e id :=
  ⟨h.writable, fun t ht => h.denotes t (ht.of_refines hw)⟩

theorem Reads.of_refines (h : w.Reads p id text) (hw : w.Refines w') : w'.Reads p id text := by
  obtain ⟨e, he, rfl⟩ := h
  exact ⟨e, he.of_refines hw, rfl⟩

/-- A built type is the one at a place if its parts are the ones at the places in the shape. -/
theorem Means.built {ids : List TypeId} {shape : Shape} (he : Writable e)
    (hid : w.table.shape? id = some shape) (hover : shapeOver e ids = some shape)
    (hparts : ∀ t, w.KeptBy t → DenoteAll p t (parts e) [] ids) : w.Means p e id :=
  ⟨he, fun t ht => .built hover (hparts t ht) (ht.shapes id shape hid)⟩

theorem Means.around {inner : TypeExpr} {x : TypeId} {shape : Shape} (h : w.Means p inner x)
    (he : Writable e) (hparts : parts e = [.ok inner]) (hover : shapeOver e [x] = some shape)
    (hid : w.table.shape? id = some shape) : w.Means p e id :=
  .built he hid hover fun t ht => hparts ▸ .cons (h.denotes t ht) .nil

/-- What each place of a row reads as makes up a row of types. -/
theorem exists_types {ids : List TypeId} {texts : List String}
    (h : List.Forall₂ (w.Reads p) ids texts) :
    ∃ es : List TypeExpr, es.map TypeExpr.text = texts ∧ (∀ e ∈ es, Writable e) ∧
      ∀ t, w.KeptBy t → DenoteAll p t (es.map .ok) [] ids := by
  obtain ⟨es, hes, htexts⟩ := exists_row h
  refine ⟨es, htexts, ?_⟩
  clear h htexts
  induction hes with
  | nil => exact ⟨by simp, fun _ _ => .nil⟩
  | cons hfirst _ ih =>
    exact ⟨List.forall_mem_cons.mpr ⟨hfirst.writable, ih.1⟩,
      fun t ht => .cons (hfirst.denotes t ht) (ih.2 t ht)⟩

end Workspace

/-! ## Variants -/

theorem variantsOver_of_written {R : TypeId → TypeExpr → Prop} {vs : List Variant}
    {xs : List (String × Option TypeExpr × Option Nat)} {place : Nat}
    (h : List.Forall₂ (fun q x => q.1.Written R q.2 x) (vs.zipIdx place) xs) :
    variantsOver xs place (vs.filterMap (·.payload)) = vs := by
  induction vs generalizing xs place with
  | nil =>
    cases h
    rfl
  | cons v vs ih =>
    cases h with
    | @cons _ x _ xs hfirst hrest =>
      have hrest := ih hrest
      obtain ⟨name, payload, tag⟩ := x
      obtain ⟨vname, vtag, vpayload⟩ := v
      cases hfirst.name
      have htag : tagAt tag place = vtag := by
        rw [tagAt, ← hfirst.tag, UInt8.ofNat_toNat]
      cases payload with
      | none =>
        cases hfirst.bare rfl
        rw [variantsOver, htag]
        exact congrArg _ hrest
      | some e =>
        obtain ⟨inner, hinner, -⟩ := hfirst.payload e rfl
        cases hinner
        rw [variantsOver, htag]
        exact congrArg _ hrest

theorem denoteAll_of_written {p : Program} {t : Table} {s : Bindings} {vs : List Variant}
    {xs : List (String × Option TypeExpr × Option Nat)} {place : Nat}
    (h : List.Forall₂ (fun q x => q.1.Written (fun id e => Denotes p t e s id) q.2 x)
      (vs.zipIdx place) xs) :
    DenoteAll p t (payloads xs place) s (vs.filterMap (·.payload)) := by
  induction vs generalizing xs place with
  | nil =>
    cases h
    exact .nil
  | cons v vs ih =>
    cases h with
    | @cons _ x _ xs hfirst hrest =>
      have hrest := ih hrest
      obtain ⟨name, payload, tag⟩ := x
      have htag : tagOf name tag place = .ok (UInt8.ofNat (tag.getD place)) := by
        have hlt := v.tag.toNat_lt
        rw [hfirst.tag] at hlt
        exact if_pos hlt
      cases payload with
      | none =>
        rw [List.filterMap_cons_none (hfirst.bare rfl)]
        simp only [payloads, htag]
        exact hrest
      | some e =>
        obtain ⟨inner, hinner, hdenotes⟩ := hfirst.payload e rfl
        rw [List.filterMap_cons_some hinner]
        simp only [payloads, htag]
        exact .cons hdenotes hrest

/-- The text of a variant is that of one that is written for it, if its payload reads. -/
theorem Variant.exists_written {p : Program} {w : Workspace} {textOf : TypeId → StateM Nat String}
    (hread : ∀ id left, Placeless (spoken (textOf id) left) →
      w.Reads p id (spoken (textOf id) left)) (v : Variant) (place left : Nat)
    (h : Placeless (spoken (v.textWith textOf place) left)) :
    ∃ x, v.Written (fun id e => w.Means p e id) place x ∧
      variantText x = spoken (v.textWith textOf place) left := by
  obtain ⟨name, tag, payload⟩ := v
  have htag : tag.toNat = (if tag.toNat = place then none else some tag.toNat).getD place := by
    by_cases hplace : tag.toNat = place <;> simp [hplace]
  cases payload with
  | none =>
    refine ⟨(name, none, if tag.toNat = place then none else some tag.toNat),
      ⟨rfl, htag, fun _ => rfl, fun e he => (by cases he)⟩, ?_⟩
    by_cases hplace : tag.toNat = place
    · simp only [Variant.textWith, if_pos hplace]
      rfl
    · simp only [Variant.textWith, if_neg hplace]
      rfl
  | some inner =>
    have hinner : Placeless (spoken (textOf inner) left) := by
      by_cases hplace : tag.toNat = place
      · simp only [Variant.textWith, if_pos hplace] at h
        exact (placeless_append.mp h).2
      · simp only [Variant.textWith, if_neg hplace] at h
        exact (placeless_append.mp h).1.between
    obtain ⟨e, he, htext⟩ := hread inner left hinner
    refine ⟨(name, some e, if tag.toNat = place then none else some tag.toNat),
      ⟨rfl, htag, fun hnone => (by cases hnone), ?_⟩, ?_⟩
    · rintro _ ⟨⟩
      exact ⟨inner, rfl, he⟩
    · by_cases hplace : tag.toNat = place
      · simp only [Variant.textWith, if_pos hplace, variantText, htext]
        rfl
      · simp only [Variant.textWith, if_neg hplace, variantText, htext]
        rfl

theorem writable_of_written {p : Program} {w : Workspace} {vs : List Variant}
    {xs : List (String × Option TypeExpr × Option Nat)} {place : Nat}
    (h : List.Forall₂ (fun q x => q.1.Written (fun id e => w.Means p e id) q.2 x)
      (vs.zipIdx place) xs) (hne : vs ≠ []) (hnames : ∀ v ∈ vs, IsName v.name) :
    Writable (.enum xs) := by
  have hwritten {x : String × Option TypeExpr × Option Nat} (hx : x ∈ xs) :
      ∃ v ∈ vs, ∃ i, v.Written (fun id e => w.Means p e id) i x := by
    obtain ⟨⟨v, i⟩, hq, hv⟩ := exists_of_forall₂ h hx
    exact ⟨v, List.fst_mem_of_mem_zipIdx hq, i, hv⟩
  refine .enum ?_ (fun x hx => ?_) (fun x hx e he => ?_) fun x hx n hn => ?_
  · rintro rfl
    exact hne (List.length_eq_zero_iff.mp (by simpa using h.length_eq))
  · obtain ⟨v, hv, i, hwritten⟩ := hwritten hx
    exact hwritten.name ▸ hnames v hv
  · obtain ⟨v, -, i, hwritten⟩ := hwritten hx
    obtain ⟨inner, -, hmeans⟩ := hwritten.payload e he
    exact hmeans.writable
  · obtain ⟨v, -, i, hwritten⟩ := hwritten hx
    have htag := hwritten.tag
    rw [show x.2.2 = some n from hn, Option.getD_some] at htag
    have hlt := v.tag.toNat_lt
    rw [htag] at hlt
    exact Nat.lt_of_lt_of_le hlt (by decide)

/-! ## Fields -/

/-- What each field of a struct reads as makes up the fields of a written one. -/
theorem exists_fields {p : Program} {w : Workspace} {fs : List Field} {texts : List String}
    (h : List.Forall₂ (fun f text => ∃ e, w.Means p e f.type ∧ f.name ++ ":" ++ e.text = text)
      fs texts) (hnames : ∀ f ∈ fs, IsName f.name) :
    ∃ xs, TypeExpr.fieldTexts xs = texts ∧ fieldsOver xs (fs.map (·.type)) = fs ∧
      (∀ x ∈ xs, IsName x.1 ∧ Writable x.2) ∧
      ∀ t, w.KeptBy t → DenoteAll p t (xs.map (.ok ·.2)) [] (fs.map (·.type)) := by
  induction h with
  | nil => exact ⟨[], rfl, rfl, by simp, fun _ _ => .nil⟩
  | @cons f _ _ _ hfirst _ ih =>
    obtain ⟨hname, hnames⟩ := List.forall_mem_cons.mp hnames
    obtain ⟨e, he, rfl⟩ := hfirst
    obtain ⟨xs, rfl, hover, hxs, hdenotes⟩ := ih hnames
    exact ⟨(f.name, e) :: xs, rfl, congrArg (f :: ·) hover,
      List.forall_mem_cons.mpr ⟨⟨hname, he.writable⟩, hxs⟩,
      fun t ht => .cons (he.denotes t ht) (hdenotes t ht)⟩

/-! ## Shapes -/

theorem isName_primitive (prim : Primitive) : IsName prim.name := by
  have hname (name : String) (h : name.toList.head?.any startsName = true)
      (hrest : name.toList.tail.all continuesName = true) : IsName name := by
    cases hlist : name.toList with
    | nil =>
      rw [hlist] at h
      cases h
    | cons c cs =>
      rw [hlist] at h hrest
      exact ⟨c, cs, hlist, h, List.all_eq_true.mp hrest⟩
  rcases prim with _ | ⟨signed, width⟩ | _
  · exact hname _ (by decide) (by decide)
  · cases signed <;> cases width <;> exact hname _ (by decide) (by decide)
  · exact hname _ (by decide) (by decide)

theorem ofName?_name (prim : Primitive) : Primitive.ofName? prim.name = some prim := by
  rcases prim with _ | ⟨signed, width⟩ | _
  · decide
  · cases signed <;> cases width <;> decide
  · decide

namespace Workspace

variable {p : Program} {w : Workspace} {id : TypeId}

/-- The text of a shape is that of a type there, if its parts read. -/
theorem reads_textWith (hfree : ∀ prim : Primitive, p.positionOf.lookup prim.name = none)
    {textOf : TypeId → StateM Nat String}
    (hread : ∀ id left, Placeless (spoken (textOf id) left) →
      w.Reads p id (spoken (textOf id) left)) {shape : Shape}
    (hid : w.table.shape? id = some shape) (hshape : shape.Writable) (left : Nat)
    (h : Placeless (spoken (shape.textWith textOf) left)) :
    w.Reads p id (spoken (shape.textWith textOf) left) := by
  cases shape with
  | primitive prim =>
    refine ⟨.named prim.name [], ⟨.named (isName_primitive prim) (by simp), fun t ht => ?_⟩, rfl⟩
    exact .primitive rfl (hfree prim) (ofName?_name prim) (ht.shapes id _ hid)
  | compact inner =>
    obtain ⟨e, he, htext⟩ := hread inner left (placeless_append.mp h).2
    exact ⟨.compact e, he.around (.compact he.writable) rfl rfl hid, congrArg ("@" ++ ·) htext⟩
  | sequence element =>
    obtain ⟨e, he, htext⟩ := hread element left h.between
    exact ⟨.sequence e, he.around (.sequence he.writable) rfl rfl hid,
      congrArg (fun text => "[" ++ text ++ "]") htext⟩
  | array element length =>
    have hfront := (placeless_append.mp (placeless_append.mp h).1).1
    obtain ⟨e, he, htext⟩ := hread element left hfront.between
    exact ⟨.array e length, he.around (.array he.writable hshape) rfl rfl hid,
      congrArg (fun text => "[" ++ text ++ ";" ++ toString length ++ "]") htext⟩
  | tuple members =>
    have hall := placeless_of_commaJoined h.between
    obtain ⟨es, htexts, hes, hdenotes⟩ := exists_types (forall₂_mapM hread hall)
    refine ⟨.tuple es, .built (.tuple hes) hid rfl hdenotes, ?_⟩
    rw [TypeExpr.text, texts_eq_map, htexts]
    rfl
  | enum variants =>
    have hall := placeless_of_commaJoined h.between
    obtain ⟨xs, hxs, htexts⟩ := exists_row (forall₂_mapM
      (fun q left => Variant.exists_written hread q.1 q.2 left) hall)
    obtain ⟨hne, hlength, hnames⟩ := hshape
    have hover : shapeOver (.enum xs) (variants.filterMap (·.payload)) = some (.enum variants) := by
      rw [shapeOver, variantsOver_of_written hxs]
    refine ⟨.enum xs, .built (writable_of_written hxs hne hnames) hid hover fun t ht => ?_, ?_⟩
    · have hcount : xs.length = variants.length := by simpa using hxs.length_eq.symm
      rw [parts, if_neg (by rw [hcount]; exact Nat.not_lt_of_le hlength)]
      exact denoteAll_of_written (hxs.imp fun _ _ hx => hx.imp fun _ _ he => he.denotes t ht)
    · rw [TypeExpr.text, variantTexts_eq_map, htexts]
      rfl
  | struct fields =>
    have hall := placeless_of_commaJoined h.between
    have hrow := forall₂_mapM (f := fun f : Field => return f.name ++ ":" ++ (← textOf f.type))
      (R := fun f text => ∃ e, w.Means p e f.type ∧ f.name ++ ":" ++ e.text = text)
      (fun f left hf => by
        obtain ⟨e, he, htext⟩ := hread f.type left (placeless_append.mp hf).2
        exact ⟨e, he, congrArg (f.name ++ ":" ++ ·) htext⟩) hall
    obtain ⟨xs, htexts, hfields, hxs, hdenotes⟩ := exists_fields hrow hshape
    have hover : shapeOver (.struct xs) (fields.map (·.type)) = some (.struct fields) := by
      rw [shapeOver, hfields]
    refine ⟨.struct xs, .built ?_ hid hover hdenotes, ?_⟩
    · exact .struct (fun x hx => (hxs x hx).1) fun x hx => (hxs x hx).2
    · rw [TypeExpr.text, htexts]
      rfl

/-! ## Places -/

/-- What the workspace has of a place reads as a type there: its shape can be written, and a label
without a place in it is the text of such a type. -/
structure Readable (p : Program) (w : Workspace) : Prop where
  shapes : ∀ id shape, w.table.shape? id = some shape → shape.Writable
  labels : ∀ q ∈ w.table.labels, Placeless q.2 → w.Reads p q.1 q.2

/-- One level of a text: a label, a structure over the next level, or the place. -/
theorem spoken_textWithin (t : Table) (room : Nat) (path : List TypeId) (id : TypeId)
    (left : Nat) : spoken (t.textWithin (room + 1) path id) left
      = if left = 0 then id.text else
        match t.labels.lookup id with
        | some label => label
        | none => if path.contains id then id.text else
          match t.shape? id with
          | none => id.text
          | some shape => spoken (shape.textWith (t.textWithin room (id :: path))) (left - 1) := by
  unfold Table.textWithin
  change spoken (if left = 0 then _ else _) left = _
  split
  · rfl
  change spoken (match t.labels.lookup id with | some label => _ | none => _) (left - 1) = _
  cases t.labels.lookup id with
  | some label => rfl
  | none =>
    by_cases hpath : path.contains id = true
    · simp only [if_pos hpath]
      rfl
    · simp only [if_neg hpath]
      cases t.shape? id with
      | none => rfl
      | some shape => cases shape <;> rfl

/-- A text without a place in it is the text of a type that stands at the place it shows. -/
theorem Readable.reads_textWithin (h : w.Readable p)
    (hfree : ∀ prim : Primitive, p.positionOf.lookup prim.name = none) (room : Nat)
    (path : List TypeId) (id : TypeId) (left : Nat)
    (hplaceless : Placeless (spoken (w.table.textWithin room path id) left)) :
    w.Reads p id (spoken (w.table.textWithin room path id) left) := by
  induction room generalizing path id left with
  | zero => exact absurd hplaceless (not_placeless_id id)
  | succ room ih =>
    rw [spoken_textWithin] at hplaceless ⊢
    split
    · rename_i hleft
      rw [if_pos hleft] at hplaceless
      exact absurd hplaceless (not_placeless_id id)
    rename_i hleft
    rw [if_neg hleft] at hplaceless
    cases hlabel : w.table.labels.lookup id with
    | some label =>
      simp only [hlabel] at hplaceless ⊢
      exact h.labels _ (mem_of_lookup hlabel) hplaceless
    | none =>
      simp only [hlabel] at hplaceless ⊢
      split
      · rename_i hpath
        rw [if_pos hpath] at hplaceless
        exact absurd hplaceless (not_placeless_id id)
      rename_i hpath
      rw [if_neg hpath] at hplaceless
      cases hid : w.table.shape? id with
      | none =>
        simp only [hid] at hplaceless
        exact absurd hplaceless (not_placeless_id id)
      | some shape =>
        simp only [hid] at hplaceless ⊢
        exact reads_textWith hfree (fun x left => ih _ x left) hid (h.shapes id shape hid) _
          hplaceless

theorem Readable.reads_text (h : w.Readable p)
    (hfree : ∀ prim : Primitive, p.positionOf.lookup prim.name = none) (id : TypeId)
    (hplaceless : Placeless (w.table.text id)) : w.Reads p id (w.table.text id) :=
  h.reads_textWithin hfree _ [] id Table.textBudget hplaceless

end Workspace

end Typewire
