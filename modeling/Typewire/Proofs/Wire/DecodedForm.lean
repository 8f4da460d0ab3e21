-- The form in which values are read. A value that is in this form already is its own normal
-- form, up to the kind of its integers, and whatever is read is in this form.
import Typewire.Proofs.Wire.Canonical
import Typewire.Proofs.Wire.Normal

namespace Typewire

/-! ## Equal values -/

namespace Value

theorem eqItems_map {α : Type} {f g : α → Value} {xs : List α}
    (h : ∀ x ∈ xs, eq (f x) (g x) = true) : eqItems (xs.map f) (xs.map g) = true := by
  induction xs with
  | nil => rfl
  | cons x xs ih =>
    simp only [List.map_cons, eqItems, Bool.and_eq_true]
    exact ⟨h x List.mem_cons_self, ih fun y hy => h y (List.mem_cons_of_mem _ hy)⟩

/-- Entries in order with the same keys are equal when what stands under each key is. -/
theorem eqEntries_of_lookup {as bs : List (String × Value)}
    (hkeys : as.map Prod.fst = bs.map Prod.fst) (hnodup : (bs.map Prod.fst).Nodup)
    (h : ∀ key a b, as.lookup key = some a → bs.lookup key = some b → eq a b = true) :
    eqEntries as bs = true := by
  induction as generalizing bs with
  | nil =>
    cases bs with
    | nil => rfl
    | cons b bs => cases hkeys
  | cons x as ih =>
    cases bs with
    | nil => cases hkeys
    | cons y bs =>
      obtain ⟨k, a⟩ := x
      obtain ⟨l, b⟩ := y
      simp only [List.map_cons, List.cons.injEq] at hkeys
      obtain ⟨rfl, hkeys⟩ := hkeys
      obtain ⟨hnot, hnodup⟩ := List.nodup_cons.mp hnodup
      have hhead : eq a b = true := h k a b (by simp) (by simp)
      have htail : eqEntries as bs = true := by
        refine ih hkeys hnodup fun key v w hv hw => ?_
        have hne : key ≠ k := by
          rintro rfl
          exact hnot (mem_keys_iff.mpr (by rw [hw]; rfl))
        refine h key v w ?_ ?_
        · rw [List.lookup_cons, beq_false_of_ne hne]
          exact hv
        · rw [List.lookup_cons, beq_false_of_ne hne]
          exact hw
      simp only [eqEntries, beq_self_eq_true, hhead, htail, Bool.and_self]

theorem eq_of_int? {v w : Value} {n : Int} (hv : v.int? = some n) (hw : w.int? = some n) :
    eq v w = true := by
  cases v with
  | integer a =>
    cases hv
    cases w with
    | integer b => simp only [eq, beq_iff_eq, ← Int64.toInt_inj, Option.some.inj hw]
    | bigInteger b => simp only [eq, beq_iff_eq, Option.some.inj hw]
    | _ => cases hw
  | bigInteger a =>
    cases hv
    cases w with
    | integer b => simp only [eq, beq_iff_eq, ← Option.some.inj hw]
    | bigInteger b => simp only [eq, beq_iff_eq, Option.some.inj hw]
    | _ => cases hw
  | _ => cases hv

end Value

namespace Wire

/-! ## The form of values that are read -/

/-- The value has at its outside the form in which a layout is read. -/
def ReadFormBy (v : Value) : Layout → Prop
  | .bool => ∃ b, v = .bool b
  | .str => ∃ s, v = .text s
  | .integer k | .compact k => ∃ n, v.int? = some n ∧ k.holds n = true
  | .bytes _ => ∃ bs, v = .bytes bs
  | .sequence _ _ | .array _ _ => ∃ items, v = .list items
  | .tuple [] => v = .null
  | .tuple members => ∃ items, v = .list items ∧ items.length = members.length
  | .struct fields => ∃ entries, v = .map entries ∧ (entries.map Prod.fst).Pairwise (· < ·) ∧
      ∀ key, key ∈ entries.map Prod.fst ↔ key ∈ fields.map (·.name)
  | .enum variants => ∃ x ∈ variants, ∃ payload, v = .variant x.name payload ∧
      (x.payload = none → payload = .null)

/-- The value and all values inside it have the form in which their types are read. -/
inductive ReadForm (t : Table) : Value → TypeId → Prop
  | plain {v : Value} {id : TypeId} {layout : Layout} :
      t.form id = .ok (.plain layout) → ReadFormBy v layout →
      (∀ p ∈ partsBy v layout, ReadForm t p.1 p.2) → ReadForm t v id
  | null {id : TypeId} {tags : Shape.OptionForm} {layout : Layout} :
      t.form id = .ok (.option tags layout) → ReadForm t .null id
  | payload {v : Value} {id : TypeId} {tags : Shape.OptionForm} {layout : Layout} :
      t.form id = .ok (.option tags layout) → v.isNull = false → ReadForm t v tags.payload →
      ReadForm t v id

theorem int?_valueOf {k : IntKind} {n : Int} (h : k.holds n = true) :
    (valueOf k n).int? = some n := by
  unfold valueOf
  split
  · rename_i hk
    obtain ⟨hlow, hhigh⟩ := fitsNative_bounds hk h
    rw [Value.int?, Int64.toInt_ofInt_of_le hlow hhigh]
  · rfl

theorem intOf_of_int? {v : Value} {k : IntKind} {n : Int} (h : v.int? = some n) :
    intOf v k = .ok n := by
  cases v <;> cases h <;> rfl

/-! ## Normal forms of values that are read -/

variable {t : Table}

theorem eq_rebuildBy_list {items : List Value} {ids : List TypeId}
    (hlength : items.length ≤ ids.length) {f : Value × TypeId → Value}
    (h : ∀ p ∈ items.zip ids, Value.eq (f p) p.1 = true) :
    Value.eq (.list ((items.zip ids).map f)) (.list items) = true := by
  have heq := Value.eqItems_map h
  rw [List.map_fst_zip hlength] at heq
  exact heq

theorem eq_rebuildBy_struct {fields : List Field} (hcheck : (Shape.struct fields).check = .ok ())
    {v : Value} (hread : ReadFormBy v (.struct fields)) {f : Value × TypeId → Value}
    (h : ∀ p ∈ partsBy v (.struct fields), Value.eq (f p) p.1 = true) :
    Value.eq (rebuildBy v ((partsBy v (.struct fields)).map f) (.struct fields)) v = true := by
  obtain ⟨entries, rfl, hsorted, hkeys⟩ := hread
  have hpairs : (fields.map (·.name)).zip ((partsBy (.map entries) (.struct fields)).map f)
      = fields.map fun x => (x.name, f ((entries.lookup x.name).getD .null, x.type)) := by
    rw [partsBy, List.map_map, List.zip_map']
    rfl
  rw [rebuildBy, hpairs]
  have hnames : (fields.map fun x => (x.name, f ((entries.lookup x.name).getD .null, x.type))).map
      Prod.fst = fields.map (·.name) := by
    rw [List.map_map]
    rfl
  have hnodup : ((fields.map fun x =>
      (x.name, f ((entries.lookup x.name).getD .null, x.type))).map Prod.fst).Nodup := by
    rw [hnames, List.Nodup, List.pairwise_map]
    exact Shape.pairwise_fields hcheck
  refine Value.eqEntries_of_lookup ?_ (nodup_of_pairwise_lt hsorted) ?_
  · refine eq_of_pairwise_lt (pairwise_sortEntries _) hsorted fun key => ?_
    rw [hkeys, mem_keys_iff, lookup_sortEntries hnodup, ← mem_keys_iff, hnames]
  · intro key a b ha hb
    rw [lookup_sortEntries hnodup] at ha
    obtain ⟨x, hx, hpair⟩ := List.mem_map.mp (mem_of_lookup ha)
    cases hpair
    have hpart := h _ (List.mem_map.mpr ⟨x, hx, rfl⟩)
    rw [hb] at hpart ⊢
    exact hpart

theorem eq_rebuildBy_enum {vs : List Variant} (hcheck : (Shape.enum vs).check = .ok ())
    {v : Value} (hread : ReadFormBy v (.enum vs)) {f : Value × TypeId → Value}
    (h : ∀ p ∈ partsBy v (.enum vs), Value.eq (f p) p.1 = true) :
    Value.eq (rebuildBy v ((partsBy v (.enum vs)).map f) (.enum vs)) v = true := by
  obtain ⟨⟨name, tag, payload⟩, hx, w, rfl, hnull⟩ := hread
  have hchoice := ofEntries_inline hcheck hx w hnull
  have hpayload : Choice.payload [(name, w)] (some name) = w := by simp [Choice.payload]
  cases payload with
  | none =>
    cases hnull rfl
    simp only [Value.variant, partsBy, rebuildBy, Value.map?, Option.getD_some, hchoice]
    simp [Value.eq, Value.eqEntries]
  | some p =>
    simp only [Value.variant, partsBy, hchoice, hpayload] at h
    have hw := h (w, p) List.mem_cons_self
    simp only [Value.variant, partsBy, rebuildBy, Value.map?, Option.getD_some, hchoice, hpayload]
    simp [Value.eq, Value.eqEntries, hw]

/-- A value that has at its outside the form in which its layout is read is made again from parts
that are equal to its own. -/
theorem eq_rebuildBy (ht : t.Sound) {v : Value} {id : TypeId} {layout : Layout}
    (hform : t.form id = .ok (.plain layout)) (hread : ReadFormBy v layout)
    {f : Value × TypeId → Value} (h : ∀ p ∈ partsBy v layout, Value.eq (f p) p.1 = true) :
    Value.eq (rebuildBy v ((partsBy v layout).map f) layout) v = true := by
  obtain ⟨s, hshape, hlayout⟩ := form_plain hform
  have hsame := shape_of_layoutOf hlayout
  have hcheck := ht id s hshape
  cases layout with
  | bool =>
    obtain ⟨b, rfl⟩ := hread
    simp only [rebuildBy, Value.eq, beq_self_eq_true]
  | str =>
    obtain ⟨s, rfl⟩ := hread
    simp only [rebuildBy, Value.eq, beq_self_eq_true]
  | integer k =>
    obtain ⟨n, hn, hholds⟩ := hread
    simp only [rebuildBy, intOf_of_int? hn, Except.toOption, Option.getD_some]
    exact Value.eq_of_int? (int?_valueOf hholds) hn
  | compact k =>
    obtain ⟨n, hn, hholds⟩ := hread
    simp only [rebuildBy, intOf_of_int? hn, Except.toOption, Option.getD_some]
    exact Value.eq_of_int? (int?_valueOf hholds) hn
  | bytes length =>
    obtain ⟨bs, rfl⟩ := hread
    simp only [rebuildBy, bytesOf, Except.toOption, Option.getD_some, Value.eq, beq_self_eq_true]
  | sequence element zeroSized =>
    obtain ⟨items, rfl⟩ := hread
    simp only [partsBy, rebuildBy, map_pair] at h ⊢
    exact eq_rebuildBy_list (by simp) h
  | array element length =>
    obtain ⟨items, rfl⟩ := hread
    simp only [partsBy, rebuildBy, map_pair] at h ⊢
    exact eq_rebuildBy_list (by simp) h
  | tuple members =>
    cases members with
    | nil =>
      cases hread
      rfl
    | cons m ms =>
      obtain ⟨items, rfl, hlength⟩ := hread
      exact eq_rebuildBy_list (Nat.le_of_eq hlength) h
  | struct fields =>
    cases hsame
    exact eq_rebuildBy_struct hcheck hread h
  | enum vs =>
    cases hsame
    exact eq_rebuildBy_enum hcheck hread h

/-- A value that has the form in which its type is read is its own normal form. -/
theorem eq_normal (ht : t.Sound) {v : Value} {id : TypeId} (h : ReadForm t v id) :
    Value.eq (normal t v id) v = true := by
  induction h with
  | plain hform hread _ ih =>
    rw [normal_eq, rebuild, hform, parts, hform]
    exact eq_rebuildBy ht hform hread ih
  | null hform =>
    rw [normal_eq, rebuild, hform, parts, hform]
    rfl
  | @payload v id tags layout hform hsome _ ih =>
    rw [normal_eq, rebuild, hform, parts, hform]
    simp only [hsome, Bool.false_eq_true, if_false, List.map_cons, List.head?_cons,
      Option.getD_some]
    exact ih

/-! ## Values that are read -/

/-- What is read is in the form in which its type is read. -/
def ReadsForms (t : Table) (decode : TypeId → Taking Value) : Prop :=
  ∀ id bytes v rest, decode id bytes = .ok (v, rest) → ReadForm t v id

variable {decode : TypeId → Taking Value} {bytes rest : List UInt8} {v : Value}

theorem readForm_row (hd : ReadsForms t decode) {ids : List TypeId} {vs : List Value}
    (h : takeAll decode ids bytes = .ok (vs, rest)) :
    ∀ p ∈ vs.zip ids, ReadForm t p.1 p.2 := by
  intro p hp
  obtain ⟨bytes, rest, hread⟩ := (takeAll_ok h).2 p hp
  exact hd _ _ _ _ hread

theorem readForm_items (hd : ReadsForms t decode) {element : TypeId} {vs : List Value}
    (h : takeAll decode (List.replicate vs.length element) bytes = .ok (vs, rest)) :
    ∀ p ∈ vs.map (·, element), ReadForm t p.1 p.2 := by
  rw [map_pair]
  exact readForm_row hd h

theorem readForm_struct (hd : ReadsForms t decode) {fields : List Field}
    (hcheck : (Shape.struct fields).check = .ok ()) {vs : List Value}
    (h : takeAll decode (fields.map (·.type)) bytes = .ok (vs, rest)) :
    let v := Value.ofEntries ((fields.map (·.name)).zip vs)
    ReadFormBy v (.struct fields) ∧ ∀ p ∈ partsBy v (.struct fields), ReadForm t p.1 p.2 := by
  have hlength : vs.length = fields.length := by simpa using (takeAll_ok h).1
  have hnames : ((fields.map (·.name)).zip vs).map Prod.fst = fields.map (·.name) :=
    List.map_fst_zip (by simp [hlength])
  have hnodup : (((fields.map (·.name)).zip vs).map Prod.fst).Nodup := by
    rw [hnames, List.Nodup, List.pairwise_map]
    exact Shape.pairwise_fields hcheck
  constructor
  · refine ⟨_, rfl, pairwise_sortEntries _, fun key => ?_⟩
    rw [mem_keys_iff, lookup_sortEntries hnodup, ← mem_keys_iff, hnames]
  · intro p hp
    obtain ⟨f, hf, rfl⟩ := List.mem_map.mp hp
    obtain ⟨i, hi, rfl⟩ := List.getElem_of_mem hf
    have hi' : i < vs.length := by omega
    have hentry : (fields[i].name, vs[i]) ∈ (fields.map (·.name)).zip vs :=
      List.mem_iff_getElem.mpr ⟨i, by simp; omega, by simp⟩
    have hpart : (vs[i], fields[i].type) ∈ vs.zip (fields.map (·.type)) :=
      List.mem_iff_getElem.mpr ⟨i, by simp; omega, by simp⟩
    rw [lookup_sortEntries hnodup, lookup_of_mem hnodup hentry]
    exact readForm_row hd h _ hpart

theorem readForm_layout (ht : t.Sound) (hd : ReadsForms t decode) {id : TypeId} {layout : Layout}
    (hform : t.form id = .ok (.plain layout)) (h : ReadBy decode rest layout bytes v) :
    ReadFormBy v layout ∧ ∀ p ∈ partsBy v layout, ReadForm t p.1 p.2 := by
  obtain ⟨s, hshape, hlayout⟩ := form_plain hform
  have hsame := shape_of_layoutOf hlayout
  have hcheck := ht id s hshape
  cases h with
  | no => exact ⟨⟨false, rfl⟩, fun p hp => by cases hp⟩
  | yes => exact ⟨⟨true, rfl⟩, fun p hp => by cases hp⟩
  | text => exact ⟨⟨_, rfl⟩, fun p hp => by cases hp⟩
  | integer hholds => exact ⟨⟨_, int?_valueOf hholds, hholds⟩, by simp⟩
  | compact hholds => exact ⟨⟨_, int?_valueOf hholds, hholds⟩, by simp⟩
  | counted body => exact ⟨⟨body, rfl⟩, by simp⟩
  | bytes body => exact ⟨⟨body, rfl⟩, by simp⟩
  | sequence _ hall => exact ⟨⟨_, rfl⟩, readForm_items hd hall⟩
  | array hall => exact ⟨⟨_, rfl⟩, readForm_items hd hall⟩
  | unit => exact ⟨rfl, fun p hp => by cases hp⟩
  | tuple hall => exact ⟨⟨_, rfl, (takeAll_ok hall).1⟩, readForm_row hd hall⟩
  | struct hall =>
    cases hsame
    exact readForm_struct hd hcheck hall
  | bare hx =>
    cases hsame
    have hchoice := ofEntries_inline hcheck hx .null fun _ => rfl
    refine ⟨⟨_, hx, .null, rfl, fun _ => rfl⟩, fun p hp => ?_⟩
    simp only [Value.variant, partsBy, hchoice] at hp
    cases hp
  | @carrying vs name tag payload mid w hx hw =>
    cases hsame
    have hchoice := ofEntries_inline hcheck hx w fun hnone => by cases hnone
    have hpayload : Choice.payload [(name, w)] (some name) = w := by simp [Choice.payload]
    refine ⟨⟨_, hx, w, rfl, fun hnone => by cases hnone⟩, fun p hp => ?_⟩
    simp only [Value.variant, partsBy, hchoice, hpayload] at hp
    cases List.mem_singleton.mp hp
    exact hd _ _ _ _ hw

/-- Whatever is read from a sound table is in the form in which its type is read. -/
theorem readForm_decodeWithin (ht : t.Sound) (levels : Nat) :
    ReadsForms t (decodeWithin t levels) := by
  refine decodeWithin_induction (fun levels ih id bytes v rest h => ?_) levels
  cases h with
  | plain hform hread =>
    obtain ⟨hread, hparts⟩ := readForm_layout ht ih hform hread
    exact .plain hform hread hparts
  | absent hform => exact .null hform
  | present hform hpayload =>
    exact .payload hform (isNull_of_present hform hpayload) (ih _ _ _ _ hpayload)

end Wire

end Typewire
