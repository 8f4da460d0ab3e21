-- Every registry is a world of its own, after whatever was asked of it. So each type that it names
-- can be made ready, and no value or byte is ever refused because of its type.
import Typewire.Proofs.Registry.Rules
import Typewire.Proofs.Wire.Blame

namespace Typewire

open Wire

namespace Table

/-! ## Tables built by hand -/

theorem Indexed.bindName {t : Table} (h : t.Indexed) (name : String) (id : TypeId) :
    (t.bindName name id).Indexed := by
  refine h.of_slots (slots_bindName name id) ?_
  rcases bindName_cases t name id with ⟨-, ht⟩ | ⟨labels, shared, ht⟩ <;> rw [ht]

/-- Shapes are found where they stand at every step of building a table by hand. -/
theorem Drafted.indexed {t : Table} (h : t.Drafted) : t.Indexed :=
  h.keeps (P := Indexed) (Reserved.empty (t := {}) rfl rfl).indexed (fun _ s ht => ht.intern s)
    (fun _ ht => ht.reserve) (fun _ _ _ ht => ht.of_slots rfl rfl)
    (fun _ name id ht => ht.bindName name id) fun _ _ s hid hnone ht => ht.fill s hid hnone

/-! ## Steps -/

/-- Every step keeps what the table holds. -/
theorem Step.extends {t t' : Table} (h : t.Step t') (hc : t.Closed) : t.Extends t' := by
  cases h with
  | same => exact .refl t
  | extended e => exact extends_extend hc e
  | @remembered text _ _ _ _ hid =>
    exact (extends_extend hc _).trans ⟨Nat.le_refl _, fun _ _ => rfl, rfl, rfl, rfl, rfl⟩
  | tuple => exact .intern t _

theorem lt_of_typeAt {t : Table} (h : t.Closed) {i : Nat} {id : TypeId}
    (hi : t.typeAt i = .ok id) : id < t.size := by
  unfold typeAt at hi
  split at hi
  · rename_i hplace
    cases hi
    exact h.positions i id hplace
  · cases hi
  · cases hi

theorem lt_of_mapM_typeAt {t : Table} (h : t.Closed) {positions : List Nat} {ids : List TypeId}
    (hids : positions.mapM t.typeAt = .ok ids) : ∀ id ∈ ids, id < t.size := by
  induction positions generalizing ids with
  | nil =>
    cases hids
    exact fun id hid => by cases hid
  | cons i positions ih =>
    rw [List.mapM_cons] at hids
    obtain ⟨id, hid, hids⟩ := except_bind_ok hids
    obtain ⟨rest, hrest, hids⟩ := except_bind_ok hids
    cases hids
    exact List.forall_mem_cons.mpr ⟨lt_of_typeAt h hid, ih hrest⟩

theorem ClosedWorld.step {t t' : Table} (h : t.ClosedWorld) (hstep : t.Step t') :
    t'.ClosedWorld := by
  cases hstep with
  | same => exact h
  | extended e => exact h.extend e
  | @remembered text _ _ _ _ hid =>
    exact (h.extend _).withExpression text ((closed_extend h.closed _).2 _ hid)
  | tuple hmembers => exact h.tuple (lt_of_mapM_typeAt h.closed hmembers)

/-- What has no shape has no form. -/
theorem lt_size_of_form {t : Table} {id : TypeId} {form : Form} (h : t.form id = .ok form) :
    id < t.size := by
  rcases Nat.lt_or_ge id t.size with hlt | hge
  · exact hlt
  · have hnone := shape?_eq_none_of_size_le hge
    simp only [Table.form, optionTags?, layout, hnone] at h
    cases h

end Table

namespace Registry

variable {r : Registry}

/-! ## Worlds -/

/-- The table is a world of its own, and the forms that are kept are those of the table. -/
structure World (r : Registry) : Prop where
  table : r.table.ClosedWorld
  form : r.form = r.table.form

theorem Made.world (h : r.Made) : r.World := by
  constructor
  case table =>
    rcases h.table_cases with ⟨ds, ht⟩ | ⟨hdraft, hcheck⟩
    · exact .ofDefinitions ht
    · exact .of_check hdraft.closed hdraft.indexed hcheck
  case form =>
    have hready : r.ready = [] := by
      cases h with
      | parsed h =>
        obtain ⟨ds, -, hr⟩ := ofDefinitions_of_parse h
        obtain ⟨t, -, hr⟩ := except_bind_ok hr
        cases hr
        rfl
      | defined h =>
        obtain ⟨t, -, h⟩ := except_bind_ok h
        cases h
        rfl
      | built => rfl
      | empty => rfl
    funext id
    simp [Registry.form, hready]

theorem World.alike {r' : Registry} (h : r.World) (ha : Alike r r') : r'.World where
  table := ha.table ▸ h.table
  form := by rw [ha.form, ha.table, h.form]

/-- Forms that are kept stay those of the table, as it grows. -/
theorem World.step {t : Table} (h : r.World) (hstep : r.table.Step t) :
    World { r with table := t } := by
  refine ⟨h.table.step hstep, funext fun id => ?_⟩
  have hext := hstep.extends h.table.closed
  have hkept := congrFun h.form id
  simp only [Registry.form] at hkept ⊢
  cases hready : r.ready.lookup id with
  | none => rfl
  | some f =>
    rw [hready] at hkept
    exact hkept.trans (h.table.form_extends hext (Table.lt_size_of_form hkept.symm)).symm

theorem World.after (h : r.World) (q : Question) : (q.after r).World := by
  obtain ⟨t, hstep, halike⟩ := after_eq q r
  exact (h.step hstep).alike halike

theorem Reachable.world (h : r.Reachable) : r.World := by
  induction h with
  | made h => exact h.world
  | asked q _ ih => exact ih.after q

theorem World.within_form (h : r.World) : Forms.Within r.form r.size :=
  h.form ▸ h.table.within_form

/-! ## Types that are named -/

theorem lt_size_of_resolve {text : String} {id : TypeId} {r' : Registry} (h : r.World)
    (hid : outcome (resolve text) r = (.ok id, r')) : id < r'.size := by
  rw [outcome_resolve] at hid
  split at hid
  · rename_i known hknown
    cases hid
    exact h.table.closed.expressions (text, id) (mem_of_lookup hknown)
  split at hid
  · cases hid
  split at hid
  · cases hid
  · rename_i e _ _ _ _ hext
    cases hid
    have hplace := (Table.closed_extend h.table.closed e).2 id (congrArg Prod.fst hext)
    rwa [hext] at hplace

/-- A type that is named is one of the registry as it is then. -/
theorem lt_size_of_typeId {ref : TypeRef} {id : TypeId} {r' : Registry} (h : r.World)
    (hid : outcome (typeId ref) r = (.ok id, r')) : id < r'.size := by
  cases ref with
  | position n =>
    have hrun := (outcome_position n r).symm.trans hid
    cases hplace : r.table.typeAt n with
    | error x =>
      rw [hplace] at hrun
      cases hrun
    | ok id =>
      rw [hplace] at hrun
      cases hrun
      exact Table.lt_of_typeAt h.table.closed hplace
  | expr text => exact lt_size_of_resolve h hid
  | tuple positions =>
    have hrun := (outcome_resolveTuple positions r).symm.trans hid
    split at hrun
    · cases hrun
    · cases hrun
      exact (h.table.closed.intern _).2
  | id other =>
    have hrun := (outcome_id other r).symm.trans hid
    split at hrun
    · cases hrun
      assumption
    · cases hrun

/-- A type that cannot be named is refused before any encoding. -/
theorem typeId_error {ref : TypeRef} {x : Error} {r' : Registry}
    (h : outcome (typeId ref) r = (.error x, r')) : ∀ e, x ≠ .codec e := by
  cases ref with
  | position n =>
    have hrun := (outcome_position n r).symm.trans h
    cases hplace : r.table.typeAt n <;> rw [hplace] at hrun <;> cases hrun
    exact fun _ => by simp
  | expr text =>
    have hrun := (outcome_resolve text r).symm.trans h
    repeat' split at hrun
    all_goals
      cases hrun
      try exact fun _ => by simp
  | tuple positions =>
    have hrun := (outcome_resolveTuple positions r).symm.trans h
    split at hrun
    · cases hrun
      exact fun _ => by simp
    · cases hrun
  | id other =>
    have hrun := (outcome_id other r).symm.trans h
    split at hrun
    · cases hrun
    · cases hrun
      exact fun _ => by simp

/-- All that lies inside values of a type of the registry is of types of the registry. -/
theorem World.reachable (h : r.World) {id : TypeId} (hid : id < r.size) :
    ∀ inner ∈ r.reachable id, ∃ f, r.form inner = .ok f := by
  have hin : ∀ inner ∈ r.reachable id, inner < r.size := by
    unfold Registry.reachable
    cases hreach : Table.reach (fun id => some (r.innerTypes id)) (r.size + 1) [id] [] with
    | none => exact fun inner hinner => by cases hinner
    | some out =>
      refine Table.forall_mem_reach (P := (· < r.size)) ?_ (by simpa using hid) (by simp) hreach
      intro other ids hother hids
      cases hids
      obtain ⟨f, hf, hwithin⟩ := h.within_form other hother
      simpa only [innerTypes, hf] using hwithin.inner
  intro inner hinner
  obtain ⟨f, hf, -⟩ := h.within_form inner (hin inner hinner)
  exact ⟨f, hf⟩

/-- Every type that has a name can be made ready, and it is the type that was named. -/
theorem World.codec (h : r.World) {ref : TypeRef} {id : TypeId} {r' : Registry}
    (hid : outcome (typeId ref) r = (.ok id, r')) :
    ∃ r'', outcome (Registry.codec ref) r = (.ok id, r'') ∧ r''.World ∧ id < r''.size := by
  obtain ⟨t, hstep, ht⟩ := outcome_typeId ref r
  have hworld : r'.World := by
    rw [show r' = { r with table := t } from (congrArg Prod.snd hid).symm.trans ht]
    exact h.step hstep
  have hlt := lt_size_of_typeId h hid
  obtain ⟨halike, hok⟩ := outcome_codec ref r
  rw [hid] at halike
  refine ⟨_, Prod.ext (hok id r' hid (hworld.reachable hlt)) rfl, hworld.alike halike, ?_⟩
  rw [size, halike.table]
  exact hlt

/-! ## Encoding and decoding -/

theorem World.blameless_encode (h : r.World) {id : TypeId} (hid : id < r.size) (v : Value) :
    (Wire.encode r.form v id).Blameless := Wire.blameless_encode h.within_form v hid

theorem World.blameless_decodePrefix (h : r.World) {id : TypeId} (hid : id < r.size)
    (bytes : List UInt8) : Blameless (r.form.decodePrefix id bytes) :=
  (blameless_decodeWithin h.within_form maxLevels hid bytes).bind fun _ => blameless_ok _

theorem World.blameless_decode (h : r.World) {id : TypeId} (hid : id < r.size)
    (bytes : List UInt8) : Blameless (r.form.decode id bytes) := by
  refine (h.blameless_decodePrefix hid bytes).bind fun (v, used) => ?_
  simp only
  split
  · exact blameless_ok v
  · exact blameless_error rfl

/-- What is asked of the forms of a type that is made ready fails for a type only if the forms
do. -/
theorem World.ask_codec (h : r.World) {α : Type} {ref : TypeRef}
    {f : Registry → TypeId → Except CodecError α}
    (hf : ∀ r' id, r'.World → id < r'.size → Blameless (f r' id)) {x : CodecError}
    (hx : (outcome (do
      let id ← Registry.codec ref
      ofExcept .codec (f (← get) id) : Asking α) r).1 = .error (.codec x)) :
    x.blamesType = false := by
  rcases hid : outcome (typeId ref) r with ⟨y | id, r'⟩
  · have hcodec : outcome (Registry.codec ref) r = (.error y, r') := outcome_bind_error hid _
    rw [outcome_bind_error hcodec] at hx
    cases hx
    exact absurd rfl (typeId_error hid x)
  · obtain ⟨r'', hcodec, hworld, hlt⟩ := h.codec hid
    rw [outcome_bind_ok hcodec, outcome_get] at hx
    cases hrun : f r'' id with
    | ok a =>
      rw [hrun] at hx
      cases hx
    | error y =>
      rw [hrun] at hx
      cases hx
      exact hf r'' id hworld hlt x hrun

/-- Every registry is a world of its own, after whatever was asked of it. Each place has a shape,
each place that is spoken of is one of the registry, and shapes are found where they stand; names
and tags differ, and a compact form is around an unsigned integer. So a type that is named can be
made ready, and nothing that is written or read is refused because of a type. -/
theorem every_registry_is_a_closed_world (hr : r.Reachable) :
    r.table.ClosedWorld ∧
    (∀ id vs, r.table.shape? id = some (.enum vs) →
      (vs.map (·.name)).Nodup ∧ (vs.map (·.tag)).Nodup) ∧
    (∀ id fs, r.table.shape? id = some (.struct fs) → (fs.map (·.name)).Nodup) ∧
    (∀ id inner, r.table.shape? id = some (.compact inner) →
      ∃ width, r.table.shape? inner = some (.primitive (.integer ⟨false, width⟩))) ∧
    (∀ ref id r', outcome (typeId ref) r = (.ok id, r') →
      (outcome (codec ref) r).1 = .ok id ∧ (outcome (codec (.id id)) r').1 = .ok id) ∧
    (∀ id, id < r.size → ∀ v bytes, (Wire.encode r.form v id).Blameless ∧
      Blameless (r.form.decodePrefix id bytes) ∧ Blameless (r.form.decode id bytes)) ∧
    (∀ ref v x, (outcome (encode ref v) r).1 = .error (.codec x) → x.blamesType = false) ∧
    (∀ ref bytes x, (outcome (decode ref bytes) r).1 = .error (.codec x) →
      x.blamesType = false) := by
  have hworld := hr.world
  have htable := hworld.table
  refine ⟨htable, fun id vs hs => ?_, fun id fs hs => ?_, fun id inner hs => ?_,
    fun ref id r' hid => ?_, fun id hid v bytes => ?_, fun ref v x => ?_, fun ref bytes x => ?_⟩
  · have hpairs := Shape.pairwise_variants (htable.sound id _ hs)
    exact ⟨List.pairwise_map.mpr (hpairs.imp And.left),
      List.pairwise_map.mpr (hpairs.imp And.right)⟩
  · exact List.pairwise_map.mpr (Shape.pairwise_fields (htable.sound id _ hs))
  · exact Table.shape?_of_isUnsigned (htable.unsigned hs)
  · obtain ⟨r'', hcodec, -, -⟩ := hworld.codec hid
    refine ⟨by rw [hcodec], ?_⟩
    obtain ⟨t, hstep, ht⟩ := outcome_typeId ref r
    have hworld' : r'.World := by
      rw [show r' = { r with table := t } from (congrArg Prod.snd hid).symm.trans ht]
      exact hworld.step hstep
    have hlt := lt_size_of_typeId hworld hid
    have hagain : outcome (typeId (.id id)) r' = (.ok id, r') := by
      rw [outcome_id, if_pos hlt]
    obtain ⟨last, hcodec', -, -⟩ := hworld'.codec hagain
    rw [hcodec']
  · exact ⟨hworld.blameless_encode hid v, hworld.blameless_decodePrefix hid bytes,
      hworld.blameless_decode hid bytes⟩
  · exact hworld.ask_codec (f := fun r id => r.form.encode id v)
      fun r' id h hid => (h.blameless_encode hid v).result
  · exact hworld.ask_codec (f := fun r id => r.form.decode id bytes)
      fun r' id h hid => h.blameless_decode hid bytes

/-- The empty registry after it was asked for a compact integer. -/
def compactRegistry : Registry := (Question.resolveExpr (.compact (.named "u16" []))).after empty

theorem the_registry_of_a_compact_integer_is_a_closed_world :
    compactRegistry.Reachable ∧ compactRegistry.table.ClosedWorld ∧
      compactRegistry.table.shape? 1 = some (.compact 0) ∧
      (∃ width, compactRegistry.table.shape? 0 = some (.primitive (.integer ⟨false, width⟩))) ∧
      (outcome (codec (.expr "@u16")) compactRegistry).1 = .ok 1 ∧
      (Wire.encode compactRegistry.form (.text "70000n") 1).Blameless := by
  have hreachable : compactRegistry.Reachable := .asked _ (.made .empty)
  have hshape : compactRegistry.table.shape? 1 = some (.compact 0) := by decide +kernel
  obtain ⟨htable, -, -, hcompact, hcodec, hforms, -, -⟩ :=
    every_registry_is_a_closed_world hreachable
  have hsize : 1 < compactRegistry.size := by decide +kernel
  have hnamed : (outcome (typeId (.expr "@u16")) compactRegistry).1.toOption = some 1 := by
    decide +kernel
  rcases hrun : outcome (typeId (.expr "@u16")) compactRegistry with ⟨x | id, r'⟩
  · rw [hrun] at hnamed
    cases hnamed
  · rw [hrun] at hnamed
    cases hnamed
    exact ⟨hreachable, htable, hshape, hcompact 1 0 hshape, (hcodec _ _ _ hrun).1,
      (hforms 1 hsize (.text "70000n") []).1⟩

end Registry

end Typewire
