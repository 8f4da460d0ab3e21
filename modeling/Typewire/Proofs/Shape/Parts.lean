-- What a built type is built from. Its parts are the types inside it, its shape keeps the rules
-- where its names and tags do, and what every value of it holds are the types that it holds.
import Typewire.Proofs.Shape.WellFormed

namespace Typewire

open Typewire.Language

/-! ## Parts -/

theorem mem_of_payloads {vs : List (String × Option TypeExpr × Option Nat)} {place : Nat}
    {e : TypeExpr} (h : .ok e ∈ payloads vs place) : e ∈ vs.filterMap (·.2.1) := by
  induction vs generalizing place with
  | nil => cases h
  | cons v vs ih =>
    obtain ⟨name, payload, tag⟩ := v
    simp only [payloads] at h
    cases htag : tagOf name tag place with
    | error x =>
      simp only [htag, List.mem_cons, reduceCtorEq, false_or] at h
      cases payload with
      | none => exact ih h
      | some e' => exact List.mem_cons_of_mem _ (ih h)
    | ok b =>
      cases payload with
      | none =>
        simp only [htag] at h
        exact ih h
      | some e' =>
        simp only [htag, List.mem_cons, Except.ok.injEq] at h
        rcases h with rfl | h
        · exact List.mem_cons_self
        · exact List.mem_cons_of_mem _ (ih h)

/-- The parts of a type are types inside it. -/
theorem inside_of_parts {e inner : TypeExpr} (h : .ok inner ∈ parts e) : inner ∈ e.inside := by
  cases e with
  | primitive name =>
    simp only [parts] at h
    split at h
    · cases h
    · cases List.mem_singleton.mp h
  | index | named => cases h
  | compact e | sequence e | array e length =>
    cases List.mem_singleton.mp h
    exact List.mem_singleton_self _
  | tuple es =>
    obtain ⟨e, he, hok⟩ := List.mem_map.mp h
    cases hok
    exact he
  | enum vs =>
    simp only [parts] at h
    split at h
    · cases List.mem_singleton.mp h
    · exact mem_of_payloads h
  | struct fs =>
    obtain ⟨f, hf, hok⟩ := List.mem_map.mp h
    cases hok
    exact List.mem_map_of_mem hf

/-- A payload stands among the payloads, unless something is wrong with the tag beside it. -/
theorem payloads_of_mem {vs : List (String × Option TypeExpr × Option Nat)} {place : Nat}
    {e : TypeExpr} (h : e ∈ vs.filterMap (·.2.1)) :
    .ok e ∈ payloads vs place ∨ ∃ x, .error x ∈ payloads vs place := by
  induction vs generalizing place with
  | nil => cases h
  | cons v vs ih =>
    obtain ⟨name, payload, tag⟩ := v
    simp only [payloads]
    cases htag : tagOf name tag place with
    | error x => exact Or.inr ⟨x, by simp⟩
    | ok b =>
      cases payload with
      | none => simpa using ih h
      | some e' =>
        rcases List.mem_cons.mp h with rfl | h
        · exact Or.inl List.mem_cons_self
        · rcases (ih h : .ok e ∈ payloads vs (place + 1) ∨ _) with hok | ⟨x, hx⟩
          · exact Or.inl (List.mem_cons_of_mem _ hok)
          · exact Or.inr ⟨x, List.mem_cons_of_mem _ hx⟩

/-- Something is wrong among the payloads just where a tag does not fit in one byte. -/
theorem payloads_sound {vs : List (String × Option TypeExpr × Option Nat)} {place : Nat} :
    (∀ x, .error x ∉ payloads vs place) ↔ ∀ tag ∈ writtenTags vs place, tag ≤ 255 := by
  induction vs generalizing place with
  | nil => simp [payloads, writtenTags]
  | cons v vs ih =>
    obtain ⟨name, payload, tag⟩ := v
    rw [writtenTags, List.forall_mem_cons, ← ih]
    by_cases hfits : tag.getD place ≤ 255
    · have htag : tagOf name tag place = .ok (tagAt tag place) := by
        simp only [tagOf, tagAt]
        exact if_pos (Nat.lt_succ_of_le hfits)
      simp only [payloads, htag, hfits, true_and]
      cases payload with
      | none => exact Iff.rfl
      | some e => simp
    · have htag : tagOf name tag place = .error (.invalidTag name (tag.getD place)) := by
        simp only [tagOf]
        exact if_neg fun hlt => hfits (Nat.le_of_lt_succ hlt)
      simp only [payloads, htag, hfits, false_and, iff_false]
      exact fun h => h _ List.mem_cons_self

/-- Something is wrong with the parts of an enum just where they are too many or a tag is too
large. -/
theorem parts_enum_sound {vs : List (String × Option TypeExpr × Option Nat)} :
    (∀ x, .error x ∉ parts (.enum vs)) ↔
      vs.length ≤ 256 ∧ ∀ tag ∈ writtenTags vs 0, tag ≤ 255 := by
  rw [← payloads_sound]
  by_cases hfew : vs.length ≤ 256
  · rw [show parts (.enum vs) = payloads vs 0 from if_neg (Nat.not_lt_of_le hfew)]
    exact ⟨fun h => ⟨hfew, h⟩, And.right⟩
  · rw [show parts (.enum vs) = [.error .tooManyVariants] from if_pos (Nat.lt_of_not_le hfew)]
    exact ⟨fun h => absurd List.mem_cons_self (h _), fun h => absurd h.1 hfew⟩

theorem parts_of_inside {e inner : TypeExpr} (hargs : ∀ name args, e = .named name args → args = [])
    (h : inner ∈ e.inside) : .ok inner ∈ parts e ∨ ∃ x, .error x ∈ parts e := by
  cases e with
  | primitive | index => cases h
  | named name args =>
    rw [hargs name args rfl] at h
    cases h
  | compact e | sequence e | array e length =>
    cases List.mem_singleton.mp h
    exact Or.inl List.mem_cons_self
  | tuple es => exact Or.inl (List.mem_map_of_mem h)
  | enum vs =>
    simp only [parts]
    split
    · exact Or.inr ⟨_, List.mem_cons_self⟩
    · exact payloads_of_mem h
  | struct fs =>
    obtain ⟨f, hf, rfl⟩ := List.mem_map.mp h
    exact Or.inl (List.mem_map.mpr ⟨f, hf, rfl⟩)

theorem primitive_of_shapeOver {e : TypeExpr} {ids : List TypeId} {prim : Primitive}
    (h : shapeOver e ids = some (.primitive prim)) :
    ∃ name, e = .primitive name ∧ Primitive.ofName? name = some prim := by
  unfold shapeOver at h
  split at h
  · obtain ⟨prim', hname, hsame⟩ := Option.map_eq_some_iff.mp h
    cases hsame
    exact ⟨_, rfl, hname⟩
  all_goals cases h

theorem compact_of_shapeOver {e : TypeExpr} {ids : List TypeId} {id : TypeId}
    (h : shapeOver e ids = some (.compact id)) : ∃ inner, e = .compact inner ∧ ids = [id] := by
  unfold shapeOver at h
  split at h
  · obtain ⟨_, -, hsame⟩ := Option.map_eq_some_iff.mp h
    cases hsame
  · cases h
    exact ⟨_, rfl, rfl⟩
  all_goals cases h

theorem payloads_variantsOver {vs : List (String × Option TypeExpr × Option Nat)} {place : Nat}
    {ids : List TypeId} {id : TypeId} (h : id ∈ (variantsOver vs place ids).filterMap (·.payload)) :
    id ∈ ids := by
  fun_induction variantsOver vs place ids with
  | case1 => cases h
  | case2 name tag vs place ids ih => exact ih h
  | case3 name e tag vs place ids ih =>
    cases ids with
    | nil => exact ih h
    | cons first rest =>
      rcases List.mem_cons.mp h with rfl | h
      · exact List.mem_cons_self
      · exact List.mem_cons_of_mem _ (ih h)

/-- A shape refers to no places but those of the parts. -/
theorem references_shapeOver {e : TypeExpr} {ids : List TypeId} {shape : Shape}
    (h : shapeOver e ids = some shape) : ∀ id ∈ shape.references, id ∈ ids := by
  unfold shapeOver at h
  split at h
  · obtain ⟨_, -, rfl⟩ := Option.map_eq_some_iff.mp h
    exact fun id hid => by cases hid
  · cases h
    exact fun id hid => hid
  · cases h
    exact fun id hid => hid
  · cases h
    exact fun id hid => hid
  · cases h
    exact fun id hid => hid
  · cases h
    exact fun id hid => payloads_variantsOver hid
  · cases h
    intro id hid
    obtain ⟨f, hf, rfl⟩ := List.mem_map.mp hid
    obtain ⟨k, hk, rfl⟩ := List.getElem_of_mem hf
    simp [fieldsOver]
  · cases h

/-! ## Names and tags -/

theorem length_variantsOver (vs : List (String × Option TypeExpr × Option Nat)) (place : Nat)
    (ids : List TypeId) : (variantsOver vs place ids).length = vs.length := by
  fun_induction variantsOver vs place ids with
  | case1 => rfl
  | case2 _ _ _ _ _ ih => exact congrArg Nat.succ ih
  | case3 _ _ _ _ _ _ ih => exact congrArg Nat.succ ih

theorem names_variantsOver (vs : List (String × Option TypeExpr × Option Nat)) (place : Nat)
    (ids : List TypeId) : (variantsOver vs place ids).map (·.name) = vs.map (·.1) := by
  fun_induction variantsOver vs place ids with
  | case1 => rfl
  | case2 name _ _ _ _ ih => exact congrArg (name :: ·) ih
  | case3 name _ _ _ _ _ ih => exact congrArg (name :: ·) ih

theorem tags_variantsOver (vs : List (String × Option TypeExpr × Option Nat)) (place : Nat)
    (ids : List TypeId) :
    (variantsOver vs place ids).map (·.tag) = (writtenTags vs place).map UInt8.ofNat := by
  fun_induction variantsOver vs place ids with
  | case1 => rfl
  | case2 _ tag _ place _ ih => exact congrArg (tagAt tag place :: ·) ih
  | case3 _ _ tag _ place _ ih => exact congrArg (tagAt tag place :: ·) ih

theorem pairwise_variants_iff {vs : List Variant} :
    vs.Pairwise (fun a b => a.name ≠ b.name ∧ a.tag ≠ b.tag) ↔
      (vs.map (·.name)).Nodup ∧ (vs.map (·.tag)).Nodup := by
  rw [List.pairwise_and_iff, List.Nodup, List.Nodup, List.pairwise_map, List.pairwise_map]

/-- An enum keeps the rules when its variants are few and differ in name and in tag. -/
theorem check_enum_iff {vs : List Variant} : (Shape.enum vs).check = .ok () ↔
    vs.length ≤ 256 ∧ (vs.map (·.name)).Nodup ∧ (vs.map (·.tag)).Nodup := by
  rw [← pairwise_variants_iff]
  constructor
  · intro h
    refine ⟨?_, Shape.pairwise_variants h⟩
    simp only [Shape.check] at h
    split at h
    · cases h
    · rename_i hfew
      exact Nat.le_of_not_lt hfew
  · rintro ⟨hfew, hpairs⟩
    simp only [Shape.check]
    refine (if_neg (Nat.not_lt_of_le hfew)).trans ?_
    exact Shape.checkVariants_of_pairwise hpairs fun a ha => by cases ha

theorem check_struct_iff {fs : List Field} :
    (Shape.struct fs).check = .ok () ↔ (fs.map (·.name)).Nodup := by
  rw [List.Nodup, List.pairwise_map]
  exact ⟨Shape.pairwise_fields, fun h => Shape.checkFields_of_pairwise h fun a ha => by cases ha⟩

/-- Tags that fit in one byte are read back from it. -/
theorem toNat_tags {tags : List Nat} (h : ∀ tag ∈ tags, tag ≤ 255) :
    (tags.map UInt8.ofNat).map UInt8.toNat = tags := by
  rw [List.map_map]
  refine (List.map_congr_left fun tag htag => ?_).trans (List.map_id tags)
  exact UInt8.toNat_ofNat_of_lt' (Nat.lt_succ_of_le (h tag htag))

/-- Tags that fit in one byte are told apart by it. -/
theorem nodup_tags_iff {tags : List Nat} (h : ∀ tag ∈ tags, tag ≤ 255) :
    (tags.map UInt8.ofNat).Nodup ↔ tags.Nodup := by
  refine ⟨List.Nodup.of_map UInt8.ofNat, fun htags => List.Nodup.of_map UInt8.toNat ?_⟩
  rwa [toNat_tags h]

/-- The variants have the tags that are written, where these fit in one byte. -/
theorem toNat_tags_variantsOver {vs : List (String × Option TypeExpr × Option Nat)} {place : Nat}
    (htags : ∀ tag ∈ writtenTags vs place, tag ≤ 255) (ids : List TypeId) :
    (variantsOver vs place ids).map (·.tag.toNat) = writtenTags vs place :=
  calc (variantsOver vs place ids).map (·.tag.toNat)
      = ((variantsOver vs place ids).map (·.tag)).map UInt8.toNat := by
        rw [List.map_map]
        rfl
    _ = ((writtenTags vs place).map UInt8.ofNat).map UInt8.toNat := by rw [tags_variantsOver]
    _ = writtenTags vs place := toNat_tags htags

/-- A written enum keeps the rules when its variants are few, its names differ and its tags do. -/
theorem check_variantsOver {vs : List (String × Option TypeExpr × Option Nat)}
    (htags : ∀ tag ∈ writtenTags vs 0, tag ≤ 255) (ids : List TypeId) :
    (Shape.enum (variantsOver vs 0 ids)).check = .ok () ↔
      vs.length ≤ 256 ∧ (vs.map (·.1)).Nodup ∧ (writtenTags vs 0).Nodup := by
  rw [check_enum_iff, length_variantsOver, names_variantsOver, tags_variantsOver,
    nodup_tags_iff htags]

theorem names_fieldsOver {fs : List (String × TypeExpr)} {ids : List TypeId}
    (h : ids.length = fs.length) : (fieldsOver fs ids).map (·.name) = fs.map (·.1) := by
  induction fs generalizing ids with
  | nil => rfl
  | cons f fs ih =>
    cases ids with
    | nil => cases h
    | cons id ids => exact congrArg (f.1 :: ·) (ih (Nat.succ.inj h))

theorem types_fieldsOver {fs : List (String × TypeExpr)} {ids : List TypeId}
    (h : ids.length = fs.length) : (fieldsOver fs ids).map (·.type) = ids := by
  induction fs generalizing ids with
  | nil =>
    cases ids with
    | nil => rfl
    | cons id ids => cases h
  | cons f fs ih =>
    cases ids with
    | nil => cases h
    | cons id ids => exact congrArg (id :: ·) (ih (Nat.succ.inj h))

/-- Fields in order have names in order, also where some of them are left out at the end. -/
theorem names_fieldsOver_sublist (fs : List (String × TypeExpr)) (ids : List TypeId) :
    ((fieldsOver fs ids).map (·.name)).Sublist (fs.map (·.1)) := by
  induction fs generalizing ids with
  | nil => exact List.nil_sublist _
  | cons f fs ih =>
    cases ids with
    | nil => exact List.nil_sublist _
    | cons id ids => exact (ih ids).cons_cons f.1

variable {ds : List Definition}

/-- Nothing is wrong with the parts of a well-formed type. -/
theorem WellFormed.sound (h : WellFormed ds) {e : TypeExpr} (he : Occurs ds e)
    (x : ResolveError) : .error x ∉ parts e := by
  cases e with
  | primitive name =>
    rw [show parts (.primitive name) = [] from if_pos (h.primitives name he)]
    exact List.not_mem_nil
  | index | named => exact List.not_mem_nil
  | compact | sequence | array => simp [parts]
  | tuple | struct => simp [parts]
  | enum vs => exact parts_enum_sound.mpr ⟨(h.variants vs he).1, (h.tags vs he).2⟩ x

/-- The shape of a well-formed type keeps the rules for one shape. -/
theorem WellFormed.check (h : WellFormed ds) {e : TypeExpr} (he : Occurs ds e) {ids : List TypeId}
    {shape : Shape} (hover : shapeOver e ids = some shape) : shape.check = .ok () := by
  unfold shapeOver at hover
  split at hover
  · obtain ⟨prim, -, rfl⟩ := Option.map_eq_some_iff.mp hover
    rfl
  · cases hover
    rfl
  · cases hover
    rfl
  · cases hover
    rfl
  · cases hover
    rfl
  · cases hover
    obtain ⟨hfew, hnames⟩ := h.variants _ he
    obtain ⟨hnodup, htags⟩ := h.tags _ he
    exact (check_variantsOver htags _).mpr ⟨hfew, hnames, hnodup⟩
  · cases hover
    exact check_struct_iff.mpr ((h.fields _ he).sublist (names_fieldsOver_sublist _ _))
  · cases hover

/-! ## Places of parts -/

variable {p : Program} {t : Table} {s : Bindings}

theorem DenoteAll.sound {es : List (Except ResolveError TypeExpr)} {ids : List TypeId}
    (h : DenoteAll p t es s ids) (x : ResolveError) : .error x ∉ es := by
  induction es generalizing ids with
  | nil => exact fun hx => by cases hx
  | cons e es ih =>
    cases h with
    | cons _ hrest => simpa using ih hrest

theorem length_of_resolves {w w' : Workspace} {room n : Nat}
    {es : List (Except ResolveError TypeExpr)} {s : Bindings} {ids : List TypeId}
    (h : Resolves p room (.parts es s) n w (.ok ids) w') :
    ids.length = es.length := by
  generalize hr : (Except.ok ids : Except ResolveError (List TypeId)) = r at h
  induction es generalizing w ids r with
  | nil =>
    cases h
    cases hr
    rfl
  | cons e es ih =>
    cases h with
    | fault | stop => cases hr
    | @next _ _ _ _ _ _ _ r _ _ _ hrest =>
      cases r with
      | error x => cases hr
      | ok rest =>
        cases hr
        exact congrArg Nat.succ (ih _ rfl hrest)

theorem DenoteAll.length {es : List (Except ResolveError TypeExpr)} {ids : List TypeId}
    (h : DenoteAll p t es s ids) : ids.length = es.length := by
  induction es generalizing ids with
  | nil =>
    cases h
    rfl
  | cons e es ih =>
    cases h with
    | cons _ hrest => exact congrArg Nat.succ (ih hrest)

/-- Each of the types is denoted by one of the places. -/
theorem DenoteAll.place_of_mem {es : List (Except ResolveError TypeExpr)} {ids : List TypeId}
    (h : DenoteAll p t es s ids) {e : TypeExpr} (he : .ok e ∈ es) :
    ∃ id ∈ ids, Denotes p t e s id := by
  induction es generalizing ids with
  | nil => cases he
  | cons e' es ih =>
    cases h with
    | cons hfirst hrest =>
      rcases List.mem_cons.mp he with hsame | he
      · cases hsame
        exact ⟨_, List.mem_cons_self, hfirst⟩
      · obtain ⟨id, hid, hdenotes⟩ := ih hrest he
        exact ⟨id, List.mem_cons_of_mem _ hid, hdenotes⟩

/-- Each of the places denotes one of the types. -/
theorem DenoteAll.type_of_mem {es : List (Except ResolveError TypeExpr)} {ids : List TypeId}
    (h : DenoteAll p t es s ids) {id : TypeId} (hid : id ∈ ids) :
    ∃ e, .ok e ∈ es ∧ Denotes p t e s id := by
  induction es generalizing ids with
  | nil =>
    cases h
    cases hid
  | cons e' es ih =>
    cases h with
    | cons hfirst hrest =>
      rcases List.mem_cons.mp hid with rfl | hid
      · exact ⟨_, List.mem_cons_self, hfirst⟩
      · obtain ⟨e, he, hdenotes⟩ := ih hrest hid
        exact ⟨e, List.mem_cons_of_mem _ he, hdenotes⟩

/-- The places of which every value of a shape holds a value are those of the types that it
holds. -/
theorem DenoteAll.held {e : TypeExpr} {ids : List TypeId} {shape : Shape}
    (hover : shapeOver e ids = some shape) (h : DenoteAll p t (parts e) s ids) :
    DenoteAll p t (e.held.map .ok) s shape.unguarded := by
  cases e with
  | primitive name =>
    obtain ⟨prim, -, rfl⟩ := Option.map_eq_some_iff.mp hover
    exact .nil
  | index | named => cases hover
  | compact e =>
    cases h with
    | cons hfirst hrest =>
      cases hrest
      cases hover
      exact .cons hfirst .nil
  | sequence e =>
    cases h with
    | cons hfirst hrest =>
      cases hrest
      cases hover
      exact .nil
  | array e length =>
    cases h with
    | cons hfirst hrest =>
      cases hrest
      cases hover
      simp only [TypeExpr.held, Shape.unguarded]
      split
      · exact .nil
      · exact .cons hfirst .nil
  | tuple es =>
    cases hover
    exact h
  | enum vs =>
    cases hover
    exact .nil
  | struct fs =>
    have hlength : ids.length = fs.length := by simpa [parts] using h.length
    cases hover
    rw [TypeExpr.held, Shape.unguarded, types_fieldsOver hlength, List.map_map]
    exact h

end Typewire
