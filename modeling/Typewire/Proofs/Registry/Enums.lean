-- Enums that are built by hand and enums that are written. One plan of the variants gives both: the
-- payloads are places of the table that is built, and types that the registry resolves. Where these
-- are the same types, both enums are refused for one reason, or both are the same enum.
import Typewire.Proofs.Registry.Sizes
import Typewire.Proofs.Registry.Stable
import Typewire.Proofs.Shape.Enums

namespace Typewire

open Typewire.Language Resolving

/-! ## Plans of variants -/

/-- A variant that is asked for in two ways. Its payload is a place of the table that is built, and
it is written as a type. -/
structure VariantPlan where
  name : String
  payload : Option (TypeId × TypeExpr) := none
  tag : Option UInt8 := none

namespace VariantPlan

/-- The variant as it is asked for when the enum is built. -/
def draft (v : VariantPlan) : VariantDraft := ⟨v.name, v.payload.map Prod.fst, v.tag⟩

/-- The variant as it is written. -/
def written (v : VariantPlan) : String × Option TypeExpr × Option Nat :=
  (v.name, v.payload.map Prod.snd, v.tag.map UInt8.toNat)

/-- The places of the payloads in order. -/
def places (vs : List VariantPlan) : List TypeId := (vs.filterMap (·.payload)).map Prod.fst

/-- The payloads in order, as they are written. -/
def exprs (vs : List VariantPlan) : List TypeExpr := (vs.filterMap (·.payload)).map Prod.snd

variable {vs : List VariantPlan}

/-- Nothing is wrong with the tags of variants that stand within the first 256 places. -/
theorem payloads_written (place : Nat) (hplace : place + vs.length ≤ 256) :
    payloads (vs.map written) place = (exprs vs).map .ok := by
  induction vs generalizing place with
  | nil => rfl
  | cons v vs ih =>
    obtain ⟨name, payload, tag⟩ := v
    rw [List.length_cons] at hplace
    have hrest := ih (place + 1) (by omega)
    have hfits : (tag.map UInt8.toNat).getD place < 256 := by
      cases tag with
      | none =>
        simp only [Option.map_none, Option.getD_none]
        omega
      | some tag => exact tag.toNat_lt
    have htag : tagOf name (tag.map UInt8.toNat) place
        = .ok (tagAt (tag.map UInt8.toNat) place) := if_pos hfits
    simp only [List.map_cons, written, payloads, htag]
    cases payload with
    | none => exact hrest
    | some p => exact congrArg (Except.ok p.2 :: ·) hrest

/-- Within the first 256 places the tags fit in one byte, those that are asked for and those that
are the places. -/
theorem tags_written_fit (place : Nat) (hplace : place + vs.length ≤ 256) :
    ∀ tag ∈ writtenTags (vs.map written) place, tag ≤ 255 := by
  refine payloads_sound.mp fun x hx => ?_
  rw [payloads_written place hplace] at hx
  obtain ⟨e, -, he⟩ := List.mem_map.mp hx
  cases he

/-- The variant that is built of a draft at a place in the enum. -/
def built (place : Nat) (d : VariantDraft) : Variant :=
  ⟨d.name, d.tag.getD (UInt8.ofNat place), d.payload⟩

/-- The variants that are built are those that are written, over payloads that are related. -/
theorem matches_written {R : TypeId → TypeId → Prop} (place : Nat) {ys : List TypeId}
    (h : List.Forall₂ R (places vs) ys) :
    List.Forall₂ (Variant.Matches R) ((vs.map draft).mapIdx fun i => built (i + place))
      (variantsOver (vs.map written) place ys) := by
  induction vs generalizing place ys with
  | nil => exact .nil
  | cons v vs ih =>
    obtain ⟨name, payload, tag⟩ := v
    have htag : tag.getD (UInt8.ofNat (0 + place)) = tagAt (tag.map UInt8.toNat) place := by
      rw [Nat.zero_add]
      cases tag with
      | none => rfl
      | some tag => exact UInt8.ofNat_toNat.symm
    have hnext : (fun i => built (i + 1 + place)) = fun i => built (i + (place + 1)) := by
      funext i
      rw [Nat.add_assoc, Nat.add_comm 1]
    rw [List.map_cons, List.map_cons, List.mapIdx_cons, hnext]
    cases payload with
    | none => exact .cons ⟨rfl, htag, .none⟩ (ih _ h)
    | some p =>
      cases h with
      | cons hfirst hrest => exact .cons ⟨rfl, htag, .some hfirst⟩ (ih _ hrest)

/-- The enum that is built keeps the rules when the variants are few, their names differ and their
tags do. -/
theorem check_drafts_iff : (Shape.ofDrafts (vs.map draft)).check = .ok () ↔
    vs.length ≤ 256 ∧ (vs.map (·.name)).Nodup ∧ (writtenTags (vs.map written) 0).Nodup := by
  have hsame : List.Forall₂ Eq (places vs) (places vs) := List.forall₂_refl _
  have hcheck : (Shape.ofDrafts (vs.map draft)).check
      = (Shape.enum (variantsOver (vs.map written) 0 (places vs))).check :=
    Shape.Matches.check_eq (matches_written 0 hsame)
  rw [hcheck]
  by_cases hfew : vs.length ≤ 256
  · rw [check_variantsOver (tags_written_fit 0 (by omega)), List.length_map, List.map_map]
    rfl
  · rw [check_enum_iff, length_variantsOver, List.length_map]
    exact iff_of_false (fun h => hfew h.1) fun h => hfew h.1

end VariantPlan

namespace Registry

open VariantPlan

/-! ## Built and written enums -/

/-- The payloads resolve together in the registry, to the types that stand at their places in the
table that is built. -/
def ResolveTogether (d : Table) (r : Registry) (vs : List VariantPlan) : Prop :=
  ∃ id r' ys, outcome (resolveExpr (.tuple (exprs vs))) r = (.ok id, r') ∧
    r'.table.shape? id = some (.tuple ys) ∧ List.Forall₂ (d.SameType r'.table) (places vs) ys

/-- The payloads resolve one after another, to the types that stand at their places in the table
that is built. The registry is another one then. -/
def ResolveInTurn (d : Table) (r : Registry) (vs : List VariantPlan) (r' : Registry) : Prop :=
  ∃ ys, outcome ((exprs vs).mapM resolveExpr) r = (.ok ys, r') ∧
    List.Forall₂ (d.SameType r'.table) (places vs) ys

/-- The enum that is built over the table and the one that is resolved in the registry are refused
for the same reason, or they have the same variants in the same order: the names that are asked
for, the tags that are asked for or else the places, and payloads of the same types. -/
def EnumsAgree (d : Table) (r : Registry) (vs : List VariantPlan) : Prop :=
  match d.internChecked (Shape.ofDrafts (vs.map draft)),
    outcome (resolveExpr (.enum (vs.map written))) r with
  | .error x, (.error y, _) => y = .resolve x
  | .ok (place, d'), (.ok id, r') => ∃ us us', d'.shape? place = some (.enum us) ∧
      r'.table.shape? id = some (.enum us') ∧
      us'.map (·.name) = vs.map (·.name) ∧
      us'.map (·.tag.toNat) = writtenTags (vs.map written) 0 ∧
      List.Forall₂ (Variant.Matches (d'.SameType r'.table)) us us'
  | _, _ => False

variable {r r' : Registry} {d : Table} {vs : List VariantPlan}

theorem enumsAgree_of_error {x : ResolveError}
    (hbuilt : (Shape.ofDrafts (vs.map draft)).check = .error x)
    (hwritten : (r.table.extend (.enum (vs.map written))).1 = .error x) : EnumsAgree d r vs := by
  have hintern : d.internChecked (Shape.ofDrafts (vs.map draft)) = .error x := by
    rw [Table.internChecked, hbuilt]
    rfl
  unfold EnumsAgree
  rw [hintern, outcome_resolveExpr, hwritten]
  rfl

/-- Payloads that resolve together make one enum in both ways. -/
theorem enumsAgree_of_together (hr : r.Reachable) (hd : d.Drafted) (h : ResolveTogether d r vs) :
    EnumsAgree d r vs := by
  have ht := hr.world.table
  obtain ⟨id, r', ys, hrun, hmembers, hsame⟩ := h
  rw [outcome_resolveExpr] at hrun
  have hvariants := matches_written 0 hsame
  have hcheck : (Shape.ofDrafts (vs.map draft)).check
      = (Shape.enum (variantsOver (vs.map written) 0 ys)).check := Shape.Matches.check_eq hvariants
  by_cases hmany : vs.length > Shape.maxVariants
  · refine enumsAgree_of_error (if_pos ?_) (Table.extend_enum_many ?_)
    · rwa [List.length_mapIdx, List.length_map]
    · rwa [List.length_map]
  have hplaces : 0 + vs.length ≤ 256 := by
    rw [Nat.zero_add]
    exact Nat.le_of_not_lt hmany
  have hparts : parts (.enum (vs.map written)) = (exprs vs).map .ok := by
    rw [parts, if_neg (by rwa [List.length_map])]
    exact payloads_written 0 hplaces
  rcases hext : r.table.extend (.tuple (exprs vs)) with ⟨x | id', t⟩
  · rw [hext] at hrun
    cases hrun
  rw [hext] at hrun
  cases hrun
  cases hwritten : (Shape.enum (variantsOver (vs.map written) 0 ys)).check with
  | error x =>
    exact enumsAgree_of_error (hcheck.trans hwritten)
      (Table.extend_enum_error ht hext hmembers hparts hwritten)
  | ok =>
    obtain ⟨place, v, hresolved, hshape, bound, hshares, hbound⟩ :=
      Table.extend_enum_ok ht hr.grounded hext hmembers hparts hwritten
    have hintern : d.internChecked (Shape.ofDrafts (vs.map draft))
        = .ok (d.intern (Shape.ofDrafts (vs.map draft))) := by
      rw [Table.internChecked, hcheck, hwritten]
      rfl
    unfold EnumsAgree
    rw [hintern, outcome_resolveExpr, hresolved]
    refine ⟨_, _, hd.indexed.shape?_intern _, hshape, ?_,
      toNat_tags_variantsOver (tags_written_fit 0 hplaces) ys, matches_written 0 ?_⟩
    · rw [names_variantsOver, List.map_map]
      rfl
    · exact Shape.forall₂_of_mem hsame fun x y hy hxy =>
        hxy.keep (.intern d _) hshares (hbound y hy)

/-- What was resolved, one type after another, is found together in the registry after that. -/
theorem recalls_of_mapM {es : List TypeExpr} {ys : List TypeId} (hr : r.Reachable)
    (h : outcome (es.mapM resolveExpr) r = (.ok ys, r')) :
    r'.Reachable ∧ Keeps r r' ∧ r'.table.Recalls (.parts (es.map .ok) []) ys := by
  induction es generalizing r ys with
  | nil =>
    cases h
    exact ⟨hr, .refl _, .nil⟩
  | cons e es ih =>
    rw [List.mapM_cons] at h
    rcases hfirst : outcome (resolveExpr e) r with ⟨x | y, r₁⟩
    · rw [outcome_bind_error hfirst] at h
      cases h
    rw [outcome_bind_ok hfirst] at h
    have hr₁ : r₁.Reachable := by
      have hasked := hr.asked (.resolveExpr e)
      rwa [Question.after, hfirst] at hasked
    have hfound := Request.settled_of_ask (q := .written e) hr.world hfirst
    have hkeeps : Keeps r r₁ := by
      have hkeeps := hr.world.keeps_after (.resolveExpr e)
      rwa [Question.after, hfirst] at hkeeps
    rcases hrest : outcome (es.mapM resolveExpr) r₁ with ⟨x | rest, r₂⟩
    · rw [outcome_bind_error hrest] at h
      cases h
    rw [outcome_bind_ok hrest] at h
    cases h
    obtain ⟨hr₂, hkeeps₂, hrecalls⟩ := ih hr₁ hrest
    exact ⟨hr₂, hkeeps.trans hkeeps₂, .next (hfound.keep hkeeps₂) hrecalls⟩

/-- Payloads that were resolved one after another resolve together in the registry after that. -/
theorem ResolveInTurn.together (hr : r.Reachable) (h : ResolveInTurn d r vs r') :
    r'.Reachable ∧ ResolveTogether d r' vs := by
  obtain ⟨ys, hrun, hsame⟩ := h
  obtain ⟨hr', -, hrecalls⟩ := recalls_of_mapM hr hrun
  have ht := hr'.world.table
  refine ⟨hr', (r'.table.intern (.tuple ys)).1,
    { r' with table := (r'.table.intern (.tuple ys)).2 }, ys, ?_, ht.indexed.shape?_intern _,
    hsame.imp fun x y hxy => ?_⟩
  · rw [outcome_resolveExpr, hrecalls.extend_tuple ht hr'.grounded]
    rfl
  · exact hxy.keep ⟨Nat.le_refl _, fun _ _ => rfl, rfl, rfl, rfl, rfl⟩
      (ht.sharesBelow (.intern _ _)) hxy.lt_size

/-- An enum is built just when its variants are few, their names differ and their tags do. -/
theorem internChecked_drafts_iff : (∃ b, d.internChecked (Shape.ofDrafts (vs.map draft)) = .ok b) ↔
    vs.length ≤ 256 ∧ (vs.map (·.name)).Nodup ∧ (writtenTags (vs.map written) 0).Nodup := by
  rw [← check_drafts_iff, Table.internChecked]
  cases (Shape.ofDrafts (vs.map draft)).check with
  | error x => exact iff_of_false (fun ⟨_, h⟩ => by cases h) (by rintro ⟨⟩)
  | ok => exact iff_of_true ⟨_, rfl⟩ rfl

/-- Enums that are built by hand are the enums that are written. Whatever variants are asked for in
both ways, of any number, with tags or without, and with payloads that resolve, all together or one
after another: building the enum and resolving it are refused for the same reason, or both give
enums with the same names, tags and payloads in the same order. They are given just where there are
at most 256 variants, of different names and tags. -/
theorem built_enums_are_the_written_enums (hr : r.Reachable) (hd : d.Drafted)
    (vs : List VariantPlan) :
    (ResolveTogether d r vs → EnumsAgree d r vs) ∧
      (∀ r', ResolveInTurn d r vs r' → EnumsAgree d r' vs) ∧
      ((∃ b, d.internChecked (Shape.ofDrafts (vs.map draft)) = .ok b) ↔
        vs.length ≤ 256 ∧ (vs.map (·.name)).Nodup ∧ (writtenTags (vs.map written) 0).Nodup) := by
  refine ⟨enumsAgree_of_together hr hd, fun r' h => ?_, internChecked_drafts_iff⟩
  obtain ⟨hr', htogether⟩ := h.together hr
  exact enumsAgree_of_together hr' hd htogether

/-- A table that is built with the type of a byte. -/
def byteTable : Table := (Table.intern {} (.primitive (.integer ⟨false, .w8⟩))).2

/-- Three variants, of which one has a tag and a payload. -/
def bytePlan : List VariantPlan :=
  [{ name := "Nothing" }, { name := "Byte", payload := some (0, .named "u8" []), tag := some 7 },
    { name := "Rest" }]

theorem sameType_byteTable {t : Table} (h : t.shape? 0 = byteTable.shape? 0) :
    byteTable.SameType t 0 0 := by
  refine ⟨fun x y => x = 0 ∧ y = 0, ?_, rfl, rfl⟩
  rintro x y ⟨rfl, rfl⟩
  exact ⟨_, _, rfl, h, rfl⟩

/-- The enum around a byte is built as it is written, whether the byte was resolved before or
not. -/
theorem an_enum_around_a_byte_is_built_as_it_is_written :
    empty.Reachable ∧ byteTable.Drafted ∧ ResolveTogether byteTable empty bytePlan ∧
      EnumsAgree byteTable empty bytePlan ∧
      ∃ r, ResolveInTurn byteTable empty bytePlan r ∧ EnumsAgree byteTable r bytePlan := by
  have hr : empty.Reachable := .made .empty
  have hintern : Table.internChecked {} (.primitive (.integer ⟨false, .w8⟩))
      = .ok (0, byteTable) := rfl
  have hd : byteTable.Drafted := .interned .empty hintern
  obtain ⟨htogether, hturn, -⟩ := built_enums_are_the_written_enums hr hd bytePlan
  have hresolve : ResolveTogether byteTable empty bytePlan := by
    have hrun : (outcome (resolveExpr (.tuple (exprs bytePlan))) empty).1.toOption = some 1 := by
      decide +kernel
    have hmembers : (outcome (resolveExpr (.tuple (exprs bytePlan))) empty).2.table.shape? 1
        = some (.tuple [0]) := by decide +kernel
    have hbyte : (outcome (resolveExpr (.tuple (exprs bytePlan))) empty).2.table.shape? 0
        = byteTable.shape? 0 := by decide +kernel
    rcases h : outcome (resolveExpr (.tuple (exprs bytePlan))) empty with ⟨x | id, r⟩
    · rw [h] at hrun
      cases hrun
    · rw [h] at hrun hmembers hbyte
      cases hrun
      exact ⟨1, r, [0], h, hmembers, .cons (sameType_byteTable hbyte) .nil⟩
  have hresolve' : ∃ r, ResolveInTurn byteTable empty bytePlan r := by
    have hrun : (outcome ((exprs bytePlan).mapM resolveExpr) empty).1.toOption = some [0] := by
      decide +kernel
    have hbyte : (outcome ((exprs bytePlan).mapM resolveExpr) empty).2.table.shape? 0
        = byteTable.shape? 0 := by decide +kernel
    rcases h : outcome ((exprs bytePlan).mapM resolveExpr) empty with ⟨x | ids, r⟩
    · rw [h] at hrun
      cases hrun
    · rw [h] at hrun hbyte
      cases hrun
      exact ⟨r, [0], h, .cons (sameType_byteTable hbyte) .nil⟩
  obtain ⟨r, hr'⟩ := hresolve'
  exact ⟨hr, hd, hresolve, htogether hresolve, r, hr', hturn r hr'⟩

end Registry

end Typewire
