-- References in the bodies of generic types. A body is looked over when the registry is made, so a
-- bad reference in it is reported then, and a generic type over arguments that have a type each is
-- not refused for a reference later. But a body may refer by position to a definition that is
-- generic itself: that is found to be wrong only when the generic type is first given arguments.
import Typewire.Proofs.Registry.Stable
import Typewire.Proofs.Shape.Referring

namespace Typewire

open Typewire.Language

namespace Registry

variable {r r' : Registry} {q : Request} {e : TypeExpr} {id : TypeId}

namespace Request

/-- A type that is given out refers to types only. -/
theorem covers_of_ask (hr : r.Reachable) (he : q.expr? = some e)
    (h : outcome q.ask r = (.ok id, r')) : (r.table.scope r.table.Typed).Covers (Bound []) e := by
  have hasked := hr.asked q.question
  have hext := (step_of_question q.question r).extends hr.world.table.closed
  rw [q.after_question r, h] at hasked hext
  -- Right after it was given out the type is found again, in a table with the same names.
  have hfound := (settled_of_ask hr.world h).recalls hasked.remembers he
  have hcovers := Table.covers_extend hasked.world.table.closed (congrArg Prod.fst hfound.extend)
  have htyped : r'.table.Typed = r.table.Typed := by
    unfold Table.Typed
    rw [hext.positions]
  rwa [Table.scope_extends hext, htyped] at hcovers

/-- A request that fails for its type does so because the type is not taken up. -/
theorem extend_of_ask {x : ResolveError} (he : q.expr? = some e)
    (h : outcome q.ask r = (.error (.resolve x), r')) : (r.table.extend e).1 = .error x := by
  have hresolve {s : String} (hs : read? s = some e)
      (h : outcome (resolve s) r = (.error (.resolve x), r')) :
      (r.table.extend e).1 = .error x := by
    rw [outcome_resolve, eq_ok_of_read? hs] at h
    split at h
    · cases h
    · simp only at h
      split at h
      · rename_i hext
        cases h
        rw [hext]
      · cases h
  cases q with
  | text s => exact hresolve he h
  | written e' =>
    cases he
    have hrun := (outcome_resolveExpr e r).symm.trans h
    cases hext : (r.table.extend e).1 with
    | ok id =>
      rw [hext] at hrun
      cases hrun
    | error y =>
      rw [hext] at hrun
      cases hrun
      rfl
  | ref ref =>
    cases ref with
    | expr s => exact hresolve he h
    | position | tuple | id => cases he

end Request

/-- Definitions with a generic body that refers to something out of scope make no registry: the first
such reference is reported, unless the names cannot even be declared. In the registry of definitions,
whatever it was asked before, a generic type over as many arguments as it takes, each of which is
given out by itself, is refused for a reference in one way only: a generic body refers to the position
of a definition that is generic itself. -/
theorem bad_references_in_generic_bodies_are_reported_early_but_for_positions
    (ds : List Definition) :
    ((∃ d ∈ ds, d.isGeneric = true ∧ ¬ (definitionScope ds).Covers (· ∈ d.params) d.body) →
      ∃ x, ofDefinitions ds = .error x ∧ (BlamesBody ds x ∨ Declared.all ds = .error x)) ∧
    ∀ r, ofDefinitions ds = .ok r → ∀ (qs : List Question) (q : Request) i d name args,
      q.expr? = some (.named name args) → Declares ds i d name → d.isGeneric = true →
      d.params.length = args.length →
      (∀ arg ∈ args, ∃ (q' : Request) (id : TypeId) (r' : Registry), q'.expr? = some arg ∧
        outcome q'.ask (afterAll qs r) = (.ok id, r')) →
      ∀ x r', outcome q.ask (afterAll qs r) = (.error (.resolve x), r') →
        x.bare.isReference = true →
        ∃ i, x.bare = .missingArguments ("#" ++ toString i) ∧ BodyIndexesGeneric ds i := by
  constructor
  · rintro ⟨d, hd, hgeneric, hnot⟩
    obtain ⟨i, hi⟩ := List.mem_iff_getElem?.mp hd
    cases hall : Declared.all ds with
    | error x =>
      refine ⟨x, ?_, Or.inr rfl⟩
      rw [ofDefinitions, Table.ofDefinitions, hall]
      rfl
    | ok known =>
      obtain ⟨x, hx, hblames⟩ := Table.ofDefinitions_blames hall hi hgeneric hnot
      exact ⟨x, by rw [ofDefinitions, hx]; rfl, Or.inl hblames⟩
  · intro r hmade qs q i d name args he hd hgeneric hlength hargs x r' h href
    have htable := ofDefinitions_ok hmade
    have hreachable : r.Reachable := .made (.defined hmade)
    have hext := (hreachable.world.keeps_afterAll qs).holds
    have hr := hreachable.afterAll qs
    have hreferring := (Table.referring_ofDefinitions htable).of_extends hext
    have hg := Table.generic_ofDefinitions htable hd hgeneric
    rw [← hext.generics] at hg
    have happlied := hreferring.covers_applied hg hlength fun arg harg => by
      obtain ⟨q', id, r'', he', hid⟩ := hargs arg harg
      exact Request.covers_of_ask hr he' hid
    obtain ⟨k, hk, hindexes⟩ :=
      hreferring.excuses_extend hr.world.table happlied (Request.extend_of_ask he h) href
    refine ⟨k, hk, Table.bodyIndexesGeneric_ofDefinitions htable ?_⟩
    rwa [Table.IndexesGeneric, hext.positions, hext.generics] at hindexes

/-- A generic type that refers to the position of its own definition. -/
def selfIndexed : List Definition :=
  [⟨some "G", ["T"], .tuple [.named "T" [], .index 0], 1⟩]

/-- A generic type that refers to a name that nothing has. -/
def misspelt : List Definition := [⟨some "G", ["T"], .named "Missing" [], 1⟩]

/-- Whether a request was refused for a reference. -/
def refusedForReference : Except Error TypeId → Bool
  | .error (.resolve x) => x.bare.isReference
  | _ => false

/-- The first makes a registry, in which the generic type can be given no argument; the second makes
none. -/
theorem a_generic_body_may_refer_to_the_position_of_a_generic_type :
    (∃ r x r', ofDefinitions selfIndexed = .ok r ∧
      outcome (resolveExpr (.named "G" [.named "u8" []])) r = (.error (.resolve x), r') ∧
      ∃ i, x.bare = .missingArguments ("#" ++ toString i) ∧ BodyIndexesGeneric selfIndexed i) ∧
    ∃ x, ofDefinitions misspelt = .error x ∧
      (BlamesBody misspelt x ∨ Declared.all misspelt = .error x) := by
  constructor
  · let r := (ofDefinitions selfIndexed).toOption.getD empty
    have hmade : ofDefinitions selfIndexed = .ok r := by
      have hok : (ofDefinitions selfIndexed).isOk = true := by decide +kernel
      cases h : ofDefinitions selfIndexed with
      | error x =>
        rw [h] at hok
        cases hok
      | ok r' => simp only [r, h, Except.toOption, Option.getD_some]
    have hbyte : (outcome (resolveExpr (.named "u8" [])) r).1.isOk = true := by decide +kernel
    have hfails : refusedForReference
        (outcome (resolveExpr (.named "G" [.named "u8" []])) r).1 = true := by decide +kernel
    rcases h : outcome (resolveExpr (.named "G" [.named "u8" []])) r with ⟨y | id, r'⟩
    · rw [h] at hfails
      cases y with
      | grammar | codec => cases hfails
      | resolve x =>
        refine ⟨r, x, r', hmade, h,
          (bad_references_in_generic_bodies_are_reported_early_but_for_positions selfIndexed).2 r
            hmade [] (.written _) 0 _ "G" [.named "u8" []] rfl ⟨rfl, rfl⟩ rfl rfl
            (fun arg harg => ?_) x r' h hfails⟩
        cases List.mem_singleton.mp harg
        rcases hu8 : outcome (resolveExpr (.named "u8" [])) r with ⟨x | id, r''⟩
        · rw [hu8] at hbyte
          cases hbyte
        · exact ⟨.written _, id, r'', rfl, hu8⟩
    · rw [h] at hfails
      cases hfails
  · refine (bad_references_in_generic_bodies_are_reported_early_but_for_positions misspelt).1
      ⟨_, List.mem_cons_self, rfl, fun hcovers => ?_⟩
    rcases hcovers.knows with ⟨hbound | ⟨i, d, ⟨hd, hname⟩, -⟩ | hprim, -⟩ | ⟨-, i, d, ⟨hd, hname⟩, -⟩
    · simp at hbound
    · cases List.mem_singleton.mp (List.mem_of_getElem? hd)
      simp at hname
    · exact absurd hprim (by decide)
    · cases List.mem_singleton.mp (List.mem_of_getElem? hd)
      simp at hname

end Registry

end Typewire
