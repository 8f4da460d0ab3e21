-- One place for one shape. A registry that was read from text, whatever it was asked since, looks
-- each shape up at one place and gives that place out for it. Only a type that leads back to itself
-- may stand at a place of its own, as that was reserved before the shape was known.
import Typewire.Proofs.Language.Displayed
import Typewire.Proofs.Registry.Stable
import Typewire.Proofs.Shape.Twofold

namespace Typewire

open Typewire.Language

variable {ds : List Definition} {known : Declared} {t t' : Table}

/-- What stands without a name has no parameters. -/
theorem params_of_parseDefinitions {text : String} (h : parseDefinitions text = .ok ds) :
    ∀ d ∈ ds, d.name = none → d.params = [] := by
  intro d hd hname
  obtain ⟨-, hstated⟩ := readDefinitions_sound (parseDefinitions_ok.mp h)
  obtain ⟨us, hus, -⟩ := hstated.stated d hd
  cases hus with
  | type => rfl
  | named => cases hname

namespace Table

/-! ## Steps -/

/-- The generic definitions are those declared, and all places are accounted for. -/
structure Tallied (ds : List Definition) (known : Declared) (t : Table) : Prop where
  world : t.ClosedWorld
  generics : t.generics = known.generics
  places : ∀ id < t.size, t.Accounts ds id

theorem Tallied.step (h : t.Tallied ds known) (hof : Declared.Of ds known) (hstep : t.Step t') :
    t'.Tallied ds known := by
  have hworld := h.world.step hstep
  have hgenerics := (hstep.extends h.world.closed).generics.trans h.generics
  refine ⟨hworld, hgenerics, ?_⟩
  cases hstep with
  | same => exact h.places
  | extended e => exact accounts_extend hof h.world h.generics h.places e
  | remembered =>
    exact fun id hid =>
      (accounts_extend hof h.world h.generics h.places _ id hid).keep (.of_eq rfl rfl) rfl
  | tuple =>
    intro id hid
    rcases Nat.lt_or_ge id t.size with hlt | hge
    · exact (h.places id hlt).keep (.intern t _) (SameNotes.intern _).positions
    · exact Or.inl ⟨_, lookup_intern_new hge hid⟩

/-- A shape is given out at the place where it is looked up, and where else it stands is the place
of a type that leads back to itself. -/
theorem Tallied.shared (h : t.Tallied ds known) {id : TypeId} {s : Shape}
    (hs : t.shape? id = some s) :
    ∃ found, t.shape? found = some s ∧ t.intern s = (found, t) ∧
      (id = found ∨ t.ComesBack ds id) := by
  obtain ⟨found, hfound⟩ := h.world.indexed.stored id s hs
  refine ⟨found, h.world.indexed.interned s found hfound, intern_of_lookup hfound, ?_⟩
  rcases h.places id (lt_size_of_shape? hs) with ⟨s', hs'⟩ | hback
  · cases hs.symm.trans (h.world.indexed.interned s' id hs')
    exact Or.inl (Option.some.inj (hs'.symm.trans hfound))
  · exact Or.inr hback

end Table

namespace Registry

/-! ## Runs -/

theorem tallied_of_parse {text : String} {r : Registry} (hds : parseDefinitions text = .ok ds)
    (hr : parse text = .ok r) : ∃ known, Declared.Of ds known ∧ r.table.Tallied ds known := by
  obtain ⟨_, hds', htable⟩ := parse_ok hr
  cases hds.symm.trans hds'
  obtain ⟨known, hof, hgenerics, hplaces⟩ :=
    Table.accounts_ofDefinitions (params_of_parseDefinitions hds) htable
  exact ⟨known, hof, .ofDefinitions htable, hgenerics, hplaces⟩

theorem tallied_afterAll (hof : Declared.Of ds known) {r : Registry}
    (h : r.table.Tallied ds known) (qs : List Question) :
    (afterAll qs r).table.Tallied ds known := by
  induction qs generalizing r with
  | nil => exact h
  | cons q qs ih => exact ih (h.step hof (step_of_question q r))

/-- After any questions a registry that was read from text gives out one place for each shape that
it holds. Where two places hold equal shapes, one of them is that of a definition that leads back to
itself, or of a generic instance of one. So if no definition leads back to itself, equal shapes
share one place. -/
theorem equal_shapes_share_a_place_but_for_types_that_lead_back {text : String} {r : Registry}
    (hds : parseDefinitions text = .ok ds) (hr : parse text = .ok r) (qs : List Question) :
    (∀ id s, (afterAll qs r).table.shape? id = some s →
      ∃ found, (afterAll qs r).table.shape? found = some s ∧
        (afterAll qs r).table.intern s = (found, (afterAll qs r).table) ∧
        (id = found ∨ (afterAll qs r).table.ComesBack ds id)) ∧
    (∀ a b s, (afterAll qs r).table.shape? a = some s → (afterAll qs r).table.shape? b = some s →
      a ≠ b → (afterAll qs r).table.ComesBack ds a ∨ (afterAll qs r).table.ComesBack ds b) ∧
    ((∀ i, ¬ LeadsBack ds i) → ∀ a b s, (afterAll qs r).table.shape? a = some s →
      (afterAll qs r).table.shape? b = some s → a = b) := by
  obtain ⟨known, hof, htallied⟩ := tallied_of_parse hds hr
  have hlater := tallied_afterAll hof htallied qs
  have htwo (a b : TypeId) (s : Shape) (ha : (afterAll qs r).table.shape? a = some s)
      (hb : (afterAll qs r).table.shape? b = some s) (hne : a ≠ b) :
      (afterAll qs r).table.ComesBack ds a ∨ (afterAll qs r).table.ComesBack ds b := by
    obtain ⟨c, -, hc, rfl | hback⟩ := hlater.shared ha
    · obtain ⟨c', -, hc', rfl | hback⟩ := hlater.shared hb
      · exact absurd (congrArg Prod.fst (hc.symm.trans hc')) hne
      · exact Or.inr hback
    · exact Or.inl hback
  refine ⟨fun id s hs => hlater.shared hs, htwo, fun hnone a b s ha hb => ?_⟩
  by_contra hne
  rcases htwo a b s ha hb hne with ⟨i, hback, -⟩ | ⟨i, hback, -⟩
  · exact hnone i hback
  · exact hnone i hback

/-- The lists of themselves. -/
def ownListText : String := "L = [L]"

/-- What is written there. -/
def ownListDefinitions : List Definition := [⟨some "L", [], .sequence (.named "L" []), 1⟩]

/-- The registry of them. -/
def ownLists : Registry := (parse ownListText).toOption.getD empty

/-- The lists of themselves stand under their name at one place, and at another as the sequences of
what stands there. -/
theorem lists_of_themselves_stand_twice :
    ∃ r, parse ownListText = .ok ownLists ∧ outcome (resolve "[L]") ownLists = (.ok 1, r) ∧
      r.lookup? "L" = some 0 ∧ r.table.shape? 0 = some (.sequence 0) ∧
      r.table.shape? 1 = some (.sequence 0) ∧ r.table.ComesBack ownListDefinitions 0 := by
  have hread : parseDefinitions ownListText = .ok ownListDefinitions := by with_unfolding_all rfl
  have hmade : parse ownListText = .ok ownLists := by
    have hok : (parse ownListText).isOk = true := by decide +kernel
    unfold ownLists
    cases h : parse ownListText with
    | error x =>
      rw [h] at hok
      cases hok
    | ok r => rfl
  have hone : (outcome (resolve "[L]") ownLists).1.toOption = some 1 := by decide +kernel
  have hafter : (outcome (resolve "[L]") ownLists).2.lookup? "L" = some 0 ∧
      (outcome (resolve "[L]") ownLists).2.table.shape? 0 = some (.sequence 0) ∧
      (outcome (resolve "[L]") ownLists).2.table.shape? 1 = some (.sequence 0) ∧
      ((outcome (resolve "[L]") ownLists).2.table.intern (.sequence 0)).1 = 1 := by
    decide +kernel
  obtain ⟨hshared, -, -⟩ :=
    equal_shapes_share_a_place_but_for_types_that_lead_back hread hmade [.resolve "[L]"]
  rcases hrun : outcome (resolve "[L]") ownLists with ⟨x | id, r⟩
  · rw [hrun] at hone
    cases hone
  · rw [hrun] at hone hafter
    cases hone
    obtain ⟨hname, hzero, hshape, hintern⟩ := hafter
    refine ⟨r, hmade, rfl, hname, hzero, hshape, ?_⟩
    rw [show afterAll [.resolve "[L]"] ownLists = r from congrArg Prod.snd hrun] at hshared
    obtain ⟨found, -, hfound, hsame | hback⟩ := hshared 0 (.sequence 0) hzero
    · have htwice : found = 1 := (congrArg Prod.fst hfound).symm.trans hintern
      cases hsame.trans htwice
    · exact hback

end Registry

end Typewire
