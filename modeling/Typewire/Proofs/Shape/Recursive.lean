-- Types that lead back to themselves. A body mentions definitions, by their names and by their
-- positions, and these mention others. Whatever is underway while types are resolved leads to all
-- that is still mentioned, so what is met again while it is underway leads back to itself.
import Typewire.Proofs.Shape.Headless
import Typewire.Proofs.Shape.Parts
import Typewire.Proofs.Shape.Scopes

namespace Typewire

open Typewire.Language Resolving

/-! ## Mentioning -/

/-- The type, where the names in `bound` are parameters, mentions the definition at a position. -/
def Language.TypeExpr.Mentions (ds : List Definition) (bound : String → Prop) (e : TypeExpr)
    (j : Nat) : Prop :=
  e.Inside (.index j) ∨
    ∃ name args d, e.Inside (.named name args) ∧ Declares ds j d name ∧ ¬ bound name

/-- The body of the definition at the first position mentions the definition at the second. -/
def Uses (ds : List Definition) (i j : Nat) : Prop :=
  ∃ d, ds[i]? = some d ∧ d.body.Mentions ds (· ∈ d.params) j

/-- The definition at the first position comes to mention that at the second, itself or by others
that it mentions. -/
def LeadsOn (ds : List Definition) : Nat → Nat → Prop := Relation.TransGen (Uses ds)

/-- The definition at a position comes to mention itself. -/
def LeadsBack (ds : List Definition) (i : Nat) : Prop := LeadsOn ds i i

variable {ds : List Definition} {bound bound' : String → Prop} {e inner : TypeExpr} {i j : Nat}

namespace Language.TypeExpr.Mentions

theorem of_inside (hinner : inner ∈ e.inside) (h : inner.Mentions ds bound j) :
    e.Mentions ds bound j := by
  rcases h with hindex | ⟨name, args, d, hnamed, hrest⟩
  · exact Or.inl (.head hinner hindex)
  · exact Or.inr ⟨name, args, d, .head hinner hnamed, hrest⟩

theorem mono (h : e.Mentions ds bound j) (hbound : ∀ name, bound' name → bound name) :
    e.Mentions ds bound' j := by
  rcases h with hindex | ⟨name, args, d, hnamed, hd, hfree⟩
  · exact Or.inl hindex
  · exact Or.inr ⟨name, args, d, hnamed, hd, fun hname => hfree (hbound name hname)⟩

end Language.TypeExpr.Mentions

/-- The task, or what it waits for, mentions the definition at a position. -/
def Task.Mentions (ds : List Definition) : Task → Nat → Prop
  | .type e s, j => e.Mentions ds (Bound s) j
  | .parts es s, j => ∃ e, .ok e ∈ es ∧ e.Mentions ds (Bound s) j
  | .definition i, j => j = i
  | .generic _ key, j => ∃ d, Declares ds j d key.name

namespace Task.Mentions

variable {s : Bindings} {es : List (Except ResolveError TypeExpr)} {name : String}

theorem head (h : Mentions ds (.type e s) j) : Mentions ds (.parts (.ok e :: es) s) j :=
  ⟨e, List.mem_cons_self, h⟩

theorem tail {part : Except ResolveError TypeExpr} (h : Mentions ds (.parts es s) j) :
    Mentions ds (.parts (part :: es) s) j := by
  obtain ⟨e, he, hmentions⟩ := h
  exact ⟨e, List.mem_cons_of_mem _ he, hmentions⟩

theorem parts (h : Mentions ds (.parts (Typewire.parts e) s) j) : Mentions ds (.type e s) j := by
  obtain ⟨inner, hinner, hmentions⟩ := h
  exact .of_inside (inside_of_parts hinner) hmentions

theorem args {args : List TypeExpr} (h : Mentions ds (.parts (args.map .ok) s) j) :
    Mentions ds (.type (.named name args) s) j := by
  obtain ⟨arg, harg, hmentions⟩ := h
  obtain ⟨_, hmem, hsame⟩ := List.mem_map.mp harg
  cases hsame
  exact .of_inside (e := .named name args) hmem hmentions

theorem index (h : Mentions ds (.definition i) j) : Mentions ds (.type (.index i) s) j := by
  subst h
  exact Or.inl .refl

theorem declared {d : Definition} (hs : s.lookup name = none) (hd : Declares ds i d name)
    (h : Mentions ds (.definition i) j) : Mentions ds (.type (.named name []) s) j := by
  subst h
  exact Or.inr ⟨name, [], d, .refl, hd, not_bound.mpr hs⟩

theorem applied {g : Generic} {args : List TypeExpr} {ids : List TypeId}
    (hs : s.lookup name = none) (h : Mentions ds (.generic g ⟨name, ids⟩) j) :
    Mentions ds (.type (.named name args) s) j := by
  obtain ⟨d, hd⟩ := h
  exact Or.inr ⟨name, args, d, .refl, hd, not_bound.mpr hs⟩

end Task.Mentions

/-! ## Leading on -/

namespace Workspace

/-- The definition at a position is underway, itself or as a generic instance. -/
def Enters (ds : List Definition) (w : Workspace) (i : Nat) : Prop :=
  (∃ u, w.progressAt i = .underway u) ∨
    ∃ key u d, w.instances.lookup key = some u ∧ Declares ds i d key.name

/-- Whatever is underway comes to mention what the task mentions. -/
def LeadsUpTo (ds : List Definition) (w : Workspace) (task : Task) : Prop :=
  ∀ i, w.Enters ds i → ∀ j, task.Mentions ds j → LeadsOn ds i j

variable {w w' : Workspace} {task task' : Task}

theorem Enters.of_returns (h : w'.Enters ds i) (hw : w.Returns w') : w.Enters ds i := by
  rcases h with ⟨u, hu⟩ | ⟨key, u, d, hu, hd⟩
  · exact Or.inl (hw.definitions i u hu)
  · obtain ⟨v, hv⟩ := hw.instances key u hu
    exact Or.inr ⟨key, v, d, hv, hd⟩

/-- Nothing is entered where nothing is being resolved. -/
theorem Idle.leadsUpTo (h : w.Idle) : w.LeadsUpTo ds task := by
  rintro i (⟨u, hu⟩ | ⟨key, u, d, hu, -⟩)
  · exact (h.definitions i u hu).elim
  · exact (h.instances key u hu).elim

namespace LeadsUpTo

theorem of_mentions (h : w.LeadsUpTo ds task)
    (himp : ∀ j, task'.Mentions ds j → task.Mentions ds j) : w.LeadsUpTo ds task' :=
  fun i hi j hj => h i hi j (himp j hj)

theorem of_returns (h : w.LeadsUpTo ds task) (hw : w.Returns w') : w'.LeadsUpTo ds task :=
  fun i hi => h i (hi.of_returns hw)

/-- A definition that goes underway mentions what its body does, and what led to it leads on to
that. -/
theorem enterDefinition (h : w.LeadsUpTo ds (.definition i)) {d : Definition} (hd : ds[i]? = some d)
    (hparams : d.params = []) (u : Underway) :
    (w.setProgress i (.underway u)).LeadsUpTo ds (.type d.body []) := by
  intro k hk j hj
  have huses : Uses ds i j := by
    refine ⟨d, hd, Language.TypeExpr.Mentions.mono hj fun name hname => ?_⟩
    rw [hparams] at hname
    cases hname
  have hback : k = i ∨ w.Enters ds k := by
    rcases hk with ⟨v, hv⟩ | hinstance
    · rcases of_progressAt_setProgress hv (by simp) with ⟨hki, -⟩ | ⟨-, hv⟩
      · exact Or.inl hki
      · exact Or.inr (Or.inl ⟨v, hv⟩)
    · exact Or.inr (Or.inr hinstance)
  rcases hback with rfl | hk
  · exact .single huses
  · exact (h k hk i rfl).tail huses

/-- A generic instance that goes underway mentions what the body of its definition does. -/
theorem enterInstance {g : Generic} {key : InstanceKey} (h : w.LeadsUpTo ds (.generic g key))
    {d : Definition} (hd : Declares ds i d key.name)
    (honly : ∀ j x, Declares ds j x key.name → j = i)
    (hparams : g.params = d.params) (hbody : g.body = d.body)
    (hlength : g.params.length = key.args.length) (n : Nat) :
    (w.enterInstance key n).LeadsUpTo ds (.type g.body (Program.bind g.params key.args)) := by
  intro k hk j hj
  have huses : Uses ds i j := by
    refine ⟨d, hd.1, ?_⟩
    rw [Task.Mentions, Generic.bound_bind hlength, hbody] at hj
    refine hj.mono fun name hname => ?_
    rwa [Generic.binds, hparams]
  have hback : k = i ∨ w.Enters ds k := by
    rcases hk with hdefinition | ⟨other, v, x, hv, hx⟩
    · exact Or.inr (Or.inl hdefinition)
    · by_cases hother : other = key
      · exact Or.inl (honly k x (hother ▸ hx))
      · rw [lookup_enterInstance_ne hother] at hv
        exact Or.inr (Or.inr ⟨other, v, x, hv, hx⟩)
  rcases hback with rfl | hk
  · exact .single huses
  · exact (h k hk i ⟨d, hd⟩).tail huses

end LeadsUpTo

end Workspace

end Typewire
