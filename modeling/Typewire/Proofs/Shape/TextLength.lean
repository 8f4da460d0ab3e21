-- How long the text of a type is. Each level that is shown is paid from the budget, and no level
-- is longer than the longest piece. A label is paid by its length, but it is written whole, so it
-- can be the one piece for which the budget was too small.
import Typewire.Proofs.Shape.Shown

namespace Typewire

open Typewire.Language

/-! ## Lengths -/

/-- The length of the longest of some texts, in bytes. -/
def longest (texts : List String) : Nat := (texts.map String.utf8ByteSize).foldr max 0

theorem longest_le_iff {texts : List String} {n : Nat} :
    longest texts ≤ n ↔ ∀ text ∈ texts, text.utf8ByteSize ≤ n := by
  induction texts with
  | nil => simp [longest]
  | cons text texts ih =>
    rw [List.forall_mem_cons, ← ih]
    exact Nat.max_le

theorem le_longest {texts : List String} {text : String} (h : text ∈ texts) :
    text.utf8ByteSize ≤ longest texts :=
  longest_le_iff.mp (Nat.le_refl _) text h

/-- The length of some texts together. -/
def lengthOfAll (texts : List String) : Nat := (texts.map String.utf8ByteSize).foldr (· + ·) 0

theorem length_commaJoined (texts : List String) :
    (commaJoined texts).utf8ByteSize = lengthOfAll texts + (texts.length - 1) := by
  induction texts with
  | nil => rfl
  | cons text texts ih =>
    cases texts with
    | nil => simp [commaJoined, lengthOfAll]
    | cons other texts =>
      have hrest : (",".intercalate (other :: texts)).utf8ByteSize
          = lengthOfAll (other :: texts) + texts.length := ih
      have hcomma : ",".utf8ByteSize = 1 := by decide
      have hall : lengthOfAll (text :: other :: texts)
          = text.utf8ByteSize + lengthOfAll (other :: texts) := rfl
      rw [commaJoined, String.intercalate_cons_cons, String.utf8ByteSize_append,
        String.utf8ByteSize_append, hrest, hcomma, hall, List.length_cons, List.length_cons]
      omega

/-- What the function puts around a text is as long for every text. -/
def Surrounds (g : String → String) : Prop :=
  ∀ s, (g s).utf8ByteSize = s.utf8ByteSize + (g "").utf8ByteSize

theorem Surrounds.before (text : String) : Surrounds (text ++ ·) := by
  intro s
  simp only [String.utf8ByteSize_append, String.utf8ByteSize_empty]
  omega

theorem Surrounds.after {g : String → String} (h : Surrounds g) (text : String) :
    Surrounds fun s => g s ++ text := by
  intro s
  have hg := h s
  simp only [String.utf8ByteSize_append]
  omega

/-! ## Pieces of texts -/

/-- One level of a shape, with the places of its parts. -/
def Shape.outline (s : Shape) : String := Id.run (s.textWith fun id => pure id.text)

namespace Shape

theorem outline_tuple (members : List TypeId) :
    (tuple members).outline = "(" ++ commaJoined (members.map (·.text)) ++ ")" := by
  change "(" ++ commaJoined (Id.run (members.mapM _)) ++ ")" = _
  rw [List.idRun_mapM]
  rfl

theorem outline_enum (variants : List Variant) :
    (enum variants).outline = "<" ++ commaJoined (variants.zipIdx.map fun q =>
      Id.run (q.1.textWith (fun id => pure id.text) q.2)) ++ ">" := by
  change "<" ++ commaJoined (Id.run (variants.zipIdx.mapM _)) ++ ">" = _
  rw [List.idRun_mapM]

theorem outline_struct (fields : List Field) :
    (struct fields).outline
      = "\x7b" ++ commaJoined (fields.map fun f => f.name ++ ":" ++ f.type.text) ++ "\x7d" := by
  change "\x7b" ++ commaJoined (Id.run (fields.mapM _)) ++ "\x7d" = _
  rw [List.idRun_mapM]
  rfl

end Shape

namespace Table

/-- The declared names and the names of the generic definitions, and all shapes at one level. -/
def pieces (t : Table) : List String :=
  t.names.map (·.1) ++ t.generics.map (·.1) ++ t.slots.toList.filterMap (·.map Shape.outline)

/-- The length of the longest piece, at least 16. -/
def longestPiece (t : Table) : Nat := max 16 (longest t.pieces)

/-- The length of the longest label. -/
def longestLabel (t : Table) : Nat := longest (t.labels.map (·.2))

end Table

theorem length_outline_le {t : Table} {id : TypeId} {s : Shape} (h : t.shape? id = some s) :
    s.outline.utf8ByteSize ≤ t.longestPiece := by
  refine Nat.le_trans (le_longest ?_) (Nat.le_max_right 16 _)
  refine List.mem_append_right _ (List.mem_filterMap.mpr ⟨some s, ?_, rfl⟩)
  obtain ⟨slot, hslot, hs⟩ := Option.bind_eq_some_iff.mp h
  cases hs
  exact Array.mem_toList_iff.mpr (Array.mem_of_getElem? hslot)

theorem length_primitive_le (t : Table) (p : Primitive) : p.name.utf8ByteSize ≤ t.longestPiece := by
  refine Nat.le_trans ?_ (Nat.le_max_left 16 _)
  cases p with
  | bool | str => decide
  | integer k =>
    obtain ⟨signed, width⟩ := k
    cases signed <;> cases width <;> decide

/-! ## The same on a budget -/

/-- What a step leaves of a budget. -/
def unspent {α : Type} (step : StateM Nat α) (budget : Nat) : Nat := (step.run budget).2

/-- Two steps give the same and leave the same on all budgets up to a bound, and they do not
leave more than they had. -/
def SameUpTo {α : Type} (bound : Nat) (a b : StateM Nat α) : Prop :=
  ∀ budget ≤ bound, a.run budget = b.run budget ∧ unspent a budget ≤ budget

namespace SameUpTo

variable {α β : Type} {bound : Nat}

theorem pure (x : α) : SameUpTo bound (pure x) (pure x) := fun _ _ => ⟨rfl, Nat.le_refl _⟩

theorem bind {a b : StateM Nat α} {f g : α → StateM Nat β} (h : SameUpTo bound a b)
    (hf : ∀ x, SameUpTo bound (f x) (g x)) : SameUpTo bound (a >>= f) (b >>= g) := by
  intro budget hbudget
  obtain ⟨hsame, hleft⟩ := h budget hbudget
  obtain ⟨hsame', hleft'⟩ := hf (a.run budget).1 (a.run budget).2 (Nat.le_trans hleft hbudget)
  refine ⟨?_, Nat.le_trans hleft' hleft⟩
  rw [StateT.run_bind, StateT.run_bind, ← hsame]
  exact hsame'

theorem mapM {f g : α → StateM Nat β} (h : ∀ x, SameUpTo bound (f x) (g x)) (xs : List α) :
    SameUpTo bound (xs.mapM f) (xs.mapM g) := by
  induction xs with
  | nil => exact pure _
  | cons x xs ih =>
    rw [List.mapM_cons, List.mapM_cons]
    exact (h x).bind fun _ => ih.bind fun _ => pure _

/-- What is done the same at each inner type is done the same at a shape. -/
theorem textWith {f g : TypeId → StateM Nat String} (h : ∀ id, SameUpTo bound (f id) (g id))
    (s : Shape) : SameUpTo bound (s.textWith f) (s.textWith g) := by
  cases s with
  | primitive p => exact pure _
  | compact inner | sequence inner | array inner _ => exact (h inner).bind fun _ => pure _
  | tuple members => exact (mapM h members).bind fun _ => pure _
  | enum variants =>
    refine (mapM (fun (v, i) => ?_) variants.zipIdx).bind fun _ => pure _
    obtain ⟨name, tag, payload⟩ := v
    cases payload with
    | none => by_cases hplace : tag.toNat = i <;> simp only [Variant.textWith, hplace] <;> exact pure _
    | some p =>
      by_cases hplace : tag.toNat = i <;> simp only [Variant.textWith, hplace] <;>
        exact (h p).bind fun _ => pure _
  | struct fields =>
    exact (mapM (fun f => (h f.type).bind fun _ => pure _) fields).bind fun _ => pure _

end SameUpTo

/-! ## Levels -/

namespace Table

variable {t : Table} {room room' : Nat} {path : List TypeId} {id : TypeId} {budget : Nat}

/-- One level on a budget: what is shown, and what is left. -/
theorem run_textWithin (t : Table) (room : Nat) (path : List TypeId) (id : TypeId)
    (budget : Nat) : (t.textWithin (room + 1) path id).run budget
      = if budget = 0 then (id.text, 0) else
        match t.labels.lookup id with
        | some label => (label, budget - 1 - label.utf8ByteSize)
        | none => if path.contains id then (id.text, budget - 1) else
          match t.shape? id with
          | none => (id.text, budget - 1)
          | some (.primitive p) => (p.name, budget - 1 - p.name.utf8ByteSize)
          | some s => (s.textWith (t.textWithin room (id :: path))).run (budget - 1) := by
  unfold textWithin
  change StateT.run (if budget = 0 then _ else _) budget = _
  split
  · rename_i hzero
    subst hzero
    rfl
  change StateT.run (match t.labels.lookup id with | some label => _ | none => _) (budget - 1) = _
  cases t.labels.lookup id with
  | some label => rfl
  | none =>
    by_cases hpath : path.contains id = true
    · simp only [if_pos hpath]
      rfl
    · simp only [if_neg hpath]
      cases t.shape? id with
      | none => rfl
      | some s => cases s <;> rfl

/-- The room for levels does not matter if it is more than the budget. -/
theorem sameUpTo_textWithin (h : room < room') :
    SameUpTo room (t.textWithin (room + 1) path id) (t.textWithin room' path id) := by
  induction room generalizing room' path id with
  | zero =>
    intro budget hbudget
    obtain ⟨room', rfl⟩ := Nat.exists_eq_add_one_of_ne_zero (Nat.ne_of_gt h)
    cases Nat.le_zero.mp hbudget
    exact ⟨rfl, Nat.le_refl _⟩
  | succ room ih =>
    obtain ⟨room', rfl⟩ := Nat.exists_eq_add_one_of_ne_zero (Nat.ne_of_gt (Nat.zero_lt_of_lt h))
    intro budget hbudget
    rw [unspent, run_textWithin, run_textWithin]
    split
    · exact ⟨rfl, Nat.zero_le _⟩
    split
    · exact ⟨rfl, by omega⟩
    split
    · exact ⟨rfl, by omega⟩
    split
    · exact ⟨rfl, by omega⟩
    · exact ⟨rfl, by omega⟩
    · rename_i s _ _
      have hinner : SameUpTo room (s.textWith (t.textWithin (room + 1) (id :: path)))
          (s.textWith (t.textWithin room' (id :: path))) :=
        .textWith (fun _ => ih (Nat.lt_of_succ_lt_succ h)) s
      obtain ⟨hsame, hleft⟩ := hinner (budget - 1) (by omega)
      exact ⟨hsame, Nat.le_trans hleft (Nat.sub_le _ _)⟩

end Table

/-! ## Paying for texts -/

/-- What a budget is worth: so many bytes for each unit, and some bytes more until all is
spent. -/
def worth (piece more budget : Nat) : Nat := if budget = 0 then 0 else piece * budget + more

theorem worth_le {piece more budget left : Nat} (h : left < budget) :
    worth piece more left + piece ≤ worth piece more budget := by
  have hmul : piece * (left + 1) ≤ piece * budget := Nat.mul_le_mul_left _ h
  rw [Nat.mul_succ] at hmul
  unfold worth
  rw [if_neg (Nat.ne_of_gt (Nat.zero_lt_of_lt h))]
  split <;> omega

/-- A piece that is paid by its length is paid, also where that spends more than there is. -/
theorem add_worth_le {piece more budget n : Nat} (hpiece : 0 < piece) (hn : n ≤ piece + more)
    (hbudget : budget ≠ 0) :
    n + worth piece more (budget - 1 - n) ≤ worth piece more budget := by
  unfold worth
  rw [if_neg hbudget]
  split
  · have hone : piece * 1 ≤ piece * budget := Nat.mul_le_mul_left _ (Nat.pos_of_ne_zero hbudget)
    omega
  · have hlength : n ≤ piece * n := Nat.le_mul_of_pos_left n hpiece
    have hall : piece * (budget - 1 - n + n) ≤ piece * budget :=
      Nat.mul_le_mul_left _ (by omega)
    rw [Nat.mul_add] at hall
    omega

/-- The text of the step is at most so much longer than another text as the step spends. -/
def Affords (piece more : Nat) (step : StateM Nat String) (text : String) : Prop :=
  ∀ budget, (spoken step budget).utf8ByteSize + worth piece more (unspent step budget)
    ≤ worth piece more budget + text.utf8ByteSize

section

variable {piece more : Nat}

theorem affords_pure (text : String) : Affords piece more (pure text) text := by
  intro budget
  exact Nat.le_of_eq (Nat.add_comm _ _)

/-- Text that is put around a step costs nothing beyond the text that is put around what the
step is measured by. -/
theorem Affords.around {step : StateM Nat String} {text : String} (h : Affords piece more step text)
    {g : String → String} (hg : Surrounds g) :
    Affords piece more (step >>= fun s => pure (g s)) (g text) := by
  intro budget
  have hstep := h budget
  change (g (spoken step budget)).utf8ByteSize + worth piece more (unspent step budget) ≤ _
  rw [hg (spoken step budget), hg text]
  omega

theorem affords_mapM {α : Type} {f : α → StateM Nat String} {text : α → String}
    (h : ∀ x, Affords piece more (f x) (text x)) (xs : List α) (budget : Nat) :
    (spoken (xs.mapM f) budget).length = xs.length ∧
      lengthOfAll (spoken (xs.mapM f) budget) + worth piece more (unspent (xs.mapM f) budget)
        ≤ worth piece more budget + lengthOfAll (xs.map text) := by
  induction xs generalizing budget with
  | nil => exact ⟨rfl, Nat.le_of_eq (Nat.add_comm _ _)⟩
  | cons x xs ih =>
    have hfirst := h x budget
    obtain ⟨hlength, hrest⟩ := ih (unspent (f x) budget)
    have hrun : (List.mapM f (x :: xs)).run budget
        = (spoken (f x) budget :: spoken (xs.mapM f) (unspent (f x) budget),
          unspent (xs.mapM f) (unspent (f x) budget)) := by
      rw [List.mapM_cons]
      rfl
    rw [spoken, unspent, hrun]
    refine ⟨congrArg (· + 1) hlength, ?_⟩
    simp only [lengthOfAll, List.map_cons, List.foldr_cons] at hrest ⊢
    omega

theorem affords_commaJoined {α : Type} {f : α → StateM Nat String} {text : α → String}
    (h : ∀ x, Affords piece more (f x) (text x)) (xs : List α) :
    Affords piece more (xs.mapM f >>= fun ys => pure (commaJoined ys))
      (commaJoined (xs.map text)) := by
  intro budget
  obtain ⟨hlength, hall⟩ := affords_mapM h xs budget
  change (commaJoined (spoken (xs.mapM f) budget)).utf8ByteSize
    + worth piece more (unspent (xs.mapM f) budget) ≤ _
  rw [length_commaJoined, length_commaJoined, hlength, List.length_map]
  omega

theorem affords_variant {f : TypeId → StateM Nat String}
    (h : ∀ id, Affords piece more (f id) id.text) (v : Variant) (place : Nat) :
    Affords piece more (v.textWith f place)
      (Id.run (v.textWith (fun id => pure id.text) place)) := by
  obtain ⟨name, tag, payload⟩ := v
  cases payload with
  | none => by_cases hplace : tag.toNat = place <;> simp only [Variant.textWith, hplace] <;>
      exact affords_pure _
  | some p =>
    by_cases hplace : tag.toNat = place
    · simp only [Variant.textWith, if_pos hplace]
      exact (h p).around (.before (name ++ ":"))
    · simp only [Variant.textWith, if_neg hplace]
      exact (h p).around (((Surrounds.before (name ++ ":")).after ":").after (toString tag.toNat))

/-- The text of a shape costs nothing beyond its outline. -/
theorem affords_textWith {f : TypeId → StateM Nat String}
    (h : ∀ id, Affords piece more (f id) id.text) (s : Shape) :
    Affords piece more (s.textWith f) s.outline := by
  cases s with
  | primitive p => exact affords_pure _
  | compact inner => exact (h inner).around (.before "@")
  | sequence element => exact (h element).around ((Surrounds.before "[").after "]")
  | array element length =>
    exact (h element).around
      ((((Surrounds.before "[").after ";").after (toString length)).after "]")
  | tuple members =>
    rw [Shape.outline_tuple]
    exact (affords_commaJoined h members).around ((Surrounds.before "(").after ")")
  | enum variants =>
    rw [Shape.outline_enum]
    have hvariant (q : Variant × Nat) := affords_variant h q.1 q.2
    exact (affords_commaJoined hvariant variants.zipIdx).around ((Surrounds.before "<").after ">")
  | struct fields =>
    rw [Shape.outline_struct]
    have hfield (f : Field) := (h f.type).around (.before (f.name ++ ":"))
    exact (affords_commaJoined hfield fields).around ((Surrounds.before "\x7b").after "\x7d")

end

/-! ## All levels -/

namespace Table

/-- How much longer the longest label is than the longest piece. -/
def overshoot (t : Table) : Nat := t.longestLabel - t.longestPiece

variable {t : Table} {id : TypeId}

theorem longestPiece_pos (t : Table) : 0 < t.longestPiece :=
  Nat.lt_of_lt_of_le (by decide) (Nat.le_max_left 16 _)

theorem length_label_le {label : String} (h : (id, label) ∈ t.labels) :
    label.utf8ByteSize ≤ t.longestPiece + t.overshoot := by
  have hlabel : label.utf8ByteSize ≤ t.longestLabel := le_longest (List.mem_map_of_mem h)
  unfold overshoot
  omega

/-- A level is paid by what it spends, except for a place where no more can be shown. -/
theorem pays_textWithin (t : Table) (room : Nat) (path : List TypeId) (id : TypeId)
    (budget : Nat) :
    (spoken (t.textWithin room path id) budget).utf8ByteSize
        + worth t.longestPiece t.overshoot (unspent (t.textWithin room path id) budget)
      ≤ worth t.longestPiece t.overshoot budget
        + if room = 0 ∨ budget = 0 ∨ path.contains id ∨ t.shape? id = none
          then id.text.utf8ByteSize else 0 := by
  induction room generalizing path id budget with
  | zero =>
    rw [if_pos (Or.inl rfl)]
    exact affords_pure id.text budget
  | succ room ih =>
    have haffords (path : List TypeId) (id : TypeId) :
        Affords t.longestPiece t.overshoot (t.textWithin room path id) id.text := by
      intro budget
      refine Nat.le_trans (ih path id budget) (Nat.add_le_add_left ?_ _)
      split <;> omega
    rw [spoken, unspent, run_textWithin]
    split
    · rename_i hzero
      rw [if_pos (Or.inr (Or.inl hzero)), hzero, Nat.add_comm]
    rename_i hbudget
    have hless : worth t.longestPiece t.overshoot (budget - 1) + t.longestPiece
        ≤ worth t.longestPiece t.overshoot budget := worth_le (Nat.sub_one_lt hbudget)
    split
    · rename_i label hlabel
      exact Nat.le_trans (add_worth_le t.longestPiece_pos
        (length_label_le (mem_of_lookup hlabel)) hbudget) (Nat.le_add_right _ _)
    split
    · rename_i hpath
      rw [if_pos (Or.inr (Or.inr (Or.inl hpath)))]
      dsimp only
      omega
    split
    · rename_i hshape
      rw [if_pos (Or.inr (Or.inr (Or.inr hshape)))]
      dsimp only
      omega
    · rename_i p hshape
      exact Nat.le_trans (add_worth_le t.longestPiece_pos
        (Nat.le_trans (length_primitive_le t p) (Nat.le_add_right _ _)) hbudget)
        (Nat.le_add_right _ _)
    · rename_i s _ hshape
      have hpaid := affords_textWith (haffords (id :: path)) s (budget - 1)
      have hpiece := length_outline_le hshape
      rw [spoken, unspent] at hpaid
      omega

/-- The text of a known type is as long as its budget of pieces, and one label may be longer. -/
theorem length_text_le (h : t.shape? id ≠ none) :
    (t.text id).utf8ByteSize ≤ textBudget * t.longestPiece + t.overshoot := by
  have hbudget : textBudget ≠ 0 := by decide
  have hworth : worth t.longestPiece t.overshoot textBudget
      = textBudget * t.longestPiece + t.overshoot := by
    rw [worth, if_neg hbudget, Nat.mul_comm]
  have hpaid := t.pays_textWithin (textBudget + 1) [] id textBudget
  rw [if_neg (by simp [hbudget, h]), hworth] at hpaid
  exact Nat.le_trans (Nat.le_add_right _ _) hpaid

/-- A text comes to an end by its budget alone. -/
theorem spoken_textWithin_congr {room budget : Nat} (h : budget < room) (path : List TypeId)
    (id : TypeId) : spoken (t.textWithin room path id) budget
      = spoken (t.textWithin (budget + 1) path id) budget :=
  (congrArg Prod.fst (sameUpTo_textWithin h budget (Nat.le_refl _)).1).symm

/-- Past the last place there is nothing to show but the place. -/
theorem text_of_size_le (ht : t.Closed) (h : t.size ≤ id) : t.text id = id.text := by
  have hshape : t.shape? id = none := by
    cases hs : t.shape? id with
    | none => rfl
    | some s => exact absurd (lt_size_of_shape? hs) (Nat.not_lt_of_le h)
  have hlabel : t.labels.lookup id = none := by
    cases hl : t.labels.lookup id with
    | none => rfl
    | some label => exact absurd (ht.labels _ (mem_of_lookup hl)) (Nat.not_lt_of_le h)
  refine (Workspace.spoken_textWithin t textBudget [] id textBudget).trans ?_
  simp [hlabel, hshape]

end Table

end Typewire
