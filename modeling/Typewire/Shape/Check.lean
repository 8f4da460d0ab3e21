-- The rules that a table of shapes keeps.
-- Each shape is sound by itself, names only places of the table, and is reached again from
-- itself only through a sequence, an enum or an empty array.
import Typewire.Shape.Text

namespace Typewire

/-! ## One shape -/

namespace Shape

/-- An enum has at most this many variants: one for each tag. -/
def maxVariants : Nat := 256

/-- The first variant whose name or tag an earlier one has. -/
def checkVariants (earlier : List Variant) : List Variant → Except ResolveError Unit
  | [] => .ok ()
  | v :: vs =>
    if earlier.any (·.name == v.name) then .error (.duplicateVariant v.name)
    else if earlier.any (·.tag == v.tag) then .error (.duplicateTag v.name v.tag)
    else checkVariants (v :: earlier) vs

/-- The first field whose name an earlier one has. -/
def checkFields (earlier : List Field) : List Field → Except ResolveError Unit
  | [] => .ok ()
  | f :: fs =>
    if earlier.any (·.name == f.name) then .error (.duplicateField f.name)
    else checkFields (f :: earlier) fs

/-- The rules for one shape that do not look at other shapes. -/
def check : Shape → Except ResolveError Unit
  | enum variants =>
    if variants.length > maxVariants then .error .tooManyVariants else checkVariants [] variants
  | struct fields => checkFields [] fields
  | _ => .ok ()

end Shape

namespace Table

/-- The place holds an unsigned integer primitive. -/
def isUnsigned (t : Table) (id : TypeId) : Bool :=
  match t.shape? id with
  | some (.primitive p) => p.isUnsigned
  | _ => false

/-- The rules for the shape at one place. -/
def checkPlace (t : Table) (id : TypeId) : Except ResolveError Unit := do
  let some s := t.shape? id | throw (.undefinedPlace id)
  s.check
  match s.references.find? (!t.contains ·) with
  | some child => throw (.unknownPlace child)
  | none => pure ()
  match s with
  | .compact inner => unless t.isUnsigned inner do throw (.invalidCompact (t.text inner))
  | _ => pure ()

/-! ## Cycles -/

/-- The places whose values every value at a place holds. -/
def unguarded (t : Table) (id : TypeId) : List TypeId := ((t.shape? id).map (·.unguarded)).getD []

/-- How far the search for cycles is with a place. -/
inductive Stage where
  | unvisited
  /-- The place is on the way to where the search is. -/
  | underway
  /-- All that the place leads to was followed. -/
  | closed
  deriving DecidableEq, Repr, Inhabited

/-- A search for cycles through the places from `mark` on. -/
structure Search where
  /-- The places on the way, the latest first, each with those that are to be followed yet. -/
  way : List (TypeId × List TypeId)
  /-- The stages of the places from `mark` on. -/
  stages : Array Stage
  deriving Repr

namespace Search

/-- No place was visited yet. -/
def start (t : Table) (mark : Nat) : Search where
  way := []
  stages := .replicate (t.size - mark) .unvisited

def stage? (s : Search) (mark : Nat) (id : TypeId) : Option Stage := s.stages[id - mark]?

def setStage (s : Search) (mark : Nat) (id : TypeId) (stage : Stage) : Search :=
  { s with stages := s.stages.setIfInBounds (id - mark) stage }

/-- Comes to a place. What it leads to is followed from the last on. -/
def enter (s : Search) (t : Table) (mark : Nat) (id : TypeId) : Search :=
  { s with way := (id, (t.unguarded id).reverse) :: s.way }.setStage mark id .underway

/-- One turn: from the latest place on, or back from it where nothing is left to follow. It fails
at a place that is on the way already. -/
def step (s : Search) (t : Table) (mark : Nat) : Except TypeId Search :=
  match s.way with
  | [] => .ok s
  | (id, []) :: way => .ok ({ s with way }.setStage mark id .closed)
  | (id, child :: pending) :: way =>
    let s := { s with way := (id, pending) :: way }
    if child < mark then .ok s
    else match s.stage? mark child with
      | some .underway => .error child
      | some .unvisited => .ok (s.enter t mark child)
      | some .closed | none => .ok s

/-- Turns until the way is at its end, with room for a number of them. -/
def run (t : Table) (mark : Nat) : Nat → Search → Except TypeId Search
  | 0, s => .ok s
  | room + 1, s => if s.way.isEmpty then .ok s else do run t mark room (← s.step t mark)

end Search

/-- The turns that a search can take: at each place one back, and one for each place that it
leads to. -/
def turns (t : Table) (mark : Nat) : Nat :=
  (((List.range t.size).drop mark).flatMap fun id => id :: t.unguarded id).length

/-- Searches from a place on, unless it was visited before. -/
def visit (t : Table) (mark : Nat) (s : Search) (id : TypeId) : Except TypeId Search :=
  if s.stage? mark id = some .unvisited then (s.enter t mark id).run t mark (t.turns mark)
  else .ok s

/-- No cycle of unguarded places goes through a place from `mark` on. -/
def checkGuarded (t : Table) (mark : Nat) : Except ResolveError Unit :=
  match ((List.range t.size).drop mark).foldlM (t.visit mark) (.start t mark) with
  | .ok _ => .ok ()
  | .error id => .error (.infiniteType (t.text id))

/-- The rules for all places from `mark` on. -/
def check (t : Table) (mark : Nat) : Except ResolveError Unit := do
  ((List.range t.size).drop mark).forM t.checkPlace
  t.checkGuarded mark

end Table

end Typewire
