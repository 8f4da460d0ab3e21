-- What a written type denotes in a table. A place holds what a built type denotes when it has
-- the shape of the type over places that hold what its parts denote; a name, a position and a
-- generic type denote the shape at the place that the table gives to them.
import Typewire.Proofs.Shape.Rules

namespace Typewire

open Typewire.Language

mutual

/-- The place holds what the type denotes in the table under some bindings. -/
inductive Denotes (p : Program) (t : Table) : TypeExpr → Bindings → TypeId → Prop where
  | built {e s ids shape id} : shapeOver e ids = some shape → DenoteAll p t (parts e) s ids →
    t.shape? id = some shape → Denotes p t e s id
  | index {i s y id} : t.positions[i]? = some (some y) → t.shape? id = t.shape? y →
    Denotes p t (.index i) s id
  | bound {name s y id} : s.lookup name = some y → t.shape? id = t.shape? y →
    Denotes p t (.named name []) s id
  | declared {name s i y id} : s.lookup name = none → p.positionOf.lookup name = some i →
    t.positions[i]? = some (some y) → t.shape? id = t.shape? y →
    Denotes p t (.named name []) s id
  | primitive {name s prim id} : s.lookup name = none → p.positionOf.lookup name = none →
    Primitive.ofName? name = some prim → t.shape? id = some (.primitive prim) →
    Denotes p t (.named name []) s id
  | applied {name e es s g ids y id} : t.generics.lookup name = some g →
    g.params.length = es.length + 1 → DenoteAll p t ((e :: es).map .ok) s ids →
    t.instances.lookup ⟨name, ids⟩ = some y → t.shape? id = t.shape? y →
    Denotes p t (.named name (e :: es)) s id

/-- The places hold what the parts denote, with nothing wrong between them. -/
inductive DenoteAll (p : Program) (t : Table) :
    List (Except ResolveError TypeExpr) → Bindings → List TypeId → Prop where
  | nil {s} : DenoteAll p t [] s []
  | cons {e es s id ids} : Denotes p t e s id → DenoteAll p t es s ids →
    DenoteAll p t (.ok e :: es) s (id :: ids)

end

variable {p : Program} {t : Table}

/-- What a type denotes is a shape, so all places of that shape hold it. -/
theorem Denotes.congr {e : TypeExpr} {s : Bindings} {id id' : TypeId} (h : Denotes p t e s id)
    (hshape : t.shape? id' = t.shape? id) : Denotes p t e s id' := by
  cases h with
  | built hover hparts hid => exact .built hover hparts (hshape.trans hid)
  | index hi hid => exact .index hi (hshape.trans hid)
  | bound hs hid => exact .bound hs (hshape.trans hid)
  | declared hs hname hi hid => exact .declared hs hname hi (hshape.trans hid)
  | primitive hs hname hprim hid => exact .primitive hs hname hprim (hshape.trans hid)
  | applied hg hlen hargs hinst hid => exact .applied hg hlen hargs hinst (hshape.trans hid)

/-- The places hold what the task asks for. -/
def Task.Denoted (p : Program) (t : Table) : Task → List TypeId → Prop
  | .type e s, ids => ∃ id, ids = [id] ∧ Denotes p t e s id
  | .parts es s, ids => DenoteAll p t es s ids
  | .definition i, ids =>
    ∃ id y, ids = [id] ∧ t.positions[i]? = some (some y) ∧ t.shape? id = t.shape? y
  | .generic _ key, ids =>
    ∃ id y, ids = [id] ∧ t.instances.lookup key = some y ∧ t.shape? id = t.shape? y

end Typewire
