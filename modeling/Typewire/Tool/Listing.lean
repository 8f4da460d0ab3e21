-- A registry as a listing: its positions, then its names, then its generic definitions.
import Typewire.Registry

namespace Typewire.Tool

/-- A number in at least four columns. -/
def fourColumns (n : Nat) : String :=
  let digits := toString n
  String.ofList (List.replicate (4 - digits.length) ' ') ++ digits

/-- What stands after the number of a position: its name, and its structure unless it is
generic. -/
def positionText (t : Table) (id : Option TypeId) (name : Option String) : String :=
  match id, name with
  | some id, some name => name ++ " = " ++ t.bodyText id
  | some id, none => t.bodyText id
  | none, some name => name ++ " (generic)"
  | none, none => "(generic)"

/-- The lines of the listing. -/
def listingLines (r : Registry) : List String :=
  let positions := r.table.positions.toList.mapIdx fun i id =>
    "  " ++ fourColumns i ++ "  " ++ positionText r.table id (r.positionName? i)
  let names := r.names.map fun (name, id) => "  " ++ name ++ " -> " ++ id.text
  ["positions:"] ++ positions
    ++ (if names.isEmpty then [] else "names:" :: names)
    ++ (if r.generics.isEmpty then [] else ["generics: " ++ ", ".intercalate r.generics])

/-- The listing of a registry. -/
def listing (r : Registry) : String := String.join ((listingLines r).map (· ++ "\n"))

end Typewire.Tool
