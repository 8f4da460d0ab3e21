-- JSON values, and their text.
-- Text is written without blanks, or with one line for each item and two more spaces for each
-- level.
import Typewire.Decimal.Shortest
import Typewire.Entries
import Typewire.Json.Fault

namespace Typewire

/-- A JSON value. -/
inductive Json where
  | null
  | bool (b : Bool)
  /-- A number without fraction and exponent, between -2^63 and 2^64 - 1. -/
  | integer (n : Int)
  /-- Any other number. -/
  | float (x : Float)
  | string (s : String)
  | array (items : List Json)
  /-- Values by key, in the order of the keys, each key once. -/
  | object (entries : List (String × Json))
  deriving Inhabited

namespace Json

/-! ## Strings -/

/-- A character below `U+0020` as four hexadecimal digits. -/
def hexEscape (c : Char) : List Char :=
  '\\' :: 'u' :: '0' :: '0' :: [Nat.digitChar (c.toNat / 16), Nat.digitChar (c.toNat % 16)]

/-- A character as it stands in a string. -/
def escape (c : Char) : List Char :=
  if c = '"' then ['\\', '"']
  else if c = '\\' then ['\\', '\\']
  else if c = '\x08' then ['\\', 'b']
  else if c = '\t' then ['\\', 't']
  else if c = '\n' then ['\\', 'n']
  else if c = '\x0c' then ['\\', 'f']
  else if c = '\r' then ['\\', 'r']
  else if c.toNat < 32 then hexEscape c
  else [c]

/-- A string between quotes. -/
def quote (s : String) : String := "\"" ++ String.ofList (s.toList.flatMap escape) ++ "\""

/-! ## Styles -/

/-- Where text breaks between the items of a list: nothing at all, or a line end and two spaces
for each level. -/
inductive Style where
  | compact
  | pretty
  deriving DecidableEq, Repr

namespace Style

/-- What stands in front of an item at a level. -/
def lineStart (style : Style) (level : Nat) : String :=
  match style with
  | compact => ""
  | pretty => String.ofList ('\n' :: List.replicate (2 * level) ' ')

/-- What stands between a key and its value. -/
def colon : Style → String
  | compact => ":"
  | pretty => ": "

/-- The items between two brackets that stand at a level. -/
def bracket (style : Style) (level : Nat) (left right : String) (items : List String) : String :=
  if items.isEmpty then left ++ right
  else
    left ++ style.lineStart (level + 1) ++ ("," ++ style.lineStart (level + 1)).intercalate items
      ++ style.lineStart level ++ right

end Style

/-! ## Text -/

mutual

/-- The text of a JSON value at a level. -/
def write (style : Style) (level : Nat) : Json → String
  | null => "null"
  | bool b => if b then "true" else "false"
  | integer n => toString n
  | float x => Decimal.ofFloat x
  | string s => quote s
  | array items => style.bracket level "[" "]" (writeItems style (level + 1) items)
  | object entries =>
    style.bracket level "\x7b" "\x7d" (writeEntries style (level + 1) entries)

/-- The texts of items. -/
def writeItems (style : Style) (level : Nat) : List Json → List String
  | [] => []
  | j :: js => write style level j :: writeItems style level js

/-- The texts of keys with their values. -/
def writeEntries (style : Style) (level : Nat) :
    List (String × Json) → List String
  | [] => []
  | (k, j) :: rest =>
    (quote k ++ style.colon ++ write style level j) :: writeEntries style level rest

end

end Json

end Typewire
