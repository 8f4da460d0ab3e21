-- TOML values, as far as settings need them, and the tables that a document builds.
-- Text, lists and tables are kept; numbers, truth values, dates and times are only known to
-- be there. A key stands once in its table, and how a table came to be decides what may still
-- be added to it.
import Typewire.Entries

namespace Typewire

/-- How a table came to be. -/
inductive Toml.Origin where
  /-- A header names it. -/
  | header
  /-- A header names a table inside it. -/
  | implied
  /-- The parts of a key name it. -/
  | dotted
  /-- It stands in one line, and takes no more keys. -/
  | inline
  deriving DecidableEq, Repr

/-- A TOML value. -/
inductive Toml where
  | text (s : String)
  /-- A number, a truth value, a date or a time. -/
  | scalar
  | list (items : List Toml)
  | table (origin : Toml.Origin) (entries : List (String × Toml))
  /-- Tables in a row under one name, the latest first. -/
  | rows (tables : List (List (String × Toml)))
  deriving Repr, Inhabited

namespace Toml

/-- The entries of a table. -/
abbrev Entries := List (String × Toml)

/-- Changes the table that a header is inside of, along the parts of its name. Tables that are
missing on the way are implied, and of tables in a row the latest is meant. -/
def within (change : Entries → Option Entries) : List String → Entries → Option Entries
  | [], entries => change entries
  | k :: ks, entries =>
    match entries.lookup k with
    | none => (within change ks []).map fun sub => insertEntry k (table .implied sub) entries
    | some (table .inline _) => none
    | some (table origin sub) =>
      (within change ks sub).map fun sub => insertEntry k (table origin sub) entries
    | some (rows (last :: before)) =>
      (within change ks last).map fun last => insertEntry k (rows (last :: before)) entries
    | some _ => none

/-- Opens the table of a header by the last part of its name. A table that was implied so far
keeps what it holds. -/
def openTable (k : String) (entries : Entries) : Option Entries :=
  match entries.lookup k with
  | none => some (insertEntry k (table .header []) entries)
  | some (table .implied sub) => some (insertEntry k (table .header sub) entries)
  | some _ => none

/-- Opens one more table in a row, by the last part of the name. -/
def openRow (k : String) (entries : Entries) : Option Entries :=
  match entries.lookup k with
  | none => some (insertEntry k (rows [[]]) entries)
  | some (rows before) => some (insertEntry k (rows ([] :: before)) entries)
  | some _ => none

/-- Adds a value under the parts of a key. The last table on the way belongs to keys with
parts. -/
def insert (item : Toml) : List String → Entries → Option Entries
  | [], _ => none
  | [k], entries => if (entries.lookup k).isSome then none else some (insertEntry k item entries)
  | k :: ks, entries =>
    let isLast := ks.length == 1
    match entries.lookup k with
    | none => (insert item ks []).map fun sub => insertEntry k (table .dotted sub) entries
    | some (table origin sub) =>
      if origin == .dotted || (origin == .implied && !isLast) then
        (insert item ks sub).map fun sub => insertEntry k (table origin sub) entries
      else none
    | some (rows (last :: before)) =>
      if isLast then none
      else (insert item ks last).map fun last => insertEntry k (rows (last :: before)) entries
    | some _ => none

end Toml

end Typewire
