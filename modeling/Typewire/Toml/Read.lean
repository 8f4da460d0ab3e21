-- TOML documents from text.
-- A line holds a header, or a key with its value; comments and empty lines mean nothing. A
-- text that breaks a rule has no value at all.
import Typewire.Toml.Basic
import Typewire.Toml.Scalar

namespace Typewire.Toml

open Text

/-! ## Characters -/

/-- Spaces and tabs. -/
def isGap (c : Char) : Bool := c == ' ' || c == '\t'

/-- A character of a key without quotes. -/
def isKeyChar (c : Char) : Bool := c.isAlphanum || c == '-' || c == '_'

/-- A character that may stand in a line of text or in a comment. -/
def isPlain (c : Char) : Bool := c == '\t' || (32 ≤ c.toNat && c.toNat != 127)

/-- Drops spaces and tabs. -/
def skipGap (cs : List Char) : List Char := cs.dropWhile isGap

/-- The text after a comment, if one stands here. -/
def skipComment : List Char → List Char
  | '#' :: rest => rest.dropWhile isPlain
  | cs => cs

/-- The text after a line break, if one stands here. -/
def lineBreak? : List Char → Option (List Char)
  | '\n' :: rest => some rest
  | '\r' :: '\n' :: rest => some rest
  | _ => none

/-- The text after the end of a line, with a gap and a comment before it. -/
def endLine? (cs : List Char) : Option (List Char) :=
  match skipComment (skipGap cs) with
  | [] => some []
  | cs => lineBreak? cs

/-- Drops gaps, comments and line ends, of which at most `room` are looked at. -/
def skipLines : Nat → List Char → List Char
  | 0, cs => cs
  | room + 1, cs =>
    match endLine? cs with
    | some [] => []
    | some rest => skipLines room rest
    | none => skipGap cs

/-- Drops gaps and line breaks. -/
def skipBlank : List Char → List Char
  | '\r' :: '\n' :: rest => skipBlank rest
  | c :: rest => if isGap c || c == '\n' then skipBlank rest else c :: rest
  | [] => []

/-! ## Text -/

/-- The character whose number hexadecimal digits write. -/
def charOfHex? (digits : List Char) : Option Char := do
  let n ← hexValue? digits
  if n < 0xd800 ∨ (0xe000 ≤ n ∧ n < 0x110000) then return Char.ofNat n else none

/-- A character after a backslash, and the text after it. -/
def escape? : List Char → Option (Char × List Char)
  | 'b' :: rest => some ('\x08', rest)
  | 't' :: rest => some ('\t', rest)
  | 'n' :: rest => some ('\n', rest)
  | 'f' :: rest => some ('\x0c', rest)
  | 'r' :: rest => some ('\r', rest)
  | '"' :: rest => some ('"', rest)
  | '\\' :: rest => some ('\\', rest)
  | 'u' :: rest => if rest.length < 4 then none else (charOfHex? (rest.take 4)).map (·, rest.drop 4)
  | 'U' :: rest => if rest.length < 8 then none else (charOfHex? (rest.take 8)).map (·, rest.drop 8)
  | _ => none

/-- Takes text in one line up to a quote, after what was read before, latest first. -/
def takeText (quote : Char) : Nat → List Char → List Char → Option (String × List Char)
  | 0, _, _ => none
  | _, _, [] => none
  | room + 1, before, c :: rest =>
    if c = quote then some (String.ofList before.reverse, rest)
    else if c = '\\' ∧ quote = '"' then
      match escape? rest with
      | some (x, rest) => takeText quote room (x :: before) rest
      | none => none
    else if isPlain c then takeText quote room (c :: before) rest
    else none

/-- Takes text in several lines up to three quotes, after what was read before, latest first.
One or two quotes more belong to the text. Each line break is kept as a line feed, but a
backslash at the end of a line drops the break and all blanks after it. -/
def takeLines (quote : Char) : Nat → List Char → List Char → Option (String × List Char)
  | 0, _, _ => none
  | _, _, [] => none
  | room + 1, before, c :: rest =>
    if c = quote ∧ rest.take 2 = [quote, quote] then
      let more := ((rest.drop 2).takeWhile (· == quote)).length
      if more ≤ 2 then
        some (String.ofList (List.replicate more quote ++ before).reverse, rest.drop (2 + more))
      else none
    else if c = '\\' ∧ quote = '"' then
      match escape? rest with
      | some (x, rest) => takeLines quote room (x :: before) rest
      | none =>
        match lineBreak? (skipGap rest) with
        | some rest => takeLines quote room before (skipBlank rest)
        | none => none
    else if c = '\r' ∧ rest.head? = some '\n' then takeLines quote room before rest
    else if isPlain c || c == '\n' then takeLines quote room (c :: before) rest
    else none

/-- Takes text in quotes of one kind. -/
def takeQuoted? (quote : Char) (cs : List Char) : Option (String × List Char) :=
  match cs with
  | a :: b :: rest =>
    if a = quote ∧ b = quote then
      let rest := (lineBreak? rest).getD rest
      takeLines quote (rest.length + 1) [] rest
    else takeText quote (cs.length + 1) [] cs
  | _ => takeText quote (cs.length + 1) [] cs

/-! ## Limits -/

/-- Lists and tables stand inside one another at most this deep, and a key has at most as many
parts. -/
def maxDepth : Nat := 79

/-! ## Keys -/

/-- Takes one part of a key. -/
def takeKeyPart? : List Char → Option (String × List Char)
  | '"' :: rest => takeText '"' (rest.length + 1) [] rest
  | '\'' :: rest => takeText '\'' (rest.length + 1) [] rest
  | cs =>
    match cs.takeWhile isKeyChar with
    | [] => none
    | name => some (String.ofList name, cs.dropWhile isKeyChar)

/-- Takes parts of a key with points between them, of which at most `count` are allowed. -/
def takeKeyParts? : Nat → List Char → Option (List String × List Char)
  | 0, _ => none
  | count + 1, cs => do
    let (part, rest) ← takeKeyPart? (skipGap cs)
    match skipGap rest with
    | '.' :: rest => do
      let (parts, rest) ← takeKeyParts? count rest
      return (part :: parts, rest)
    | rest => return ([part], rest)

/-- Takes a key. -/
def takeKey? (cs : List Char) : Option (List String × List Char) := takeKeyParts? maxDepth cs

/-! ## Values -/

mutual

/-- Takes a value, in which lists and tables stand at most `depth` deep. Each character takes
at most one unit of `room`. -/
def takeValue? : Nat → Nat → List Char → Option (Toml × List Char)
  | 0, _, _ => none
  | room + 1, depth, cs =>
    match cs, depth with
    | '"' :: rest, _ => (takeQuoted? '"' rest).map fun (s, rest) => (text s, rest)
    | '\'' :: rest, _ => (takeQuoted? '\'' rest).map fun (s, rest) => (text s, rest)
    | '[' :: rest, depth + 1 =>
      (takeItems? room depth rest).map fun (items, rest) => (list items, rest)
    | '\x7b' :: rest, depth + 1 =>
      match skipGap rest with
      | '\x7d' :: rest => some (table .inline [], rest)
      | rest =>
        (takeEntries? room depth [] rest).map fun (entries, rest) => (table .inline entries, rest)
    | cs, _ =>
      let word := scalarChars cs
      if isScalar word then some (scalar, cs.drop word.length) else none

/-- Takes the items of a list up to its bracket. -/
def takeItems? : Nat → Nat → List Char → Option (List Toml × List Char)
  | 0, _, _ => none
  | room + 1, depth, cs =>
    match skipLines cs.length cs with
    | ']' :: rest => some ([], rest)
    | cs => do
      let (item, rest) ← takeValue? room depth cs
      match skipLines rest.length rest with
      | ',' :: rest => do
        let (items, rest) ← takeItems? room depth rest
        return (item :: items, rest)
      | ']' :: rest => return ([item], rest)
      | _ => none

/-- Takes the entries of a table in one line up to its brace. -/
def takeEntries? : Nat → Nat → Entries → List Char → Option (Entries × List Char)
  | 0, _, _, _ => none
  | room + 1, depth, entries, cs => do
    let (key, rest) ← takeKey? cs
    match rest with
    | '=' :: rest => do
      let (item, rest) ← takeValue? room depth (skipGap rest)
      let entries ← insert item key entries
      match skipGap rest with
      | ',' :: rest => takeEntries? room depth entries rest
      | '\x7d' :: rest => return (entries, rest)
      | _ => none
    | _ => none

end

/-! ## Documents -/

/-- A document as far as it is read: its entries, and the name of the table that is open. -/
structure Document where
  entries : Entries := []
  path : List String := []

namespace Document

/-- Opens a table by its name, where `openLast` knows what to do with the last part. -/
def enter? (d : Document) (path : List String) (openLast : String → Entries → Option Entries) :
    Option Document := do
  return ⟨← within (openLast (← path.getLast?)) path.dropLast d.entries, path⟩

/-- Reads a header after its first bracket. -/
def addHeader? (d : Document) (cs : List Char) : Option (Document × List Char) := do
  let (isRow, cs) := match cs with
    | '[' :: cs => (true, cs)
    | cs => (false, cs)
  let (path, rest) ← takeKey? cs
  match isRow, rest with
  | true, ']' :: ']' :: rest => return (← d.enter? path openRow, rest)
  | false, ']' :: rest => return (← d.enter? path openTable, rest)
  | _, _ => none

/-- Reads a key and its value. -/
def addEntry? (d : Document) (cs : List Char) : Option (Document × List Char) := do
  let (key, rest) ← takeKey? cs
  match rest with
  | '=' :: rest => do
    let rest := skipGap rest
    let (item, rest) ← takeValue? (rest.length + 1) maxDepth rest
    return ({ d with entries := ← within (insert item key) d.path d.entries }, rest)
  | _ => none

/-- Reads lines to the end, of which at most `room` hold something. -/
def read? : Nat → Document → List Char → Option Document
  | 0, _, _ => none
  | room + 1, d, cs => do
    match skipLines cs.length cs with
    | [] => return d
    | cs =>
      let (d, rest) ← match cs with
        | '[' :: rest => d.addHeader? rest
        | cs => d.addEntry? cs
      read? room d (← endLine? rest)

end Document

/-- A text may start with a byte order mark, which means nothing. -/
def skipMark : List Char → List Char
  | '\ufeff' :: rest => rest
  | cs => cs

/-- The entries of a TOML text, if it is one. -/
def parse? (text : String) : Option Entries :=
  let cs := skipMark text.toList
  (Document.read? (cs.length + 1) {} cs).map (·.entries)

end Typewire.Toml
