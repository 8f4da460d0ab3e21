-- JSON values from text.
-- The text is cut into tokens, and the tokens build the value from the outside in: each open
-- array and object keeps what it holds so far until its bracket closes.
import Typewire.Json.Number

namespace Typewire.Json

/-! ## Tokens -/

/-- A word of a JSON text. -/
inductive Token where
  | beginArray | endArray | beginObject | endObject | colon | comma
  | string (s : String)
  /-- A number, a truth value or `null`. -/
  | scalar (j : Json)

/-- White space between tokens. -/
def isSpace (c : Char) : Bool := c == ' ' || c == '\t' || c == '\n' || c == '\r'

/-- The character that follows a backslash alone. -/
def simpleEscape? : Char → Option Char
  | '"' => some '"'
  | '\\' => some '\\'
  | '/' => some '/'
  | 'b' => some '\x08'
  | 'f' => some '\x0c'
  | 'n' => some '\n'
  | 'r' => some '\r'
  | 't' => some '\t'
  | _ => none

/-- A character from the front of the inside of a string, written as it is or with a backslash,
and how many characters it takes. A character above `U+FFFF` may be written as a pair. -/
def firstChar? : List Char → Option (Char × Nat)
  | '\\' :: 'u' :: a :: b :: c :: d :: rest => do
    let n ← Text.hexValue? [a, b, c, d]
    if n < 0xd800 ∨ 0xe000 ≤ n then return (Char.ofNat n, 6)
    if 0xdc00 ≤ n then none
    match rest with
    | '\\' :: 'u' :: a :: b :: c :: d :: _ =>
      let m ← Text.hexValue? [a, b, c, d]
      if m < 0xdc00 ∨ 0xe000 ≤ m then none
      return (Char.ofNat (0x10000 + (n - 0xd800) * 0x400 + (m - 0xdc00)), 12)
    | _ => none
  | '\\' :: c :: _ => (simpleEscape? c).map (·, 2)
  | c :: _ => if c.toNat < 32 then none else some (c, 1)
  | [] => none

/-- Takes a string up to its closing quote, after the characters read before, latest first. -/
def takeString (before : List Char) (cs : List Char) : Option (String × List Char) :=
  match cs with
  | [] => none
  | c :: rest =>
    if c = '"' then some (String.ofList before.reverse, rest)
    else match firstChar? (c :: rest) with
      | none => none
      | some (x, length) => takeString (x :: before) (rest.drop (length - 1))
termination_by cs.length
decreasing_by simp only [List.length_drop, List.length_cons]; omega

theorem length_takeString_le {before cs : List Char} {s : String} {rest : List Char}
    (h : takeString before cs = some (s, rest)) : rest.length ≤ cs.length := by
  fun_induction takeString before cs with
  | case1 => simp at h
  | case2 before rest' =>
    simp only [Option.some.injEq, Prod.mk.injEq] at h
    simp [← h.2]
  | case3 => simp at h
  | case4 before c rest' hc x length hx ih =>
    have := ih h
    simp only [List.length_drop, List.length_cons] at *
    omega

/-- A character of a number. -/
def isNumberChar (c : Char) : Bool :=
  c.isDigit || c == '-' || c == '+' || c == '.' || c == 'e' || c == 'E'

/-- A character of a word in letters. -/
def isWordChar (c : Char) : Bool := 'a' ≤ c && c ≤ 'z'

/-- The symbol that a character is. -/
def symbol? : Char → Option Token
  | '[' => some .beginArray
  | ']' => some .endArray
  | '\x7b' => some .beginObject
  | '\x7d' => some .endObject
  | ':' => some .colon
  | ',' => some .comma
  | _ => none

/-- The value that a word in letters is. -/
def word (cs : List Char) : Except Fault Json :=
  if cs = ['n', 'u', 'l', 'l'] then .ok .null
  else if cs = ['t', 'r', 'u', 'e'] then .ok (.bool true)
  else if cs = ['f', 'a', 'l', 's', 'e'] then .ok (.bool false)
  else .error .malformed

/-- The tokens of a text, after those read before, latest first. -/
def scan (before : List Token) (cs : List Char) : Except Fault (List Token) :=
  match cs with
  | [] => .ok before.reverse
  | c :: rest =>
    if isSpace c then scan before rest
    else match symbol? c with
      | some t => scan (t :: before) rest
      | none =>
        if c = '"' then
          match _h : takeString [] rest with
          | some (s, rest') => scan (.string s :: before) rest'
          | none => .error .malformed
        else if isNumberChar c then
          match Number.ofChars (c :: rest.takeWhile isNumberChar) with
          | .ok j => scan (.scalar j :: before) (rest.dropWhile isNumberChar)
          | .error fault => .error fault
        else
          match word (c :: rest.takeWhile isWordChar) with
          | .ok j => scan (.scalar j :: before) (rest.dropWhile isWordChar)
          | .error fault => .error fault
termination_by cs.length
decreasing_by
  · simp
  · simp
  · have := length_takeString_le _h
    simp only [List.length_cons]
    omega
  · have := (List.dropWhile_sublist isNumberChar (l := rest)).length_le
    simp only [List.length_cons]
    omega
  · have := (List.dropWhile_sublist isWordChar (l := rest)).length_le
    simp only [List.length_cons]
    omega

/-! ## Building values -/

/-- An array or an object whose bracket is still open: the items so far, latest first, or the
entries so far and the key of the next value. -/
inductive Frame where
  | array (items : List Json)
  | object (entries : List (String × Json)) (key : String)

/-- What may come next. -/
inductive Next where
  | value
  /-- A value, or the end of the array that has just begun. -/
  | valueOrEnd
  | key (entries : List (String × Json))
  /-- A key, or the end of the object that has just begun. -/
  | keyOrEnd
  | colon (entries : List (String × Json)) (key : String)
  /-- A comma, or the end of the innermost array or object. -/
  | commaOrEnd
  /-- Nothing: the whole value is there. -/
  | finished (j : Json)

/-- The brackets that stand open, the innermost first, and what may come next. -/
structure Reader where
  frames : List Frame
  next : Next

namespace Reader

/-- Fewer than this many brackets may stand open. -/
def depthBound : Nat := 128

/-- The state after a whole value. -/
def deliver (j : Json) : List Frame → Reader
  | [] => ⟨[], .finished j⟩
  | .array items :: frames => ⟨.array (j :: items) :: frames, .commaOrEnd⟩
  | .object entries key :: frames =>
    ⟨.object (insertEntry key j entries) key :: frames, .commaOrEnd⟩

/-- The state after an opening bracket. -/
def openBracket (frame : Frame) (next : Next) (frames : List Frame) : Except Fault Reader :=
  if frames.length + 1 < depthBound then .ok ⟨frame :: frames, next⟩
  else .error .nestingTooDeep

/-- The state after a token where a value may stand. -/
def stepValue (frames : List Frame) : Token → Except Fault Reader
  | .beginArray => openBracket (.array []) .valueOrEnd frames
  | .beginObject => openBracket (.object [] "") .keyOrEnd frames
  | .string s => .ok (deliver (.string s) frames)
  | .scalar j => .ok (deliver j frames)
  | _ => .error .malformed

/-- The state after one more token. -/
def step (r : Reader) (t : Token) : Except Fault Reader :=
  match r.next, t, r.frames with
  | .value, t, frames => stepValue frames t
  | .valueOrEnd, .endArray, .array _ :: frames => .ok (deliver (.array []) frames)
  | .valueOrEnd, t, frames => stepValue frames t
  | .keyOrEnd, .endObject, .object _ _ :: frames => .ok (deliver (.object []) frames)
  | .keyOrEnd, .string s, frames => .ok ⟨frames, .colon [] s⟩
  | .key entries, .string s, frames => .ok ⟨frames, .colon entries s⟩
  | .colon entries key, .colon, .object _ _ :: frames =>
    .ok ⟨.object entries key :: frames, .value⟩
  | .commaOrEnd, .comma, .array items :: frames => .ok ⟨.array items :: frames, .value⟩
  | .commaOrEnd, .comma, .object entries key :: frames =>
    .ok ⟨.object entries key :: frames, .key entries⟩
  | .commaOrEnd, .endArray, .array items :: frames =>
    .ok (deliver (.array items.reverse) frames)
  | .commaOrEnd, .endObject, .object entries _ :: frames => .ok (deliver (.object entries) frames)
  | _, _, _ => .error .malformed

end Reader

/-- The JSON value that a text writes. -/
def parse (text : String) : Except Fault Json := do
  let tokens ← scan [] text.toList
  let r ← tokens.foldlM Reader.step ⟨[], .value⟩
  match r.next with
  | .finished j => return j
  | _ => throw .malformed

end Typewire.Json
