-- A text of the type language as its tokens.
-- White space other than the line feed, and comments from two slashes to the end of the line,
-- separate tokens and mean nothing. The tokens stop at the end of the text or at the first
-- character that no token can hold.
import Typewire.Language.Fault
import Typewire.Text.Alphabetic
import Typewire.Text.Digits
import Typewire.Text.Numeric

namespace Typewire.Language

open Typewire.Text

/-! ## Characters -/

/-- A name starts with a letter or an underscore. -/
def startsName (c : Char) : Bool := isAlphabetic c || c == '_'

/-- A name goes on with letters, number characters and underscores. -/
def continuesName (c : Char) : Bool := isAlphabetic c || isNumeric c || c == '_'

/-- White space that separates tokens: all but the line feed. -/
def isGap (c : Char) : Bool := c != '\n' && isBlank c

/-- Numbers of the language stay below this bound. -/
def numberBound : Nat := Nat.pow 2 64

/-! ## Gaps -/

/-- The characters of the gap in front of the next token. -/
def gap : List Char → List Char
  | '/' :: '/' :: rest => '/' :: '/' :: rest.takeWhile (· != '\n')
  | c :: rest => if isGap c then c :: gap rest else []
  | [] => []

/-- What stands after that gap. -/
def afterGap : List Char → List Char
  | '/' :: '/' :: rest => rest.dropWhile (· != '\n')
  | c :: rest => if isGap c then afterGap rest else c :: rest
  | [] => []

theorem gap_append_afterGap (cs : List Char) : gap cs ++ afterGap cs = cs := by
  fun_induction gap cs with
  | case1 rest => simp [afterGap]
  | case2 c rest _ hc ih => unfold afterGap; split <;> simp_all
  | case3 c rest _ hc => unfold afterGap; split <;> simp_all
  | case4 => rfl

theorem length_afterGap_le (cs : List Char) : (afterGap cs).length ≤ cs.length := by
  have h := congrArg List.length (gap_append_afterGap cs)
  rw [List.length_append] at h
  omega

/-! ## Lexemes -/

/-- The characters of a token, as they stand at the front of a text. -/
structure Lexeme where
  token : Token
  /-- How many characters of the text it takes. -/
  length : Nat

/-- The token at the front of a text that starts with `c`, or the problem with it. -/
def firstLexeme (c : Char) (rest : List Char) : Except Problem Lexeme :=
  if c.isDigit then
    let digits := c :: rest.takeWhile Char.isDigit
    if (rest.dropWhile Char.isDigit).head?.any startsName then .error .malformedNumber
    else if decimalValue digits < numberBound then
      .ok ⟨.number (decimalValue digits), digits.length⟩
    else .error (.numberTooLarge (String.ofList digits))
  else if startsName c then
    let name := c :: rest.takeWhile continuesName
    .ok ⟨.name (String.ofList name), name.length⟩
  else if c = '\n' then .ok ⟨.newline, 1⟩
  else match Symbol.ofChar? c with
    | some s => .ok ⟨.symbol s, 1⟩
    | none => .error (.unexpectedCharacter c)

/-! ## Texts -/

/-- Where the tokens of a text stop. -/
inductive Ending where
  /-- At the end of the text. -/
  | finished (position : Position)
  /-- At characters that are no token. -/
  | broken (fault : Fault)

/-- The tokens of a text up to its end or its first fault. -/
structure Tokens where
  placed : List Placed
  ending : Ending

namespace Tokens

/-- Scans the characters that stand at a place. -/
def scan (p : Position) (cs : List Char) : Tokens :=
  let p := p.advance (gap cs)
  match _h : afterGap cs with
  | [] => ⟨[], .finished p⟩
  | c :: rest =>
    match firstLexeme c rest with
    | .error problem => ⟨[], .broken ⟨p, problem⟩⟩
    | .ok lexeme =>
      let more := scan (p.advance ((c :: rest).take lexeme.length)) (rest.drop (lexeme.length - 1))
      ⟨⟨lexeme.token, p⟩ :: more.placed, more.ending⟩
termination_by cs.length
decreasing_by
  have h₁ := length_afterGap_le cs
  rw [_h] at h₁
  simp only [List.length_cons, List.length_drop] at h₁ ⊢
  omega

/-- The tokens of a text. -/
def ofText (text : String) : Tokens := scan .start text.toList

/-! ## Line ends inside brackets -/

/-- The tokens that count when `depth` brackets stand open: a line end inside a bracket means
nothing. -/
def significant : Nat → List Placed → List Placed
  | _, [] => []
  | depth, t :: ts =>
    match t.token with
    | .newline => if depth = 0 then t :: significant depth ts else significant depth ts
    | .symbol s => t :: significant (s.depthAfter depth) ts
    | _ => t :: significant depth ts

end Tokens

end Typewire.Language
