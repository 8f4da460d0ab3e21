-- The grammar of the type language, read from tokens.
-- Every reader takes the tokens from the front and gives what it read together with the
-- tokens that stand after it, which are fewer. A reader that runs onto the end of the tokens
-- reports what ended them.
import Typewire.Language.Tokens

namespace Typewire.Language

/-! ## Readers -/

/-- A value read from the front of some tokens, and the tokens after it. -/
structure Reading (α : Type) (input : List Placed) where
  value : α
  rest : List Placed
  shorter : rest.length < input.length

namespace Reading

/-- The same reading, as one of more tokens. -/
def longer {α : Type} {short input : List Placed} (r : Reading α short)
    (h : short.length ≤ input.length) : Reading α input :=
  ⟨r.value, r.rest, Nat.lt_of_lt_of_le r.shorter h⟩

/-- The same reading with another value. -/
def map {α β : Type} {input : List Placed} (f : α → β) (r : Reading α input) :
    Reading β input :=
  ⟨f r.value, r.rest, r.shorter⟩

end Reading

/-- What reading gives: a reading or the first fault. -/
abbrev Outcome (α : Type) (input : List Placed) := Except Fault (Reading α input)

/-- A reader for the types inside a type: it takes any tokens fewer than `bound`. -/
abbrev TypeReader (bound : Nat) :=
  (ts : List Placed) → ts.length < bound → Outcome TypeExpr ts

namespace Ending

/-- The fault to report at the front of the tokens; at their end a broken text is reported
before all else. -/
def faultAt (e : Ending) (problem : Option Token → Problem) : List Placed → Fault
  | t :: _ => ⟨t.position, problem (some t.token)⟩
  | [] =>
    match e with
    | .finished p => ⟨p, problem none⟩
    | .broken fault => fault

/-- The fault of meeting something else than what was wanted. -/
def unexpected (e : Ending) (wanted : Wanted) (ts : List Placed) : Fault :=
  e.faultAt (.expected wanted) ts

end Ending

/-- Reads one symbol. -/
def readSymbol (e : Ending) (s : Symbol) (wanted : Wanted) : (ts : List Placed) → Outcome Unit ts
  | [] => .error (e.unexpected wanted [])
  | t :: rest =>
    if t.token = .symbol s then .ok ⟨(), rest, by simp⟩
    else .error (e.unexpected wanted (t :: rest))

/-- Reads one name. -/
def readName (e : Ending) (wanted : Wanted) : (ts : List Placed) → Outcome String ts
  | [] => .error (e.unexpected wanted [])
  | t :: rest =>
    match t.token with
    | .name text => .ok ⟨text, rest, by simp⟩
    | _ => .error (e.unexpected wanted (t :: rest))

/-- Reads one number. -/
def readNumber (e : Ending) (wanted : Wanted) : (ts : List Placed) → Outcome Nat ts
  | [] => .error (e.unexpected wanted [])
  | t :: rest =>
    match t.token with
    | .number value => .ok ⟨value, rest, by simp⟩
    | _ => .error (e.unexpected wanted (t :: rest))

/-- The front token is the given symbol. -/
def startsWith (s : Symbol) : List Placed → Bool
  | t :: _ => t.token == .symbol s
  | [] => false

/-! ## Lists -/

/-- How the items of a list stand: the symbol that closes it, and whether a bar separates items
as a comma does. -/
structure ListStyle where
  close : Symbol
  allowsPipe : Bool := false

namespace ListStyle

def arguments : ListStyle := ⟨.rightAngle, false⟩
def tuple : ListStyle := ⟨.rightParen, false⟩
def variants : ListStyle := ⟨.rightAngle, true⟩
def fields : ListStyle := ⟨.rightBrace, false⟩

/-- A comma separates items everywhere, a bar where it is allowed. -/
def separates (style : ListStyle) (t : Token) : Bool :=
  t == .symbol .comma || (style.allowsPipe && t == .symbol .pipe)

end ListStyle

/-- Reads items up to and with the closing symbol. The last item may have a separator after
it. -/
def readItems {α : Type} (e : Ending) (style : ListStyle) (bound : Nat)
    (item : (ts : List Placed) → ts.length < bound → Outcome α ts)
    (ts : List Placed) (h : ts.length < bound) : Outcome (List α) ts :=
  match ts with
  | [] => .error (e.unexpected (.symbol style.close) [])
  | t :: rest =>
    if t.token = .symbol style.close then .ok ⟨[], rest, by simp⟩
    else
      match item (t :: rest) h with
      | .error fault => .error fault
      | .ok ⟨x, after, hx⟩ =>
        match after with
        | [] => .error (e.unexpected (.commaOr style.close) [])
        | s :: later =>
          if style.separates s.token then
            match readItems e style bound item later
                (by simp only [List.length_cons] at hx h; omega) with
            | .error fault => .error fault
            | .ok ⟨xs, last, hl⟩ =>
              .ok ⟨x :: xs, last, by simp only [List.length_cons] at hx hl ⊢; omega⟩
          else if s.token = .symbol style.close then
            .ok ⟨[x], later, by simp only [List.length_cons] at hx ⊢; omega⟩
          else .error (e.unexpected (.commaOr style.close) (s :: later))
termination_by ts.length
decreasing_by simp only [List.length_cons] at hx ⊢; omega

/-! ## Variants and fields -/

/-- Reads a variant: a name, then perhaps a colon with a payload, and a colon with a tag; two
colons in a row leave the payload out. -/
def readVariant (e : Ending) {bound : Nat} (type : TypeReader bound) (ts : List Placed)
    (h : ts.length < bound) : Outcome (String × Option TypeExpr × Option Nat) ts := do
  let ⟨name, ts₁, h₁⟩ ← readName e .variantName ts
  if startsWith .colon ts₁ then
    let ⟨_, ts₂, h₂⟩ ← readSymbol e .colon .type ts₁
    if startsWith .colon ts₂ then
      let ⟨_, ts₃, h₃⟩ ← readSymbol e .colon .type ts₂
      let ⟨tag, ts₄, h₄⟩ ← readNumber e .variantTag ts₃
      return ⟨(name, none, some tag), ts₄, by omega⟩
    else
      let ⟨payload, ts₃, h₃⟩ ← type ts₂ (by omega)
      if startsWith .colon ts₃ then
        let ⟨_, ts₄, h₄⟩ ← readSymbol e .colon .type ts₃
        let ⟨tag, ts₅, h₅⟩ ← readNumber e .variantTag ts₄
        return ⟨(name, some payload, some tag), ts₅, by omega⟩
      else return ⟨(name, some payload, none), ts₃, by omega⟩
  else return ⟨(name, none, none), ts₁, h₁⟩

/-- Reads a field: a name, a colon and a type. -/
def readField (e : Ending) {bound : Nat} (type : TypeReader bound) (ts : List Placed)
    (h : ts.length < bound) : Outcome (String × TypeExpr) ts := do
  let ⟨name, ts₁, h₁⟩ ← readName e .fieldName ts
  let ⟨_, ts₂, h₂⟩ ← readSymbol e .colon .fieldColon ts₁
  let ⟨t, ts₃, h₃⟩ ← type ts₂ (by omega)
  return ⟨(name, t), ts₃, by omega⟩

/-! ## Types -/

/-- Reads a type whose inner types are read by `type`. -/
def readTypeWith (e : Ending) (ts : List Placed) (type : TypeReader ts.length) :
    Outcome TypeExpr ts :=
  match ts with
  | [] => .error (e.unexpected .type [])
  | t :: rest =>
    have shorter : rest.length < (t :: rest).length := by simp
    match t.token with
    | .number position => .ok ⟨.index position, rest, shorter⟩
    | .name name =>
      match rest with
      | s :: after =>
        if s.token = .symbol .leftAngle then do
          let ⟨args, rest, h⟩ ←
            readItems e .arguments _ type after (by simp only [List.length_cons]; omega)
          if args.isEmpty then throw (e.faultAt (fun _ => .noArguments name) rest)
          return ⟨.named name args, rest, by simp only [List.length_cons]; omega⟩
        else .ok ⟨.named name [], s :: after, shorter⟩
      | [] => .ok ⟨.named name [], [], shorter⟩
    | .symbol .hash => do
      let ⟨name, rest, h⟩ ← readName e .primitiveName rest
      return ⟨.primitive name, rest, by omega⟩
    | .symbol .atSign => do
      let ⟨inner, rest, h⟩ ← type rest shorter
      return ⟨.compact inner, rest, by omega⟩
    | .symbol .leftBracket => do
      let ⟨element, ts₁, h₁⟩ ← type rest shorter
      if startsWith .semicolon ts₁ then
        let ⟨_, ts₂, h₂⟩ ← readSymbol e .semicolon .type ts₁
        let ⟨length, ts₃, h₃⟩ ← readNumber e .arrayLength ts₂
        let ⟨_, ts₄, h₄⟩ ← readSymbol e .rightBracket (.symbol .rightBracket) ts₃
        return ⟨.array element length, ts₄, by omega⟩
      else
        let ⟨_, ts₂, h₂⟩ ← readSymbol e .rightBracket (.symbol .rightBracket) ts₁
        return ⟨.sequence element, ts₂, by omega⟩
    | .symbol .leftParen => do
      let ⟨members, rest, h⟩ ← readItems e .tuple _ type rest shorter
      return ⟨.tuple members, rest, by omega⟩
    | .symbol .leftAngle => do
      let ⟨variants, rest, h⟩ ← readItems e .variants _ (readVariant e type) rest shorter
      if variants.isEmpty then
        match rest, e with
        | [], .broken fault => throw fault
        | _, _ => throw ⟨t.position, .emptyEnum⟩
      return ⟨.enum variants, rest, by omega⟩
    | .symbol .leftBrace => do
      let ⟨fields, rest, h⟩ ← readItems e .fields _ (readField e type) rest shorter
      return ⟨.struct fields, rest, by omega⟩
    | _ => .error (e.unexpected .type (t :: rest))

/-- Reads a type. -/
def readType (e : Ending) (ts : List Placed) : Outcome TypeExpr ts :=
  readTypeWith e ts (fun inner _ => readType e inner)
termination_by ts.length

/-! ## Definitions -/

/-- A token that ends a statement. -/
def isSeparator (t : Placed) : Bool := t.token == .newline || t.token == .symbol .semicolon

/-- The parameters that the type arguments of a defined name declare: plain names, each once. -/
def parametersOf (seen : List String) : List TypeExpr → Except Problem (List String)
  | [] => .ok seen.reverse
  | .named name [] :: rest =>
    if name ∈ seen then .error (.duplicateParameter name) else parametersOf (name :: seen) rest
  | other :: _ => .error (.parameterNotName other)

/-- The name and the parameters that a type declares when it stands before an equals sign. -/
def headOf : TypeExpr → Except Problem (String × List String)
  | .named name args => (parametersOf [] args).map (name, ·)
  | _ => .error .definedNotName

/-- Reads a definition that starts at `start`: a type, or a head, an equals sign and a type that
may stand on a later line. -/
def readDefinition (e : Ending) (start : Position) (ts : List Placed) :
    Outcome Definition ts := do
  let ⟨head, ts₁, h₁⟩ ← readType e ts
  if startsWith .equals ts₁ then
    let (name, params) ← (headOf head).mapError (⟨start, ·⟩)
    let ⟨_, ts₂, h₂⟩ ← readSymbol e .equals .type ts₁
    let ⟨body, ts₃, h₃⟩ ← readType e (ts₂.dropWhile (·.token == .newline))
    have h₄ := (List.dropWhile_sublist (fun t : Placed => t.token == .newline) (l := ts₂)).length_le
    return ⟨⟨some name, params, body, start.line⟩, ts₃, by omega⟩
  else return ⟨⟨none, [], head, start.line⟩, ts₁, h₁⟩

/-- Reads definitions to the end, with line ends and semicolons between them. -/
def readDefinitions (e : Ending) (ts : List Placed) : Except Fault (List Definition) :=
  match _h : ts.dropWhile isSeparator with
  | [] =>
    match e with
    | .finished _ => .ok []
    | .broken fault => .error fault
  | t :: rest => do
    let ⟨d, after, _⟩ ← readDefinition e t.position (t :: rest)
    match after with
    | s :: _ => unless isSeparator s do throw (e.unexpected .endOfDefinition after)
    | [] => pure ()
    return d :: (← readDefinitions e after)
termination_by ts.length
decreasing_by
  have h := (List.dropWhile_sublist isSeparator (l := ts)).length_le
  rw [_h] at h
  simp only [List.length_cons] at *
  omega

/-- The definitions of a text, in order. -/
def parseDefinitions (text : String) : Except SyntaxError (List Definition) :=
  let tokens := Tokens.ofText text
  (readDefinitions tokens.ending (Tokens.significant 0 tokens.placed)).mapError
    (SyntaxError.ofFault text)

/-- Reads one type to the end, with line ends and semicolons around it. -/
def readOnlyType (e : Ending) (ts : List Placed) : Except Fault TypeExpr := do
  let ⟨t, after, _⟩ ← readType e (ts.dropWhile isSeparator)
  match after.dropWhile isSeparator, e with
  | [], .finished _ => return t
  | rest, e => throw (e.unexpected .endOfExpression rest)

/-- The type that a text writes. -/
def parseTypeExpr (text : String) : Except SyntaxError TypeExpr :=
  let tokens := Tokens.ofText text
  (readOnlyType tokens.ending (Tokens.significant 0 tokens.placed)).mapError
    (SyntaxError.ofFault text)

end Typewire.Language
