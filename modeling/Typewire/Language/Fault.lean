-- What can be wrong with a text of the type language, where, and in which words.
import Typewire.Language.Token
import Typewire.Language.TypeExpr
import Typewire.Text.Blank

namespace Typewire.Language

/-! ## Problems -/

/-- What the reader was looking for when it met something else. -/
inductive Wanted where
  | type
  | primitiveName
  | arrayLength
  | variantName
  | variantTag
  | fieldName
  | fieldColon
  | endOfDefinition
  | endOfExpression
  | symbol (s : Symbol)
  /-- A comma, or the symbol that closes the list. -/
  | commaOr (s : Symbol)
  deriving DecidableEq, Repr

/-- The wanted thing in words. -/
def Wanted.describe : Wanted → String
  | .type => "a type"
  | .primitiveName => "primitive name after `#`"
  | .arrayLength => "array length"
  | .variantName => "variant name"
  | .variantTag => "variant index"
  | .fieldName => "field name"
  | .fieldColon => "`:` after field name"
  | .endOfDefinition => "end of definition"
  | .endOfExpression => "end of type expression"
  | .symbol s => s!"`{s.char}`"
  | .commaOr s => s!"`,` or `{s.char}`"

/-- What is wrong with a text of the type language. -/
inductive Problem where
  /-- A letter or an underscore stands right after the digits of a number. -/
  | malformedNumber
  /-- The number is 2^64 or more. -/
  | numberTooLarge (digits : String)
  /-- The character starts no token. -/
  | unexpectedCharacter (c : Char)
  /-- One thing was wanted and another found; `none` is the end of the text. -/
  | expected (wanted : Wanted) (found : Option Token)
  /-- What stands before an equals sign is no name. -/
  | definedNotName
  | duplicateParameter (name : String)
  | parameterNotName (param : TypeExpr)
  /-- A name is followed by an empty list of type arguments. -/
  | noArguments (name : String)
  | emptyEnum
  deriving Repr

/-- The problem in words. -/
def Problem.message : Problem → String
  | .malformedNumber => "malformed number literal"
  | .numberTooLarge digits => s!"number `{digits}` is too large"
  | .unexpectedCharacter c => s!"unexpected character '{c}'"
  | .expected wanted found => s!"expected {wanted.describe}, found {describeFound found}"
  | .definedNotName => "left side of a definition must be a name"
  | .duplicateParameter name => s!"duplicate generic parameter `{name}`"
  | .parameterNotName param => s!"generic parameter `{param.text}` must be a plain identifier"
  | .noArguments name => s!"`{name}<>` needs at least one type argument"
  | .emptyEnum => "enum must declare at least one variant"

/-- A problem and the place it is reported at. -/
structure Fault where
  position : Position
  problem : Problem
  deriving Repr

/-! ## Errors -/

/-- A fault together with the line of the text that it points into. -/
structure SyntaxError where
  fault : Fault
  sourceLine : String
  deriving Repr

namespace SyntaxError

/-- The error that a fault is in a given text. -/
def ofFault (text : String) (fault : Fault) : SyntaxError where
  fault := fault
  sourceLine := String.ofList (Text.nthLine (fault.position.line - 1) text.toList)

/-- The place and the problem, and below them the line. -/
def message (e : SyntaxError) : String :=
  let line := e.fault.position.line
  let column := e.fault.position.column
  s!"line {line}:{column}: {e.fault.problem.message}\n  | {e.sourceLine}"

end SyntaxError

end Typewire.Language
