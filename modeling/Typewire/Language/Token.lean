-- The words of the type language.
-- A token is a name, a number below 2^64, one of fifteen symbols or the end of a line.
-- The end of the text is no token; where a message needs it, it stands as `none`.
namespace Typewire.Language

/-! ## Tokens -/

/-- The characters that stand for themselves. -/
inductive Symbol where
  | hash | atSign
  | leftBracket | rightBracket
  | leftParen | rightParen
  | leftAngle | rightAngle
  | leftBrace | rightBrace
  | semicolon | comma | colon | equals | pipe
  deriving DecidableEq, Repr, Inhabited

namespace Symbol

/-- The character that spells the symbol. -/
def char : Symbol → Char
  | hash => '#'
  | atSign => '@'
  | leftBracket => '['
  | rightBracket => ']'
  | leftParen => '('
  | rightParen => ')'
  | leftAngle => '<'
  | rightAngle => '>'
  | leftBrace => '\x7b'
  | rightBrace => '\x7d'
  | semicolon => ';'
  | comma => ','
  | colon => ':'
  | equals => '='
  | pipe => '|'

/-- Every symbol once. -/
def all : List Symbol :=
  [hash, atSign, leftBracket, rightBracket, leftParen, rightParen, leftAngle, rightAngle,
    leftBrace, rightBrace, semicolon, comma, colon, equals, pipe]

/-- The symbol that a character spells. -/
def ofChar? (c : Char) : Option Symbol := all.find? (·.char == c)

/-- A symbol that opens a bracket. -/
def isOpening : Symbol → Bool
  | leftBracket | leftParen | leftAngle | leftBrace => true
  | _ => false

/-- A symbol that closes a bracket. -/
def isClosing : Symbol → Bool
  | rightBracket | rightParen | rightAngle | rightBrace => true
  | _ => false

/-- How many brackets stand open after the symbol. -/
def depthAfter (s : Symbol) (depth : Nat) : Nat :=
  if s.isOpening then depth + 1 else if s.isClosing then depth - 1 else depth

end Symbol

/-- One word of the type language. -/
inductive Token where
  | name (text : String)
  | number (value : Nat)
  | symbol (s : Symbol)
  | newline
  deriving DecidableEq, Repr, Inhabited

/-- The token in the words of an error message. -/
def Token.describe : Token → String
  | .name text => s!"identifier `{text}`"
  | .number value => s!"number `{value}`"
  | .symbol s => s!"`{s.char}`"
  | .newline => "end of line"

/-- What stands at a place, in the words of an error message: a token, or the end of the
text. -/
def describeFound : Option Token → String
  | some t => t.describe
  | none => "end of input"

/-! ## Places -/

/-- A place in a text: its line and its column, both counted from one, in characters. -/
structure Position where
  line : Nat
  column : Nat
  deriving DecidableEq, Repr, Inhabited

namespace Position

/-- Where a text starts. -/
def start : Position := ⟨1, 1⟩

/-- The place after a character. -/
def after (p : Position) (c : Char) : Position :=
  if c = '\n' then ⟨p.line + 1, 1⟩ else ⟨p.line, p.column + 1⟩

/-- The place after a run of characters. -/
def advance (p : Position) (cs : List Char) : Position := cs.foldl after p

end Position

/-- A token and the place of its first character. -/
structure Placed where
  token : Token
  position : Position
  deriving DecidableEq, Repr, Inhabited

end Typewire.Language
