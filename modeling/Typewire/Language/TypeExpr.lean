-- Types as they are written, before any name in them is looked up.
-- Each expression has one written form, with no blank in it.
namespace Typewire.Language

/-! ## Expressions -/

/-- A type as written. -/
inductive TypeExpr where
  /-- A primitive, as `#u8`. -/
  | primitive (name : String)
  /-- The definition at a position, as `3`. -/
  | index (position : Nat)
  /-- A declared type, a primitive or a parameter by its name, with the type arguments given to
  it. -/
  | named (name : String) (args : List TypeExpr)
  /-- A compact integer, as `@u32`. -/
  | compact (inner : TypeExpr)
  /-- A list of any length, as `[u8]`. -/
  | sequence (element : TypeExpr)
  /-- A list of one length, as `[u8;32]`. -/
  | array (element : TypeExpr) (length : Nat)
  /-- Members without names, as `(u8,str)`. -/
  | tuple (members : List TypeExpr)
  /-- Variants by name, each with the payload and the tag that are written with it, as
  `<A,B:u8,C::5>`. -/
  | enum (variants : List (String × Option TypeExpr × Option Nat))
  /-- Fields by name, as `x:u8` between braces. -/
  | struct (fields : List (String × TypeExpr))
  deriving Repr, BEq, Inhabited

/-- The texts with a comma between them. -/
def commaJoined (texts : List String) : String := ",".intercalate texts

mutual

/-- The written form of a type. -/
def TypeExpr.text : TypeExpr → String
  | .primitive name => "#" ++ name
  | .index position => toString position
  | .named name [] => name
  | .named name args => name ++ "<" ++ commaJoined (TypeExpr.texts args) ++ ">"
  | .compact inner => "@" ++ inner.text
  | .sequence element => "[" ++ element.text ++ "]"
  | .array element length => "[" ++ element.text ++ ";" ++ toString length ++ "]"
  | .tuple members => "(" ++ commaJoined (TypeExpr.texts members) ++ ")"
  | .enum variants => "<" ++ commaJoined (TypeExpr.variantTexts variants) ++ ">"
  | .struct fields => "\x7b" ++ commaJoined (TypeExpr.fieldTexts fields) ++ "\x7d"

/-- The written forms of types, one by one. -/
def TypeExpr.texts : List TypeExpr → List String
  | [] => []
  | t :: ts => t.text :: TypeExpr.texts ts

/-- The written forms of variants: the name, then the payload and the tag, each after a colon;
a tag without a payload follows two colons. -/
def TypeExpr.variantTexts : List (String × Option TypeExpr × Option Nat) → List String
  | [] => []
  | (name, payload, tag) :: vs =>
    (match payload, tag with
      | some t, some n => name ++ ":" ++ t.text ++ ":" ++ toString n
      | some t, none => name ++ ":" ++ t.text
      | none, some n => name ++ "::" ++ toString n
      | none, none => name) :: TypeExpr.variantTexts vs

/-- The written forms of fields: the name and the type, with a colon between them. -/
def TypeExpr.fieldTexts : List (String × TypeExpr) → List String
  | [] => []
  | (name, t) :: fs => (name ++ ":" ++ t.text) :: TypeExpr.fieldTexts fs

end

/-! ## Definitions -/

/-- A statement of the type language: a type, perhaps with a name, perhaps over parameters. -/
structure Definition where
  name : Option String
  /-- The parameters; a definition with parameters is generic. -/
  params : List String
  body : TypeExpr
  /-- The line on which the statement starts, counted from one. -/
  line : Nat
  deriving Repr, BEq, Inhabited

namespace Definition

/-- A definition over parameters has no type of its own until it is given arguments. -/
def isGeneric (d : Definition) : Bool := !d.params.isEmpty

/-- What messages call the definition at a position: its name, with its parameters, or the
position. -/
def label (d : Definition) (position : Nat) : String :=
  match d.name with
  | some name =>
    if d.params.isEmpty then name else name ++ "<" ++ commaJoined d.params ++ ">"
  | none => "#" ++ toString position

end Definition

end Typewire.Language
