-- The grammar of the type language, apart from any reader: which tokens write which type, and
-- which tokens state which definitions.
import Typewire.Language.Grammar

namespace Typewire.Language

/-! ## Lists -/

/-- The tokens write the items in order, each with a separator after it; the last one may go
without. -/
inductive Listed {α : Type} (item : α → List Token → Prop) (separator : Token → Prop) :
    List α → List Token → Prop where
  | none : Listed item separator [] []
  | last {x : α} {ts : List Token} (hx : item x ts) : Listed item separator [x] ts
  | more {x : α} {xs : List α} {s : Token} {ts rest : List Token} (hx : item x ts)
      (hs : separator s) (hxs : Listed item separator xs rest) :
      Listed item separator (x :: xs) (ts ++ s :: rest)

/-- A comma stands between the items of most lists. -/
def IsComma (t : Token) : Prop := t = .symbol .comma

/-- A comma or a bar stands between variants. -/
def IsCommaOrBar (t : Token) : Prop := t = .symbol .comma ∨ t = .symbol .pipe

/-! ## Types -/

/-- The tokens write a variant, where `type` says which tokens write a type. -/
inductive VariantWritten (type : TypeExpr → List Token → Prop) :
    String × Option TypeExpr × Option Nat → List Token → Prop where
  | plain {name : String} : VariantWritten type (name, none, none) [.name name]
  | tagged {name : String} {tag : Nat} :
      VariantWritten type (name, none, some tag)
        [.name name, .symbol .colon, .symbol .colon, .number tag]
  | payload {name : String} {t : TypeExpr} {ts : List Token} (ht : type t ts) :
      VariantWritten type (name, some t, none) (.name name :: .symbol .colon :: ts)
  | payloadTagged {name : String} {t : TypeExpr} {tag : Nat} {ts : List Token}
      (ht : type t ts) :
      VariantWritten type (name, some t, some tag)
        (.name name :: .symbol .colon :: (ts ++ [.symbol .colon, .number tag]))

/-- The tokens write a field, where `type` says which tokens write a type. -/
inductive FieldWritten (type : TypeExpr → List Token → Prop) :
    String × TypeExpr → List Token → Prop where
  | field {name : String} {t : TypeExpr} {ts : List Token} (ht : type t ts) :
      FieldWritten type (name, t) (.name name :: .symbol .colon :: ts)

/-- The tokens write the type. -/
inductive Written : TypeExpr → List Token → Prop where
  | primitive {name : String} : Written (.primitive name) [.symbol .hash, .name name]
  | index {position : Nat} : Written (.index position) [.number position]
  | name {name : String} : Written (.named name []) [.name name]
  | applied {name : String} {args : List TypeExpr} {ts : List Token} (hne : args ≠ [])
      (hargs : Listed Written IsComma args ts) :
      Written (.named name args)
        (.name name :: .symbol .leftAngle :: (ts ++ [.symbol .rightAngle]))
  | compact {inner : TypeExpr} {ts : List Token} (hinner : Written inner ts) :
      Written (.compact inner) (.symbol .atSign :: ts)
  | sequence {element : TypeExpr} {ts : List Token} (helement : Written element ts) :
      Written (.sequence element) (.symbol .leftBracket :: (ts ++ [.symbol .rightBracket]))
  | array {element : TypeExpr} {length : Nat} {ts : List Token}
      (helement : Written element ts) :
      Written (.array element length) (.symbol .leftBracket ::
        (ts ++ [.symbol .semicolon, .number length, .symbol .rightBracket]))
  | tuple {members : List TypeExpr} {ts : List Token}
      (hmembers : Listed Written IsComma members ts) :
      Written (.tuple members) (.symbol .leftParen :: (ts ++ [.symbol .rightParen]))
  | enum {variants : List (String × Option TypeExpr × Option Nat)} {ts : List Token}
      (hne : variants ≠ [])
      (hvariants : Listed (VariantWritten Written) IsCommaOrBar variants ts) :
      Written (.enum variants) (.symbol .leftAngle :: (ts ++ [.symbol .rightAngle]))
  | struct {fields : List (String × TypeExpr)} {ts : List Token}
      (hfields : Listed (FieldWritten Written) IsComma fields ts) :
      Written (.struct fields) (.symbol .leftBrace :: (ts ++ [.symbol .rightBrace]))

/-! ## Definitions -/

/-- The tokens write one parameter: a plain name. -/
def ParameterWritten (name : String) (ts : List Token) : Prop := ts = [.name name]

/-- The tokens write the name and the parameters that a definition declares: different plain
names, at least one where there are angle brackets. -/
inductive HeadWritten (name : String) : List String → List Token → Prop where
  | plain : HeadWritten name [] [.name name]
  | generic {params : List String} {ts : List Token} (hne : params ≠ [])
      (hdistinct : params.Nodup) (hparams : Listed ParameterWritten IsComma params ts) :
      HeadWritten name params
        (.name name :: .symbol .leftAngle :: (ts ++ [.symbol .rightAngle]))

/-- The tokens without their places. -/
def tokensOf (ts : List Placed) : List Token := ts.map (·.token)

/-- The tokens are the statement of the definition: a type, or a name with parameters, an equals
sign, any number of line ends and a type. -/
inductive Stated : Definition → List Placed → Prop where
  | type {body : TypeExpr} {first : Placed} {ts : List Placed}
      (hbody : Written body (tokensOf (first :: ts))) :
      Stated ⟨none, [], body, first.position.line⟩ (first :: ts)
  | named {name : String} {params : List String} {body : TypeExpr} {first equals : Placed}
      {head lineEnds ts : List Placed} (hhead : HeadWritten name params (tokensOf (first :: head)))
      (hequals : equals.token = .symbol .equals) (hlineEnds : ∀ t ∈ lineEnds, t.token = .newline)
      (hbody : Written body (tokensOf ts)) :
      Stated ⟨some name, params, body, first.position.line⟩
        (first :: head ++ equals :: (lineEnds ++ ts))

/-- A line end or a semicolon. -/
def EndsStatement (t : Placed) : Prop := t.token = .newline ∨ t.token = .symbol .semicolon

/-- The tokens are the statements of the definitions in order, with at least one line end or
semicolon between two of them and any number at either end. -/
inductive StatedAll : List Definition → List Placed → Prop where
  | none {gap : List Placed} (hgap : ∀ t ∈ gap, EndsStatement t) : StatedAll [] gap
  | last {d : Definition} {gap ts : List Placed} (hgap : ∀ t ∈ gap, EndsStatement t)
      (hd : Stated d ts) : StatedAll [d] (gap ++ ts)
  | more {d : Definition} {ds : List Definition} {s : Placed} {gap ts rest : List Placed}
      (hgap : ∀ t ∈ gap, EndsStatement t) (hd : Stated d ts) (hs : EndsStatement s)
      (hds : StatedAll ds rest) : StatedAll (d :: ds) (gap ++ (ts ++ s :: rest))

/-! ## Line ends inside brackets -/

/-- How many brackets stand open after some tokens, where `depth` stood open before them. A
closing bracket without its opening one counts for nothing. -/
def openBrackets (depth : Nat) (ts : List Placed) : Nat :=
  ts.foldl (fun depth t => match t.token with
    | .symbol s => s.depthAfter depth
    | _ => depth) depth

/-- A token at an index counts: it is no line end, or no bracket stands open before it. -/
def countsAt (depth : Nat) (ts : List Placed) (t : Placed × Nat) : Bool :=
  t.1.token != .newline || openBrackets depth (ts.take t.2) == 0

/-- The tokens without the line ends that stand inside an open bracket. -/
def withoutInnerLineEnds (ts : List Placed) : List Placed :=
  (ts.zipIdx.filter (countsAt 0 ts)).map (·.1)

end Typewire.Language
