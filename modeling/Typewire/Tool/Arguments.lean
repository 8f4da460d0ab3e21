-- The command line: which command is asked for, and with which options.
-- Options have a long name, and some a short one. The value stands after an equals sign or is
-- the next argument, which then does not start with a dash. The file of settings and the log
-- level may be given before the command or after it.
namespace Typewire.Tool

/-! ## Commands and options -/

/-- The forms in which bytes are written. -/
inductive OutputFormat where
  | hex
  | binary
  deriving DecidableEq, Repr

/-- The name of a form. -/
def OutputFormat.name : OutputFormat → String
  | hex => "hex"
  | binary => "binary"

/-- The form of a name. -/
def OutputFormat.ofName? (name : String) : Option OutputFormat :=
  [hex, binary].find? (·.name == name)

/-- Where the bytes to decode come from. -/
inductive Source where
  /-- Hexadecimal digits. -/
  | hex (text : String)
  | file (path : String)
  deriving DecidableEq, Repr

/-- What the program is asked to do. -/
inductive Task where
  | list (types : List String)
  | encode (types : List String) (type value : String) (format : Option OutputFormat)
      (out : Option String)
  | decode (types : List String) (type : String) (source : Source)
  | writeSettings (path : String)
  | validate
  deriving DecidableEq, Repr

/-- A command line that can be followed. -/
inductive Request where
  | version
  | run (settings : Option String) (task : Task)
  deriving DecidableEq, Repr

/-- The commands by name. -/
inductive Verb where
  | parse | encode | decode | genConfig | validate
  deriving DecidableEq, Repr

/-- The command of a name. -/
def Verb.ofName? : String → Option Verb
  | "parse" => some parse
  | "encode" => some encode
  | "decode" => some decode
  | "gen-config" => some genConfig
  | "validate" => some validate
  | _ => none

/-- The options that take a value. -/
inductive Key where
  | settings | logLevel | types | type | value | format | out | hex | input | path
  deriving DecidableEq, Repr

namespace Key

/-- The long names of the options that belong before a command, or to one. -/
def ofLong? (verb : Option Verb) (name : String) : Option Key :=
  match name, verb with
  | "config", _ => some settings
  | "log-level", _ => some logLevel
  | "types", some .parse | "types", some .encode | "types", some .decode => some types
  | "type", some .encode | "type", some .decode => some type
  | "value", some .encode => some value
  | "output", some .encode => some format
  | "output", some .genConfig => some path
  | "out", some .encode => some out
  | "hex", some .decode => some hex
  | "input", some .decode => some input
  | _, _ => none

/-- The short names of those options. -/
def ofShort? (verb : Option Verb) (name : Char) : Option Key :=
  match name, verb with
  | 'c', _ => some settings
  | 't', some .parse | 't', some .encode | 't', some .decode => some types
  | 'o', some .genConfig => some path
  | _, _ => none

/-- The option may be given more than once. -/
def isRepeatable (k : Key) : Bool := k == types

/-- The option takes the value. A path has at least one character. -/
def accepts (k : Key) (value : String) : Bool :=
  match k with
  | settings | types | out | input | path => !value.isEmpty
  | format => (OutputFormat.ofName? value).isSome
  | logLevel | type | Key.value | hex => true

end Key

/-! ## Reading -/

/-- The options given so far: those before the command, and the command with its own. -/
structure Given where
  before : List (Key × String) := []
  verb : Option Verb := none
  after : List (Key × String) := []

namespace Given

/-- The options among which the next one stands. -/
def current (g : Given) : List (Key × String) := if g.verb.isSome then g.after else g.before

/-- Adds an option with its value. -/
def add? (g : Given) (k : Key) (value : String) : Option Given :=
  if !k.accepts value || (!k.isRepeatable && (g.current.lookup k).isSome) then none
  else if g.verb.isSome then some { g with after := g.after ++ [(k, value)] }
  else some { g with before := g.before ++ [(k, value)] }

/-- The values of an option of the command. -/
def values (g : Given) (k : Key) : List String :=
  g.after.filterMap fun (l, v) => if l = k then some v else none

/-- What a command is asked to do by its options. -/
def task? (g : Given) : Verb → Option Task
  | .parse => some (.list (g.values .types))
  | .encode => do
    let type ← g.after.lookup .type
    let value ← g.after.lookup .value
    let format := (g.after.lookup .format).bind OutputFormat.ofName?
    return .encode (g.values .types) type value format (g.after.lookup .out)
  | .decode =>
    match g.after.lookup .type, g.after.lookup .hex, g.after.lookup .input with
    | some type, some text, none => some (.decode (g.values .types) type (.hex text))
    | some type, none, some path => some (.decode (g.values .types) type (.file path))
    | _, _, _ => none
  | .genConfig => some (.writeSettings ((g.after.lookup .path).getD "tyscale.toml"))
  | .validate => (g.after.lookup .settings).map fun _ => .validate

/-- The request that the options make, if none is missing or at odds with another. -/
def request? (g : Given) : Option Request := do
  let task ← g.task? (← g.verb)
  return .run (g.after.lookup .settings <|> g.before.lookup .settings) task

end Given

/-- One argument as an option: its key, and its value if that is part of the argument. -/
inductive Opt where
  | version
  | key (k : Key) (value : Option String)

/-- An argument that starts with a dash, as an option. -/
def readOption? (verb : Option Verb) (cs : List Char) : Option Opt :=
  match cs with
  | '-' :: '-' :: rest =>
    let name := String.ofList (rest.takeWhile (· != '='))
    let value := match rest.dropWhile (· != '=') with
      | '=' :: value => some (String.ofList value)
      | _ => none
    if name == "version" && verb.isNone && value.isNone then some .version
    else (Key.ofLong? verb name).map (.key · value)
  | '-' :: c :: rest =>
    let value := match rest with
      | [] => none
      | '=' :: value => some (String.ofList value)
      | value => some (String.ofList value)
    if c == 'V' && verb.isNone then some .version
    else (Key.ofShort? verb c).map (.key · value)
  | _ => none

/-- An argument can be the value of the option before it. -/
def isValue (cs : List Char) : Bool := cs.head? != some '-' || cs == ['-']

/-- Reads the arguments from left to right. -/
def readArguments (g : Given) : List String → Option Request
  | [] => g.request?
  | arg :: rest =>
    if isValue arg.toList then
      match g.verb, Verb.ofName? arg with
      | none, some verb => readArguments { g with verb := some verb } rest
      | _, _ => none
    else if arg == "--" then if rest.isEmpty then g.request? else none
    else
      match readOption? g.verb arg.toList, rest with
      | some .version, _ => some .version
      | some (.key k (some value)), rest =>
        match g.add? k value with
        | some g => readArguments g rest
        | none => none
      | some (.key k none), value :: rest =>
        if isValue value.toList then
          match g.add? k value with
          | some g => readArguments g rest
          | none => none
        else none
      | _, _ => none

/-- The request that a command line makes, if it can be followed. -/
def Request.ofArguments? (arguments : List String) : Option Request :=
  readArguments {} arguments

end Typewire.Tool
