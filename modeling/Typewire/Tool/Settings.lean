-- The settings of the program, from a TOML file.
-- Every setting has a value of its own when it is left out. Type files are named from the
-- directory of the settings.
import Typewire.Tool.Arguments
import Typewire.Tool.Failure
import Typewire.Tool.Files
import Typewire.Toml.Read

namespace Typewire.Tool

/-- What the program goes by where the command line does not say otherwise. -/
structure Settings where
  /-- The type files, which together make one registry. -/
  types : List String := []
  format : OutputFormat := .hex
  logLevel : String := "warn"
  deriving DecidableEq, Repr

/-- Why settings cannot be used. -/
inductive SettingsFault where
  | file (fault : FileFault)
  /-- The text is no TOML, or holds values of another kind. -/
  | toml
  | logLevel (level : String)
  | typeFile (path : String)
  deriving DecidableEq, Repr

namespace SettingsFault

/-- The fault in words, and what it holds. -/
def messages : SettingsFault → List String
  | file fault => ["I/O error: " ++ fault.message, fault.message]
  | toml => ["TOML parse error: the settings are not readable", "the settings are not readable"]
  | logLevel level => ["Invalid configuration: Invalid log level `" ++ level ++ "`"]
  | typeFile path => ["Invalid configuration: Type file " ++ path ++ " does not exist"]

end SettingsFault

namespace Settings

/-! ## Reading -/

/-- The text that a TOML value is. -/
def text? : Toml → Option String
  | .text s => some s
  | _ => none

/-- The texts that a TOML list holds. -/
def texts? : Toml → Option (List String)
  | .list items => items.mapM text?
  | _ => none

/-- The name that a TOML value chooses: a text, or the one key of a table that holds nothing
under it. -/
def choice? : Toml → Option String
  | .text s => some s
  | .table _ [(name, .table _ [])] => some name
  | .table _ [(name, .list [])] => some name
  | _ => none

/-- A setting as it is written, or its own value. -/
def setting? {α : Type} (entries : List (String × Toml)) (key : String) (read : Toml → Option α)
    (default : α) : Option α :=
  match entries.lookup key with
  | none => some default
  | some item => read item

/-- The settings that a TOML text writes. Keys that are no settings mean nothing. -/
def parse? (text : String) : Option Settings := do
  let entries ← Toml.parse? text
  let own : Settings := {}
  return {
    types := ← setting? entries "types" texts? own.types
    format := ← setting? entries "output" (choice? · >>= OutputFormat.ofName?) own.format
    logLevel := ← setting? entries "log_level" text? own.logLevel }

/-! ## Log levels -/

/-- The names of the levels. -/
def levels : List String := ["off", "error", "warn", "info", "debug", "trace"]

/-- A level by its name in letters of either case, or by its number. -/
def isLevel (text : String) : Bool :=
  levels.contains (text.map Char.toLower) || ["0", "1", "2", "3", "4", "5"].contains text

/-- A log level is a list of levels, each perhaps after a name and an equals sign. -/
def isLogLevel (text : String) : Bool :=
  (text.splitOn ",").all fun directive =>
    match directive.splitOn "=" with
    | [_] => true
    | [_, level] => isLevel level
    | _ => false

/-! ## Loading -/

/-- What is wrong with settings that can be read. -/
def check {m : Type → Type} [Monad m] (files : Files m) (s : Settings) :
    m (Except SettingsFault Unit) := do
  if !isLogLevel s.logLevel then return .error (.logLevel s.logLevel)
  for path in s.types do
    if !(← files.isFile path) then return .error (.typeFile path)
  return .ok ()

/-- Loads settings from a file. -/
def load {m : Type → Type} [Monad m] (files : Files m) (path : String) :
    m (Except SettingsFault Settings) := do
  match ← files.readText path with
  | .error fault => return .error (.file fault)
  | .ok text =>
    match parse? text with
    | none => return .error .toml
    | some s =>
      let s := { s with types := s.types.map (joinPath (parentPath path)) }
      return (← s.check files).map fun () => s

/-! ## An example -/

/-- A file of settings to start from. -/
def exampleText : String :=
  "# tyscale configuration\n# Generated by tyscale gen-config\n#\n"
    ++ "# types:     files concatenated into one registry (relative to this file)\n"
    ++ "# output:    default output of `encode`, \"hex\" or \"binary\"\n"
    ++ "# log_level: trace, debug, info, warn or error\n\n"
    ++ "types = [\"types/chain.tys\"]\noutput = \"hex\"\nlog_level = \"warn\"\n\n"

end Settings

end Typewire.Tool
