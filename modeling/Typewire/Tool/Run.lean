-- The commands: what each writes, and when it fails.
import Typewire.Tool.Listing
import Typewire.Tool.Settings
import Typewire.Tool.Transcode

namespace Typewire.Tool

/-! ## Outcomes -/

/-- What a command leaves behind: its exit code, what it writes, and what it complains about. -/
structure Outcome where
  code : Nat
  output : List UInt8
  complaint : String
  deriving DecidableEq, Repr

namespace Outcome

/-- A command that did what was asked. -/
def success (output : List UInt8) : Outcome := ⟨0, output, ""⟩

/-- A command that did it and says so. -/
def say (text : String) : Outcome := success (Text.Utf8.encode text)

/-- A command line that cannot be followed. -/
def unusable : Outcome := ⟨2, [], ""⟩

/-- A command that failed, with its complaint. -/
def failed (complaint : String) : Outcome := ⟨1, [], complaint⟩

end Outcome

/-- A step of a command that works on files. -/
abbrev Working (m : Type → Type) := ExceptT Failure m

section

variable {m : Type → Type} [Monad m] (files : Files m)

/-! ## Steps -/

/-- A step on files as part of a command. -/
def onFiles {α : Type} (doing : Option String) (step : m (Except FileFault α)) : Working m α :=
  ExceptT.mk do
    match ← step with
    | .ok a => return .ok a
    | .error fault =>
      let f := Failure.ofMessage fault.message
      return .error (match doing with
        | some doing => f.during doing
        | none => f)

/-- The type files as one text, each with a line end after it. -/
def readTypes : List String → Working m String
  | [] => return ""
  | path :: paths => do
    let text ← onFiles ("reading type file " ++ path) (files.readText path)
    return text ++ "\n" ++ (← readTypes paths)

/-- The registry of some type files. -/
def loadRegistry (paths : List String) : Working m Registry := do
  match Registry.parse (← readTypes files paths) with
  | .ok r => return r
  | .error e => throw (Failure.during "resolving type definitions" ⟨e.messages⟩)

/-- The settings to go by: those of a file, if one is named. -/
def loadSettings : Option String → Working m Settings
  | none => return {}
  | some path => ExceptT.mk do
    match ← Settings.load files path with
    | .ok s => return .ok s
    | .error fault =>
      return .error (Failure.during ("loading configuration " ++ path) ⟨fault.messages⟩)

/-- Runs a command on a registry that is not kept. -/
def onRegistry {α : Type} (r : Registry) (command : Command α) : Working m α :=
  ExceptT.mk (pure (command.run.run r).1)

/-! ## Commands -/

/-- Bytes in one of their forms. -/
def rendered (format : OutputFormat) (bytes : List UInt8) : List UInt8 :=
  match format with
  | .hex => Text.Utf8.encode ("0x" ++ Text.Hex.encode bytes ++ "\n")
  | .binary => bytes

/-- What there is to say about settings in order. -/
def validText (s : Settings) (r : Registry) : String :=
  let positions := r.table.positions.size
  let names := r.names.length
  let generics := r.generics.length
  "Configuration valid!\n\nType files: " ++ toString s.types.length ++ "\n"
    ++ String.join (s.types.map fun path => "  " ++ path ++ "\n")
    ++ s!"Registry: {positions} position(s), {names} name(s), {generics} generic(s)\n"

/-- Does what is asked for, by some settings. -/
def perform (s : Settings) : Task → Working m Outcome
  | .list types => do
    return .say (listing (← loadRegistry files (s.types ++ types)))
  | .encode types type value format out => do
    let r ← loadRegistry files (s.types ++ types)
    let bytes := rendered (format.getD s.format) (← onRegistry r (encode type value))
    match out with
    | none => return .success bytes
    | some path => do
      onFiles ("writing " ++ path) (files.write path bytes)
      return .success []
  | .decode types type source => do
    let r ← loadRegistry files (s.types ++ types)
    let bytes ← match source with
      | .hex text => liftExcept (bytesOfHex text)
      | .file path => onFiles ("reading " ++ path) (files.read path)
    return .say ((← onRegistry r (decode type bytes)) ++ "\n")
  | .writeSettings path => do
    onFiles none (files.write path (Text.Utf8.encode Settings.exampleText))
    return .say ("Generated configuration file: " ++ path ++ "\n")
  | .validate => ExceptT.mk do
    match ← (loadRegistry files s.types).run with
    | .ok r => return .ok (.say (validText s r))
    | .error f => return .ok (.failed ("Type files invalid: " ++ f.inline ++ "\n"))
where
  /-- An outcome as a step. -/
  liftExcept (r : Except Failure (List UInt8)) : Working m (List UInt8) := ExceptT.mk (pure r)

/-- What the program calls itself, and its version. -/
def versionText : String := "tyscale 1.0.10\n"

/-- Runs the program on its arguments. -/
def run (arguments : List String) : m Outcome := do
  match Request.ofArguments? arguments with
  | none => return .unusable
  | some .version => return .say versionText
  | some (.run settings task) =>
    let work : Working m Outcome := do perform files (← loadSettings files settings) task
    match ← work.run with
    | .ok outcome => return outcome
    | .error f => return .failed f.report

end

end Typewire.Tool
