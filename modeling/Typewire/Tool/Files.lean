-- The files that commands read and write.
-- Commands ask for files by their paths. A directory in memory answers like a disk does:
-- a path leads through directories only, names are short, and a file is written into a
-- directory that is there.
import Typewire.Text.Utf8

namespace Typewire.Tool

/-! ## Asking for files -/

/-- Why a file is not read or written. -/
inductive FileFault where
  | notFound
  | notDirectory
  | isDirectory
  /-- A step of the path, or the path as a whole, takes more bytes than names may have. -/
  | nameTooLong
  /-- The file holds bytes that are no text. -/
  | notText
  /-- Any other reason, in the words of the system. -/
  | other (message : String)
  deriving DecidableEq, Repr

/-- The fault in words. -/
def FileFault.message : FileFault → String
  | notFound => "No such file or directory (os error 2)"
  | notDirectory => "Not a directory (os error 20)"
  | isDirectory => "Is a directory (os error 21)"
  | nameTooLong => "File name too long (os error 36)"
  | notText => "stream did not contain valid UTF-8"
  | other message => message

/-- A way to read and write files. -/
structure Files (m : Type → Type) where
  read : String → m (Except FileFault (List UInt8))
  write : String → List UInt8 → m (Except FileFault Unit)
  /-- A file, and no directory, stands at the path. -/
  isFile : String → m Bool

/-- Reads a file as text. -/
def Files.readText {m : Type → Type} [Monad m] (files : Files m) (path : String) :
    m (Except FileFault String) := do
  match ← files.read path with
  | .error fault => return .error fault
  | .ok bytes => return (Text.Utf8.decode bytes).mapError fun _ => .notText

/-! ## Paths -/

/-- The steps of a path. -/
def pathSteps (path : String) : List String := (path.splitOn "/")

/-- The bytes that one step of a path may take. -/
def maxStepBytes : Nat := 255

/-- The bytes that a path may take. -/
def maxPathBytes : Nat := 4095

/-- A path that starts at a directory, unless it starts at the root by itself. -/
def joinPath (directory path : String) : String :=
  if directory.isEmpty || path.startsWith "/" then path
  else if directory.endsWith "/" then directory ++ path
  else directory ++ "/" ++ path

/-- The directory of a path: what stands before its last step. Empty steps and steps in place
mean nothing, except at the front. -/
def parentPath (path : String) : String :=
  let isIdle (step : String) : Bool := step.isEmpty || step == "."
  match pathSteps path with
  | [] => ""
  | first :: rest =>
    match rest.reverse.dropWhile isIdle with
    | [] => ""
    | _ :: before =>
      let steps := first :: (before.dropWhile isIdle).reverse
      if steps == [""] then "/" else "/".intercalate steps

/-! ## A directory in memory -/

/-- Files by the steps of their paths. -/
structure Directory where
  files : List (List String × List UInt8)
  deriving Repr

namespace Directory

/-- What stands at a path. -/
inductive Node where
  | file (bytes : List UInt8)
  | directory
  deriving Repr

/-- What stands at some steps from the top. -/
def node? (d : Directory) (steps : List String) : Option Node :=
  match d.files.lookup steps with
  | some bytes => some (.file bytes)
  | none =>
    if steps.isEmpty || d.files.any (fun f => steps.isPrefixOf f.1) then some .directory
    else none

/-- Why nothing is found above the top, where only directories on the way up are known. -/
def faultAbove : List String → FileFault
  | [] => .isDirectory
  | step :: rest =>
    if step.isEmpty || step == "." || step == ".." then faultAbove rest
    else if maxStepBytes < step.utf8ByteSize then .nameTooLong
    else .notFound

/-- Follows steps down from a directory, and gives where they lead, from the top. A step is
looked at only in a directory that is there. -/
def follow (d : Directory) (place : List String) : List String → Except FileFault (List String)
  | [] => .ok place
  | step :: rest =>
    match d.node? place with
    | none => .error .notFound
    | some (.file _) => .error .notDirectory
    | some .directory =>
      if step.isEmpty || step == "." then d.follow place rest
      else if step == ".." then
        if place.isEmpty then .error (faultAbove rest) else d.follow place.dropLast rest
      else if maxStepBytes < step.utf8ByteSize then .error .nameTooLong
      else d.follow (place ++ [step]) rest

/-- Refuses a path that is too long as a whole, wherever it leads. -/
def checkPath (path : String) : Except FileFault Unit :=
  if maxPathBytes < path.utf8ByteSize then .error .nameTooLong else .ok ()

/-- Reads the file at a path. -/
def read (d : Directory) (path : String) : Except FileFault (List UInt8) := do
  checkPath path
  match d.node? (← d.follow [] (pathSteps path)) with
  | some (.file bytes) => return bytes
  | some .directory => throw .isDirectory
  | none => throw .notFound

/-- Writes a file at a path. A path that ends in a slash is that of a directory. -/
def write (d : Directory) (path : String) (bytes : List UInt8) : Except FileFault Directory := do
  checkPath path
  if path.endsWith "/" then
    let above := ((pathSteps path).reverse.dropWhile String.isEmpty).drop 1
    match d.node? (← d.follow [] above.reverse) with
    | some .directory => throw .isDirectory
    | some (.file _) => throw .notDirectory
    | none => throw .notFound
  let steps ← d.follow [] (pathSteps path)
  match d.node? steps, d.node? steps.dropLast with
  | some .directory, _ => throw .isDirectory
  | some (.file _), _ => return ⟨d.files.map fun f => if f.1 == steps then (steps, bytes) else f⟩
  | none, some .directory => return ⟨d.files ++ [(steps, bytes)]⟩
  | none, _ => throw .notFound

/-- A file, and no directory, stands at the path. -/
def isFile (d : Directory) (path : String) : Bool :=
  match d.read path with
  | .ok _ => true
  | .error _ => false

/-- The directory as files to work on. -/
def asFiles : Files (StateM Directory) where
  read path := return (← get).read path
  write path bytes := do
    match (← get).write path bytes with
    | .ok d => set d; return .ok ()
    | .error fault => return .error fault
  isFile path := return (← get).isFile path

end Directory

end Typewire.Tool
