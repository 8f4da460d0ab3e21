-- The program: the commands on the files of the disk.
import Typewire.Tool.Run

namespace Typewire.Tool

/-- The number of a fault of the system, which some steps give with a minus sign. -/
def faultNumber (code : UInt32) : UInt32 := if code < 0x80000000 then code else -code

/-- Why the system did not read or write a file. -/
def FileFault.ofSystem : IO.Error → FileFault
  | .noFileOrDirectory .. => .notFound
  | .inappropriateType _ code _ => if faultNumber code = 20 then .notDirectory else .isDirectory
  | e@(.invalidArgument _ code _) =>
    if faultNumber code = 36 then .nameTooLong else .other (toString e)
  | e => .other (toString e)

/-- A step on the disk. -/
def onDisk {α : Type} (step : IO α) : IO (Except FileFault α) := do
  match ← step.toBaseIO with
  | .ok a => return .ok a
  | .error e => return .error (.ofSystem e)

/-- The files of the disk. -/
def disk : Files IO where
  read path := onDisk do return (← IO.FS.readBinFile path).toList
  write path bytes := onDisk (IO.FS.writeBinFile path ⟨bytes.toArray⟩)
  isFile path := do
    match ← onDisk (IO.FS.readBinFile path) with
    | .ok _ => return true
    | .error _ => return false

end Typewire.Tool

/-- Runs the program and leaves its exit code. -/
def main (arguments : List String) : IO UInt32 := do
  let outcome ← Typewire.Tool.run Typewire.Tool.disk arguments
  (← IO.getStdout).write ⟨outcome.output.toArray⟩
  (← IO.getStderr).putStr outcome.complaint
  return UInt32.ofNat outcome.code
