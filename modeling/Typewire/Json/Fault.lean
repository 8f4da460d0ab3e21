-- What can be wrong with a JSON text.
namespace Typewire.Json

/-- Why a text is not a JSON value that can be read. -/
inductive Fault where
  /-- The text does not follow the JSON grammar. -/
  | malformed
  /-- A number is beyond all floating-point numbers. -/
  | numberTooLarge
  /-- Too many arrays and objects stand inside each other. -/
  | nestingTooDeep
  deriving DecidableEq, Repr

/-- The fault in words. -/
def Fault.message : Fault → String
  | .malformed => "the text is no JSON value"
  | .numberTooLarge => "number out of range"
  | .nestingTooDeep => "recursion limit exceeded"

end Typewire.Json
