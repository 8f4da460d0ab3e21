-- Why a command fails, from the outside in.
-- The first message says what was being done, and each later one says what was wrong with the
-- one before it.
import Typewire.Registry

namespace Typewire

/-! ## Causes -/

/-- The messages of an error and of what it holds. -/
def ResolveError.messages : ResolveError → List String
  | .inDefinition line label cause => (inDefinition line label cause).message :: cause.messages
  | e => [e.message]

/-- The messages of an error and of what it holds. -/
def Error.messages : Error → List String
  | .grammar e => [(grammar e).message, e.message]
  | .resolve e => (resolve e).message :: e.messages
  | .codec e => [(codec e).message, e.message]

/-! ## Failures -/

namespace Tool

/-- The messages of a failure, the outermost first. -/
structure Failure where
  messages : List String
  deriving DecidableEq, Repr

namespace Failure

/-- A failure in one message. -/
def ofMessage (message : String) : Failure := ⟨[message]⟩

/-- The failure, with what was being done in front. -/
def during (doing : String) (f : Failure) : Failure := ⟨doing :: f.messages⟩

/-- The failure in one line. -/
def inline (f : Failure) : String := ": ".intercalate f.messages

/-- The text with its later lines moved to the right. -/
def indentLater (columns : Nat) (text : String) : String :=
  String.ofList (text.toList.flatMap fun c =>
    if c = '\n' then '\n' :: List.replicate columns ' ' else [c])

/-- The causes below the first message, numbered if there are several. -/
def causes : List String → String
  | [] => ""
  | [cause] => "\n\nCaused by:\n    " ++ indentLater 4 cause
  | several =>
    "\n\nCaused by:" ++ String.join (several.mapIdx fun i cause =>
      "\n" ++ String.ofList (List.replicate (5 - (toString i).length) ' ') ++ toString i ++ ": "
        ++ indentLater 7 cause)

/-- The failure as a report of several lines. -/
def report (f : Failure) : String :=
  match f.messages with
  | [] => "Error: \n"
  | first :: rest => "Error: " ++ first ++ causes rest ++ "\n"

end Failure

end Tool

end Typewire
