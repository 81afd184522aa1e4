import Clix.ToMathlib.Except

/-! # Errors and their texts -/

namespace Clix

inductive ClixError where
  | usage (text : String)
  | io (text : String)
  | json (text : String)
  | grantBusy (tool : String)
  | toolExit (code : Int)
  | unreachable
  | capacity (text : String)
  | protocol (text : String)
  | noDaemon
  | noSuchTool (tool : String)
  | notAdded (tool body : String)
  | notAllowed (tool origin body : String)
  | expired (tool body : String)
  | notAddedAtTime (tool body : String)
  | pinConflict (path a b : String)
  deriving DecidableEq, Repr

namespace ClixError

/-- The text of an error, as users and job reasons show it. -/
def text : ClixError → String
  | usage text | io text | json text | capacity text | protocol text => text
  | grantBusy tool => tool ++ " already has a reserved single-use run"
  | toolExit code => "command exited " ++ toString code
  | unreachable => "machine is unreachable"
  | noDaemon => "Clix is not running. clix install"
  | noSuchTool tool => "no such tool: " ++ tool
  | notAdded tool body => tool ++ " is not added on " ++ body
  | notAllowed tool origin body => origin ++ " is not allowed to use " ++ tool ++ " on " ++ body
  | expired tool body => tool ++ " grant on " ++ body ++ " has expired"
  | notAddedAtTime tool body => tool ++ " is not added on " ++ body ++ " at this time"
  | pinConflict path a b =>
    "pin conflict: " ++ path ++ " (" ++ a ++ " and " ++ b ++ " both wrote). Not merging."

/-- A missing or insufficient grant, which the owner can approve. -/
def isRequestable : ClixError → Bool
  | notAdded .. | notAllowed .. | expired .. | notAddedAtTime .. => true
  | _ => false

def isCapacity : ClixError → Bool
  | capacity _ => true
  | _ => false

end ClixError

abbrev Result := Except ClixError

end Clix
