import Clix.ToMathlib.Json

/-! # Jobs, grants and peers

The values a machine keeps about the commands it was asked to run. A field the source calls `from`
is called `origin` here. Times are nanoseconds since the epoch and times of day are nanoseconds
since midnight; a `Clock` is what one reading of the local clock shows to a grant check.
-/

namespace Clix

/-- Display name, unique in the pair. -/
structure BodyId where
  name : String
  deriving DecidableEq, Repr

abbrev SystemTime := ℕ

abbrev NaiveTime := ℕ

inductive Weekday where
  | mon | tue | wed | thu | fri | sat | sun
  deriving DecidableEq, Repr

/-- One reading of the local clock. -/
structure Clock where
  instant : SystemTime
  weekday : Weekday
  day : UInt8
  time : NaiveTime
  deriving DecidableEq, Repr

/-- Repeating window on the local clock. -/
structure Schedule where
  days : List Weekday
  dates : List UInt8
  opensAt : Option NaiveTime
  closesAt : Option NaiveTime
  deriving DecidableEq, Repr

namespace Schedule

/-- Empty `days` and `dates` mean every day; otherwise either match is enough. -/
def calendarOk (s : Schedule) (now : Clock) : Bool :=
  (s.days.isEmpty && s.dates.isEmpty) || s.days.contains now.weekday || s.dates.contains now.day

/-- A window that opens after it closes wraps around midnight. -/
def timeOk (s : Schedule) (t : NaiveTime) : Bool :=
  match s.opensAt, s.closesAt with
  | none, none => true
  | some opens, none => decide (opens ≤ t)
  | none, some closes => decide (t ≤ closes)
  | some opens, some closes =>
    if opens ≤ closes then decide (opens ≤ t) && decide (t ≤ closes)
    else decide (opens ≤ t) || decide (t ≤ closes)

def allowsAt (s : Schedule) (now : Clock) : Bool := s.calendarOk now && s.timeOk now.time

end Schedule

/-- Permission to run one program, kept under the tool's name. -/
structure Grant where
  tool : String
  binary : String
  allowFrom : Option (List BodyId)
  once : Bool
  «until» : Option SystemTime
  schedule : Option Schedule
  reservation : Option String
  args : Option (List (List String))
  deriving DecidableEq, Repr

inductive JobStatus where
  | queued
  | waitingBody
  | waitingCapacity
  | running
  | done (exit : Int32)
  | denied (reason : String)
  | failed (reason : String)
  | uncertain (reason : String)
  deriving DecidableEq, Repr

namespace JobStatus

def isTerminal : JobStatus → Bool
  | done _ | denied _ | failed _ | uncertain _ => true
  | _ => false

/-- The statuses from which a queued local job may still be submitted. -/
def isLocalQueue : JobStatus → Bool
  | queued | waitingCapacity => true
  | _ => false

/-- The text a status carries. -/
def reason? : JobStatus → Option String
  | denied reason | failed reason | uncertain reason => some reason
  | _ => none

end JobStatus

structure Job where
  id : String
  body : BodyId
  argv : List String
  origin : BodyId
  status : JobStatus
  stdout : Bytes
  stderr : Bytes
  deriving DecidableEq, Repr

structure Peer where
  name : BodyId
  ownerPk : Bytes
  addr : Option String
  deriving DecidableEq, Repr

/-- A permission request waiting for the owner. -/
structure Request where
  id : String
  origin : BodyId
  tool : String
  onceSuggested : Bool
  deriving DecidableEq, Repr

/-- Durable delivery of a permission request, without executing a command. -/
structure OutboundRequest where
  id : String
  body : BodyId
  tool : String
  waiting : Bool
  error : Option String
  deriving DecidableEq, Repr

/-- Retained after the owner's decision, so that a lost acknowledgement cannot recreate a prompt. -/
structure RequestReceipt where
  deliveryId : String
  request : Request
  deriving DecidableEq, Repr

namespace JobStatus

theorem not_isTerminal_of_isLocalQueue {s : JobStatus} (queued : s.isLocalQueue = true) :
    s.isTerminal = false := by
  cases s <;> simp_all [isLocalQueue, isTerminal]

end JobStatus

end Clix
