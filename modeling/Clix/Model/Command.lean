import Clix.Model.Cli
import Clix.Model.Encode
import Clix.Model.Grant
import Clix.Model.Pair
import Clix.ToMathlib.JsonValue

/-! # The commands of the owner

A command line is checked where it is typed, and goes to the sidecar as one line of JSON. Splitting the command line
into its flags is left to a library and not modelled. The search path and the calendar are parameters.
-/

namespace Clix

open Except Json

namespace Cli

/-- The flags of a grant, as they were typed. -/
structure GrantCli where
  allow : List String
  all : Bool
  server : Bool
  once : Bool
  forDur : Option String
  «until» : Option String
  days : List String
  dates : List String
  opensAt : Option String
  closesAt : Option String
  weekdays : Bool
  only : List String
  deriving DecidableEq, Repr

/-- What `add` and `allow` have in common. -/
structure GrantNarrow where
  allow : List String
  once : Bool
  forDur : Option UInt64
  «until» : Option SystemTime
  days : List String
  dates : List UInt8
  opensAt : Option String
  closesAt : Option String
  weekdays : Bool
  deriving DecidableEq, Repr

/-- The instants that a time of day has today and, unless the calendar ends, tomorrow. The clock counts their seconds
in 64 bits with a sign. -/
structure Calendar where
  now : SystemTime
  today : ℕ → Option SystemTime
  tomorrow : Option (ℕ → Option SystemTime)
  today_lt : ∀ minutes t, today minutes = some t → t / nanosPerSecond < 2 ^ 63
  tomorrow_lt : ∀ resolve minutes t, tomorrow = some resolve → resolve minutes = some t → t / nanosPerSecond < 2 ^ 63

/-- The words between white space. -/
def splitWhitespace (text : String) : List String :=
  ((text.toList.splitOnP isWhitespace).filter (· ≠ [])).map String.ofList

/-- A text that is too large for 64 bits is too large for eight and for 32. -/
def parseBelow (limit : ℕ) (text : List Char) : Option ℕ :=
  (parseU64 text).bind (fun n => if n.toNat < limit then some n.toNat else none)

def weekdayNames : List String := ["mon", "tue", "wed", "thu", "fri", "sat", "sun"]

def validateDays : List String → Result (List String)
  | [] => .ok []
  | day :: rest => do
    let lower := String.ofList (toAsciiLowercase (trim day.toList))
    refuseIf (lower ∉ weekdayNames) (.usage ("unknown weekday '" ++ day ++ "' (use mon..sun)"))
    let rest ← validateDays rest
    return lower :: rest

def badDate (date : String) : ClixError := .usage ("bad date '" ++ date ++ "' (use 1–31)")

def parseDates : List String → Result (List UInt8)
  | [] => .ok []
  | date :: rest =>
    match parseBelow (2 ^ 8) (trim date.toList) with
    | none => .error (badDate date)
    | some n => do
      refuseIf (¬(1 ≤ n ∧ n ≤ 31)) (badDate date)
      let rest ← parseDates rest
      return n.toUInt8 :: rest

def stripSuffix (suffix text : List Char) : Option (List Char) :=
  if suffix <:+ text then some (text.take (text.length - suffix.length)) else none

/-- The digits of a time, and whether it is in the afternoon. -/
def splitAmpm (text : List Char) : Option (List Char × Bool) :=
  match stripSuffix ['p', 'm'] text with
  | some digits => some (digits, true)
  | none => (stripSuffix ['a', 'm'] text).map (·, false)

def badTime (text : List Char) : ClixError :=
  .usage ("bad time '" ++ String.ofList text ++ "' (use am/pm, e.g. 5pm)")

def hour24 (hour : ℕ) (pm : Bool) : ℕ := if hour = 12 then (if pm then 12 else 0) else if pm then hour + 12 else hour

/-- Minutes since midnight. -/
def parseAmpm (s : String) : Result ℕ :=
  let text := toAsciiLowercase (trim s.toList)
  match splitAmpm text with
  | none => .error (badTime text)
  | some (digits, pm) =>
    match parseBelow (2 ^ 32) digits with
    | none => .error (badTime text)
    | some hour => do
      refuseIf (¬(1 ≤ hour ∧ hour ≤ 12)) (badTime text)
      return hour24 hour pm * 60

def validateAmpm (s : String) : Result Unit := do
  let _ ← parseAmpm s
  return ()

/-- The time of day in local time today, or tomorrow if that time is already past. -/
def parseUntil (calendar : Calendar) (s : String) : Result SystemTime := do
  let minutes ← parseAmpm s
  let unresolved : ClixError := .usage ("could not resolve local time '" ++ s ++ "'")
  let today ← (calendar.today minutes).elim (.error unresolved) .ok
  if calendar.now < today then return today
  let tomorrow ← calendar.tomorrow.elim (.error (.usage "date overflow")) .ok
  (tomorrow minutes).elim (.error unresolved) .ok

def checkEach {α : Type} (check : α → Result Unit) : Option α → Result Unit
  | none => .ok ()
  | some a => check a

/-- Whether flags allow more than a single run. -/
def GrantCli.widening (g : GrantCli) : Bool :=
  g.forDur.isSome || g.until.isSome || !g.days.isEmpty || !g.dates.isEmpty || g.weekdays || g.opensAt.isSome ||
    g.closesAt.isSome

/-- The checks before the duration and the deadline are read. -/
def checkGrantCli (g : GrantCli) (requireScope : Bool) : Result (List String × List UInt8) := do
  refuseIf (g.all = true ∧ (g.server = true ∨ g.allow ≠ [])) (.usage "use --all or --allow/--server, not both")
  refuseIf (requireScope = true ∧ g.all = false ∧ g.server = false ∧ g.allow = [])
    (.usage "specify --allow <machine> (repeatable), --server, or --all")
  refuseIf (g.once = true ∧ (g.days ≠ [] ∨ g.dates ≠ [] ∨ g.weekdays = true))
    (.usage "use --once or a schedule, not both")
  refuseIf (g.weekdays = true ∧ g.days ≠ []) (.usage "use --days or --weekdays, not both")
  let days ← validateDays g.days
  let dates ← parseDates g.dates
  checkEach validateAmpm g.opensAt
  checkEach validateAmpm g.closesAt
  return (days, dates)

/-- The exact argument lists, when any are given. -/
def GrantCli.args (g : GrantCli) : Option (List (List String)) :=
  if g.only = [] then none else some (g.only.map splitWhitespace)

def GrantCli.narrow (g : GrantCli) (defaultOnce : Bool) (days : List String) (dates : List UInt8)
    (forDur : Option UInt64) (deadline : Option SystemTime) : GrantNarrow where
  allow := if g.server then g.allow ++ ["server"] else g.allow
  once := g.once || (defaultOnce && !g.widening)
  forDur := forDur
  «until» := deadline
  days := days
  dates := dates
  opensAt := g.opensAt
  closesAt := g.closesAt
  weekdays := g.weekdays

/-- A call that may panic, on an optional argument. -/
def parseFor : Option String → Call (Option UInt64)
  | none => .returns (.ok none)
  | some text =>
    match parseDuration text with
    | .panics => .panics
    | .returns result => .returns (result.map some)

def parseDeadline (calendar : Calendar) : Option String → Result (Option SystemTime)
  | none => .ok none
  | some text => (parseUntil calendar text).map some

def parseGrantCli (calendar : Calendar) (g : GrantCli) (defaultOnce requireScope : Bool) : Call GrantNarrow :=
  match checkGrantCli g requireScope with
  | .error e => .returns (.error e)
  | .ok (days, dates) =>
    match parseFor g.forDur with
    | .panics => .panics
    | .returns (.error e) => .returns (.error e)
    | .returns (.ok forDur) => .returns (do
      let deadline ← parseDeadline calendar g.until
      return g.narrow defaultOnce days dates forDur deadline)

inductive JobCommand where
  | inspect (id : String)
  | output (id : String) (stderr : Bool)
  | retry (id : String)
  deriving DecidableEq, Repr

inductive StorageCommand where
  | status
  | prune (keepOutputJobs : ℕ)
  deriving DecidableEq, Repr

inductive RecoveryCommand where
  | list (after : Option String)
  | inspect (id : String)
  | export (id version token : String)
  | resolve (id choice token : String)
  | discard (id token : String)
  deriving DecidableEq, Repr

inductive PinCommand where
  | on
  | off
  | sync (body : String)
  | conflicts (body : String)
  | takePeer (body path token : String)
  | recovery (command : RecoveryCommand)
  deriving DecidableEq, Repr

/-- The commands of the owner that go to the sidecar. -/
inductive Cmd where
  | add (tool : String) (grant : GrantNarrow) (args : Option (List (List String)))
  | exec (body : String) (argv : List String) (noWait : Bool)
  | pair (phrase name : Option String)
  | hands
  | remove (tool : String)
  | log
  | job (command : JobCommand)
  | storage (command : StorageCommand)
  | pin (command : PinCommand)
  | pending
  | allow (requestId : String) (grant : GrantNarrow)
  | deny (requestId : String)
  | request (body tool : String)
  | status
  deriving DecidableEq, Repr

/-- `clix add` with these flags. -/
def parseAdd (calendar : Calendar) (tool : Option String) (g : GrantCli) : Call Cmd :=
  match tool with
  | none => .returns (.error (.usage "usage: clix add <tool>"))
  | some tool =>
    match parseGrantCli calendar g false true with
    | .panics => .panics
    | .returns result => .returns (result.map (fun grant => .add tool grant g.args))

/-- `clix allow` with these flags. -/
def parseAllow (calendar : Calendar) (requestId : String) (g : GrantCli) : Call Cmd :=
  match parseGrantCli calendar g true false with
  | .panics => .panics
  | .returns result => .returns (do
    let grant ← result
    refuseIf (g.args.isSome = true)
      (.usage "limit arguments with clix add --only, not when approving a request")
    refuseIf (g.all = true) (.usage ("approving a request grants the requester or an --allow list; " ++
      "grant every machine with clix add --all"))
    return .allow requestId grant)

/-! ## The machine and the words behind it -/

def startsWithAt (word : String) : Bool := word.toList.head? == some '@'

/-- Where `--` leaves every later word as it is, and whether the owner waits. -/
def explicitStart (argv : List String) : Option (ℕ × Bool) :=
  if argv[1]? = some "--" then some (2, false)
  else if argv[1]? = some "--no-wait" ∧ argv[2]? = some "--" then some (3, true)
  else none

/-- Where a machine is named behind an at sign, which begins no name and no command. -/
def markedIndex (argv : List String) : Option (ℕ × Bool) :=
  if argv[1]?.any startsWithAt = true then some (1, false)
  else if argv[1]? = some "--no-wait" ∧ argv[2]?.any startsWithAt = true then some (2, true)
  else none

def parseExplicit (parts : List String) (noWait : Bool) : Result Cmd := do
  refuseIf (parts.length < 2) (.usage "usage: clix [--no-wait] -- <machine> <cmd>…")
  Pair.validateName (parts.headD "")
  return .exec (parts.headD "") (parts.drop 1) noWait

def parseMarked (marked : String) (toolArgv : List String) (noWait : Bool) : Result Cmd := do
  let body := String.ofList (marked.toList.drop 1)
  refuseIf (toolArgv = []) (.usage "usage: clix [--no-wait] @<machine> <cmd>…")
  Pair.validateName body
  return .exec body toolArgv noWait

/-- The two forms that name a machine before any option is read. Every other command line goes on to its flags. -/
def parseDestination (argv : List String) : Option (Result Cmd) :=
  ((explicitStart argv).map (fun start => parseExplicit (argv.drop start.1) start.2)).or
    ((markedIndex argv).map (fun index => parseMarked (argv.getD index.1 "") (argv.drop (index.1 + 1)) index.2))

def takeNoWait (index : ℕ) (stripped : List String × Bool) : List String × Bool :=
  if stripped.1[index]? = some "--no-wait" then (stripped.1.eraseIdx index, true) else stripped

/-- `--no-wait` before the machine, or between it and its command, is not a word of the command. -/
def stripNoWait (parts : List String) (noWait : Bool) : List String × Bool :=
  takeNoWait 1 (takeNoWait 0 (parts, noWait))

/-- A machine and its command behind the options of the command line. -/
def parseExternal (parts : List String) (noWait : Bool) : Result Cmd := do
  let stripped := stripNoWait parts noWait
  refuseIf (stripped.1.length < 2) (.usage "usage: clix <machine> <cmd>…")
  return .exec (stripped.1.headD "") (stripped.1.drop 1) stripped.2

end Cli

end Clix
