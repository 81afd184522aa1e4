import Clix.Model.Command
import Clix.Model.PinExport
import Clix.Model.PinOwner
import Clix.Model.Request
import Clix.ToMathlib.TextLines

/-! # The owner's socket

A client writes its request on one line. The sidecar reads a line of limited length, parses it, and takes the fields
that the operation needs from it. A field that is not there, or is of another type, is refused.
-/

namespace Clix

open Except Json

namespace Limits

def ownerRequestBytes : ℕ := 128 * 1024

/-- The next line, if the input has not ended. -/
def limitedLine (limit : ℕ) (input : Bytes) : Result (Option String) × Bytes :=
  let (line, rest) := takeLine limit input
  if line = [] then (.ok none, rest)
  else if limit < line.length then (.error (.io "owner request exceeds 128 KiB"), rest)
  else if line.getLast? ≠ some newline then (.error (.io "incomplete owner request"), rest)
  else
    match String.fromUTF8? ⟨line.dropLast.toArray⟩ with
    | none => (.error (.io "owner request is not UTF-8"), rest)
    | some text => (.ok (some text), rest)

def ownerLine (input : Bytes) : Result (Option String) × Bytes := limitedLine ownerRequestBytes input

end Limits

namespace Owner

/-- What a request asks for, with the fields that were taken from it. -/
inductive Op where
  | add (tool : String) (allow : List String) (once : Bool) (expiry : Option SystemTime) (schedule : Option Schedule)
      (args : Option (List (List String)))
  | hands
  | remove (tool : String)
  | exec (body : String) (argv : List String) (noWait : Bool)
  | pairStart (name : Option String)
  | pairJoin (name : Option String) (phrase : String) (addr : Option String)
  | pairAwait
  | log
  | jobInspect (id : String)
  | jobOutput (id : String) (stderr : Bool)
  | jobRetry (id : String)
  | storageStatus
  | storagePrune (keep : ℕ)
  | pending
  | decide (requestId : String) (decision : Request.Decision)
  | request (body tool : String)
  | status
  | pinSwitch (enabled : Bool)
  | pinSync (body : String)
  | pinConflicts (body : String)
  | pinTakePeer (body path token : String)
  | recoveryList (after : Option String)
  | recoveryInspect (id : String)
  | recoveryExport (id token : String) (version : Pin.RecoveryRead)
  | recoveryResolve (id token : String) (choice : Pin.RecoveryChoice)
  | recoveryDiscard (id token : String)
  deriving DecidableEq, Repr

/-! ## The fields of a grant -/

def textOrNull (v : Value) : Bool := v.isNull || v.asStr.isSome

def countOrNull (v : Value) : Bool := v.isNull || v.asU64.isSome

def stringsOrNull (v : Value) : Bool := v.isNull || v.asArray.any (fun items => items.all (fun v => v.asStr.isSome))

def datesOrNull (v : Value) : Bool :=
  v.isNull || v.asArray.any (fun items => items.all (fun v => v.asU64.any (fun n => 1 ≤ n && n ≤ 31)))

def vectorsOrNull (v : Value) : Bool :=
  v.isNull || v.asArray.any (fun items => items.all (fun v => v.asArray.any (fun p => p.all (fun v => v.asStr.isSome))))

/-- Each of these fields is absent, or as it has to be. -/
def checkFields (req : Value) (good : Value → Bool) (complaint : String) : List String → Result Unit
  | [] => .ok ()
  | key :: rest => do
    refuseIf ((req.get key).any (fun v => !good v) = true) (.usage (key ++ complaint))
    checkFields req good complaint rest

def validateGrantFields (req : Value) : Result Unit := do
  checkFields req (fun v => v.asBool.isSome) " must be a boolean" ["once", "weekdays"]
  checkFields req stringsOrNull " must be a list of strings" ["allow", "days"]
  checkFields req datesOrNull " must be a list of dates 1–31" ["dates"]
  checkFields req countOrNull " must be a nonnegative integer" ["for_secs", "until"]
  checkFields req textOrNull " must be a time" ["from", "to"]
  checkFields req vectorsOrNull " must be a list of argument lists" ["args"]

def jsonStringList : Option Value → List String
  | some (.array items) => items.filterMap Value.asStr
  | some (.string s) => [s]
  | _ => []

/-- The clock counts seconds in 64 bits with a sign. -/
def checkedAddSecs (t : SystemTime) (secs : ℕ) : Option SystemTime :=
  if t / nanosPerSecond + secs < 2 ^ 63 then some (t + secs * nanosPerSecond) else none

/-- A duration counts from now, and is preferred over a deadline. -/
def rpcUntil (now : SystemTime) (req : Value) : Result (Option SystemTime) :=
  match (req.get "for_secs").bind Value.asU64 with
  | some secs => (checkedAddSecs now secs).elim (.error (.usage "grant duration is out of range")) (.ok ∘ some)
  | none =>
    match (req.get "until").bind Value.asU64 with
    | some secs => (checkedAddSecs 0 secs).elim (.error (.usage "grant expiry is out of range")) (.ok ∘ some)
    | none => .ok none

def parseWeekday (s : String) : Result Weekday :=
  match String.ofList (Cli.toAsciiLowercase (Cli.trim s.toList)) with
  | "mon" => .ok .mon
  | "tue" => .ok .tue
  | "wed" => .ok .wed
  | "thu" => .ok .thu
  | "fri" => .ok .fri
  | "sat" => .ok .sat
  | "sun" => .ok .sun
  | _ => .error (.usage ("unknown weekday '" ++ s ++ "' (use mon..sun)"))

def readDay (v : Value) : Result Weekday :=
  match v.asStr with
  | none => .error (.usage "unknown weekday (use mon..sun)")
  | some s => parseWeekday s

/-- The text of a value, as it stands in an error. -/
def shown (v : Value) : String := (String.fromUTF8? ⟨v.text.toArray⟩).getD ""

def readDate (v : Value) : Result UInt8 :=
  match v.asU64 with
  | none => .error (Cli.badDate (shown v))
  | some n => do
    refuseIf (¬(1 ≤ n ∧ n ≤ 31)) (Cli.badDate (toString n))
    return n.toUInt8

def parseAmpmNaive (s : String) : Result NaiveTime := do
  let minutes ← Cli.parseAmpm s
  refuseIf (¬minutes < 24 * 60) (Cli.badTime s.toList)
  return minutes * 60 * nanosPerSecond

def readTime : Option String → Result (Option NaiveTime)
  | none => .ok none
  | some s => (parseAmpmNaive s).map some

def workdays : List Weekday := [.mon, .tue, .wed, .thu, .fri]

def rpcSchedule (req : Value) : Result (Option Schedule) := do
  let weekdays := ((req.get "weekdays").bind Value.asBool).getD false
  let dayVals := (req.get "days").bind Value.asArray
  refuseIf (weekdays = true ∧ dayVals.any (fun a => !a.isEmpty) = true) (.usage "use --days or --weekdays, not both")
  let named ← (dayVals.getD []).mapM readDay
  let days := (if weekdays then workdays else []) ++ named
  let dates ← (((req.get "dates").bind Value.asArray).getD []).mapM readDate
  let opens ← readTime ((req.get "from").bind Value.asStr)
  let closes ← readTime ((req.get "to").bind Value.asStr)
  if days = [] ∧ dates = [] ∧ opens = none ∧ closes = none then return none
  return some ⟨days, dates, opens, closes⟩

/-- The allowed argument vectors. -/
def readArgs (word : ℕ) : Option Value → Result (Option (List (List String)))
  | none | some .null => .ok none
  | some v => (fromValue word v : Option (List (List String))).elim (.error (.json "invalid args")) (.ok ∘ some)

/-! ## Requests -/

variable (word : ℕ) (now : SystemTime) (req : Value)

/-- A field that is a text. -/
def text? (name : String) : Option String := (req.get name).bind Value.asStr

/-- A field that is a text and not empty. -/
def filled? (name : String) : Option String := (text? req name).filter (· ≠ "")

def required (o : Option String) (complaint : String) : Result String := o.elim (.error (.usage complaint)) .ok

/-- The fields of the operations on pinned files. -/
def field (name : String) : Result String := required (filled? req name) ("missing " ++ name)

def flag (name : String) (default : Bool) : Bool := ((req.get name).bind Value.asBool).getD default

def requestId : Result String := required (filled? req "request_id") "provide a request ID from clix pending"

def jobId : Result String := do
  let id ← required (text? req "job_id") "provide a job ID from clix log"
  Limits.identifier id
  return id

def rpcAdd : Result Op := do
  validateGrantFields req
  let tool ← required (text? req "tool") "usage: clix add <tool>"
  let expiry ← rpcUntil now req
  let schedule ← rpcSchedule req
  let args ← readArgs word (req.get "args")
  return .add tool (jsonStringList (req.get "allow")) (flag req "once" false) expiry schedule args

/-- An approval without a list of machines is for the one that asked. -/
def rpcAllow : Result Op := do
  let id ← requestId req
  validateGrantFields req
  let allow := jsonStringList (req.get "allow")
  let expiry ← rpcUntil now req
  let schedule ← rpcSchedule req
  let scope := if allow = [] then Request.Scope.requester else .bodies allow
  return .decide id (.allow scope (flag req "once" true) expiry schedule)

def readArgv : Result (List String) :=
  (fromValue word ((req.get "argv").getD .null) : Option (List String)).elim (.error (.json "invalid argv")) .ok

def rpcExec : Result Op := do
  let body ← required (text? req "body") "missing body"
  let argv ← readArgv word req
  refuseIf (argv = []) (.usage "usage: clix <machine> <cmd>…")
  return .exec body argv (flag req "no_wait" false)

def rpcPrune : Result Op :=
  match (req.get "keep_output_jobs").bind Value.asU64 with
  | none => .error (.usage "missing output retention count")
  | some keep => do
    refuseIf (word ≤ keep) (.usage "retention count is too large")
    return .storagePrune keep

def readChoice (v : Value) : Result Pin.RecoveryChoice :=
  match v.variant with
  | some ("keep_live", content) => (plain .keepLive content).elim (.error (.json "invalid choice")) .ok
  | some ("restore_retained", content) => (plain .restoreRetained content).elim (.error (.json "invalid choice")) .ok
  | _ => .error (.json "invalid choice")

def readVersion (v : Value) : Result Pin.RecoveryRead :=
  match v.variant with
  | some ("receipt", content) => (plain .receipt content).elim (.error (.json "invalid version")) .ok
  | some ("live", content) => (plain .live content).elim (.error (.json "invalid version")) .ok
  | some ("retained", content) => (plain .retained content).elim (.error (.json "invalid version")) .ok
  | _ => .error (.json "invalid version")

def recoveryList : Result Op := do
  refuseIf ((req.get "after").any (fun v => !textOrNull v) = true)
    (.usage "after must be a recovery ID")
  return .recoveryList (text? req "after")

/-- The fields of an operation. -/
def readNamed (op : String) : Result Op :=
  match op with
  | "add" => rpcAdd word now req
  | "hands" => return .hands
  | "remove" => return .remove (← required (text? req "tool") "usage: clix remove <tool>")
  | "exec" => rpcExec word req
  | "log" => return .log
  | "job_inspect" => return .jobInspect (← jobId req)
  | "job_output" => return .jobOutput (← jobId req) (flag req "stderr" false)
  | "job_retry" => return .jobRetry (← jobId req)
  | "storage_status" => return .storageStatus
  | "storage_prune" => rpcPrune word req
  | "status" => return .status
  | "pair_start" => return .pairStart (filled? req "name")
  | "pair_join" =>
    return .pairJoin (filled? req "name") (← required (text? req "phrase") "usage: clix pair <phrase>")
      (filled? req "addr")
  | "pair_await" => return .pairAwait
  | "request" =>
    return .request ((text? req "body").getD "")
      (← required (filled? req "tool") "usage: clix request <machine> <tool>")
  | "pending" => return .pending
  | "allow_request" => rpcAllow now req
  | "deny_request" => return .decide (← requestId req) .deny
  | "allow" | "deny" => .error (.usage "update the Clix client and select a request ID from clix pending")
  | "pin_on" => return .pinSwitch true
  | "pin_off" => return .pinSwitch false
  | "pin_sync" => return .pinSync (← field req "body")
  | "pin_conflicts" => return .pinConflicts (← field req "body")
  | "pin_take_peer" => return .pinTakePeer (← field req "body") (← field req "path") (← field req "token")
  | "pin_recovery_list" => recoveryList req
  | "pin_recovery_inspect" => return .recoveryInspect (← field req "id")
  | "pin_recovery_export" =>
    return .recoveryExport (← field req "id") (← field req "token") (← readVersion ((req.get "version").getD .null))
  | "pin_recovery_resolve" => do
    let choice ← readChoice ((req.get "choice").getD .null)
    return .recoveryResolve (← field req "id") (← field req "token") choice
  | "pin_recovery_discard" => return .recoveryDiscard (← field req "id") (← field req "token")
  | other => .error (.usage ("unknown op: " ++ other))

/-- The operation of a request. -/
def readOp : Result Op := do
  let op ← required (text? req "op") "missing op"
  readNamed word now req op

/-- The request of the next line on a connection, and what is left of the input. A line that is refused or missing ends
the connection, and an empty one is passed over: neither asks for anything. What is left is read on, except that a
further byte ends the connection while an execution or an export is under way. -/
def receive (input : Bytes) : Option (Result Op) × Bytes :=
  match Limits.ownerLine input with
  | (.error _, rest) | (.ok none, rest) => (none, rest)
  | (.ok (some line), rest) =>
    if line = "" then (none, rest)
    else match fromSlice inOrder (utf8 line) with
      | none => (some (.error (.json "invalid request")), rest)
      | some request => (some (readOp word now request), rest)

/-! ## What the client writes -/

/-- A JSON object of a request. -/
def message (op : String) (names : List String) (values : List Value) : Value :=
  record inOrder ("op" :: names) (.string op :: values)

def grantNames : List String := ["allow", "once", "for_secs", "until", "days", "dates", "from", "to", "weekdays"]

def grantValues (n : Cli.GrantNarrow) : List Value :=
  [toValue inOrder n.allow, .bool n.once, toValue inOrder n.forDur,
    toValue inOrder (n.until.map (· / nanosPerSecond)), toValue inOrder n.days, toValue inOrder n.dates,
    toValue inOrder n.opensAt, toValue inOrder n.closesAt, .bool n.weekdays]

def jobRequest : Cli.JobCommand → Value
  | .inspect id => message "job_inspect" ["job_id"] [.string id]
  | .output id stderr => message "job_output" ["job_id", "stderr"] [.string id, .bool stderr]
  | .retry id => message "job_retry" ["job_id"] [.string id]

def storageRequest : Cli.StorageCommand → Value
  | .status => message "storage_status" [] []
  | .prune keep => message "storage_prune" ["keep_output_jobs"] [.number keep]

/-- A choice is typed with a dash. -/
def withUnderscores (choice : String) : String :=
  String.ofList (choice.toList.map (fun ch => if ch = '-' then '_' else ch))

def recoveryRequest : Cli.RecoveryCommand → Value
  | .list after => message "pin_recovery_list" ["after"] [toValue inOrder after]
  | .inspect id => message "pin_recovery_inspect" ["id"] [.string id]
  | .export id version token =>
    message "pin_recovery_export" ["id", "version", "token"] [.string id, .string version, .string token]
  | .resolve id choice token =>
    message "pin_recovery_resolve" ["id", "choice", "token"] [.string id, .string (withUnderscores choice), .string token]
  | .discard id token => message "pin_recovery_discard" ["id", "token"] [.string id, .string token]

def pinRequest : Cli.PinCommand → Value
  | .on => message "pin_on" [] []
  | .off => message "pin_off" [] []
  | .sync body => message "pin_sync" ["body"] [.string body]
  | .conflicts body => message "pin_conflicts" ["body"] [.string body]
  | .takePeer body path token =>
    message "pin_take_peer" ["body", "path", "token"] [.string body, .string path, .string token]
  | .recovery command => recoveryRequest command

def addRequest (path : String) (n : Cli.GrantNarrow) (args : Option (List (List String))) : Value :=
  message "add" ("tool" :: grantNames ++ ["args"]) (.string path :: grantValues n ++ [toValue inOrder args])

def allowRequest (requestId : String) (n : Cli.GrantNarrow) : Value :=
  message "allow_request" ("request_id" :: grantNames) (.string requestId :: grantValues n)

/-- A tool is looked up, and the path of a removal made absolute, where the command is typed. -/
def rpcFromCmd (fs : FileSystem) : Cli.Cmd → Result Value
  | .add tool grant args => do
    let path ← fs.resolveTool tool
    return addRequest path grant args
  | .hands => return message "hands" [] []
  | .remove tool => do
    let target ← Grant.removalTarget fs tool
    return message "remove" ["tool"] [.string target]
  | .exec body argv noWait =>
    return message "exec" ["body", "argv", "no_wait"] [.string body, toValue inOrder argv, .bool noWait]
  | .pair none name => return message "pair_start" ["name"] [toValue inOrder name]
  | .pair (some phrase) name => return message "pair_join" ["phrase", "name"] [.string phrase, toValue inOrder name]
  | .log => return message "log" [] []
  | .job command => return jobRequest command
  | .storage command => return storageRequest command
  | .pin command => return pinRequest command
  | .pending => return message "pending" [] []
  | .allow requestId grant => return allowRequest requestId grant
  | .deny requestId => return message "deny_request" ["request_id"] [.string requestId]
  | .request body tool => return message "request" ["body", "tool"] [.string body, .string tool]
  | .status => return message "status" [] []

/-- What the client writes on the socket. -/
def payload (request : Value) : Bytes := request.text ++ [newline]

end Owner

end Clix
