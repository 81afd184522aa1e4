import Clix.Model.Update
import Clix.Model.Request

/-! # Admission and completion of executions

Acceptance and the reservation of a single-use grant are saved before a process is started. Duplicate
delivery of an invocation returns its existing state; only a job waiting in this machine's own queue
may be submitted again.
-/

namespace Clix.Exec

open Except

variable (c : Crypto)

/-- What an admission reads besides the store. -/
structure Surroundings where
  now : Clock
  newId : Result String
  /-- Whether every execution slot is taken. -/
  busy : Bool

/-- The program and arguments a child is started with. -/
structure Command where
  program : String
  arg0 : String
  args : List String
  deriving DecidableEq, Repr

def validateArgv (grant : Grant) (argv : List String) : Result Unit := do
  refuseIf (argv.head? ≠ some grant.tool) (.usage "argv[0] is not granted")
  Grant.checkArgs grant argv

def command (grant : Grant) (argv : List String) : Result Command := do
  validateArgv grant argv
  return ⟨grant.binary, grant.tool, argv.drop 1⟩

/-- A certificate must be valid and addressed to this machine. -/
def checkCertificate (s : Store) (cert : Certificate) : Result Unit := do
  History.validateInvocation c s cert
  refuseIf (cert.invocation.legacyObserver.isSome = true ∨ cert.invocation.body.name ≠ s.bodyName)
    (.protocol "invalid certified execution destination")

/-- What is already recorded under an ID: nothing to start again, unless it waits in the local
queue. -/
def existing (s : Store) (origin : BodyId) (argv : List String) (id : String)
    (cert : Option Certificate) : Result (Option Job) :=
  match s.job? id with
  | none => .ok none
  | some job => do
    refuseIf (job.origin ≠ origin ∨ job.body.name ≠ s.bodyName ∨ job.argv ≠ argv)
      (.protocol "job ID belongs to a different invocation")
    refuseIf (∃ bound ∈ cert, s.jobCertificates.get? id ≠ some (History.invocationHash c bound))
      (.protocol "job ID belongs to a different signed admission")
    if origin.name = s.bodyName ∧ job.status.isLocalQueue = true then return none
    else return some job

/-- Reserve the first grant for a tool. -/
def reserveGrant (grants : List Grant) (tool id : String) : List Grant :=
  grants.modifyFirst (fun g => g.tool == tool) (fun g => { g with reservation := some id })

/-- Reserve a single-use grant for a run. -/
def reserve (s : Store) (grant : Grant) (id : String) : Store :=
  { s with grants := if grant.once then reserveGrant s.grants grant.tool id else s.grants }

/-- The grant for a whole argument vector. -/
def authorize (s : Store) (origin : BodyId) (argv : List String) (now : Clock) : Result Grant := do
  let grant ← Grant.checkAt s (argv.headD "") origin now
  Grant.checkArgs grant argv
  return grant

def bind? (s : Store) (cert : Option Certificate) : Result Store :=
  match cert with
  | none => .ok s
  | some cert => History.bindAdmission c s cert

/-- A missing or insufficient grant becomes a request the owner can approve. A busy grant or a
disallowed argument vector cannot be fixed by approving a request. -/
def askOwner (newId : Result String) (s : Store) (origin : BodyId) (tool : String) (e : ClixError) :
    Result Store :=
  if e.isRequestable then do
    let (s, _) ← Request.upsert newId s origin tool
    return s
  else return s

/-- Record an admission or a denial. The grant is returned when a child is to be started. -/
def admitEdit (env : Surroundings) (origin : BodyId) (argv : List String) (id : String)
    (cert : Option Certificate) (s : Store) : Result (Store × (Job × Option Grant)) := do
  let s ← bind? c s cert
  let job : Job := ⟨id, ⟨s.bodyName⟩, argv, origin, .running, [], []⟩
  match authorize s origin argv env.now with
  | .ok grant => do
    refuseIf (env.busy = true) (.capacity "execution slots are busy; waiting for capacity")
    return ((reserve s grant id).setJob job, (job, some grant))
  | .error e => do
    let s ← askOwner env.newId s origin (argv.headD "") e
    let job := { job with status := .denied e.text }
    return (s.setJob job, (job, none))

/-- The checks of a submission before its update. -/
def precheck (s : Store) (origin : BodyId) (argv : List String) (id : String)
    (cert : Option Certificate) : Result (Option Job) := do
  Limits.invocation id argv
  match cert with
  | none => pure ()
  | some cert => checkCertificate c s cert
  existing c s origin argv id cert

/-- How a child ended, as the operating system reports it. -/
structure ExitStatus where
  code : Option Int32
  signal : Option Int32
  deriving DecidableEq, Repr

def ExitStatus.success (status : ExitStatus) : Bool := decide (status.code = some 0)

/-- The exit code shown for a child: 128 plus the signal when it was killed. -/
def ExitStatus.exit (status : ExitStatus) : Int32 := status.code.getD (128 + status.signal.getD 1)

inductive RunOutcome where
  | exited (status : ExitStatus) (stdout stderr : Bytes) (captureError : Option String)
  | notStarted (error : String)
  | uncertain (error : String)
  deriving DecidableEq, Repr

def outputLimit : ℕ := Limits.outputStreamBytes

def readOutput (bytes : Bytes) : Except String Bytes :=
  if outputLimit < bytes.length then
    .error "command output exceeds 4 MiB per stream; stopped the command"
  else .ok bytes

/-- Read both streams; the first failure stops the command. -/
def readStreams (streams : Except String (Bytes × Bytes)) : Except String (Bytes × Bytes) := do
  let (stdout, stderr) ← streams
  let stdout ← readOutput stdout
  let stderr ← readOutput stderr
  return (stdout, stderr)

/-- What a started child leaves: captured streams, and a status unless waiting for it failed. -/
def captured (streams : Except String (Bytes × Bytes)) (wait : Except String ExitStatus) : RunOutcome :=
  match wait with
  | .error e => .uncertain e
  | .ok status =>
    match readStreams streams with
    | .ok (stdout, stderr) => .exited status stdout stderr none
    | .error e => .exited status [] [] (some e)

/-- Whether the run succeeded, when that is known. -/
def RunOutcome.success : RunOutcome → Option Bool
  | .exited status _ _ _ => some status.success
  | .notStarted _ => some false
  | .uncertain _ => none

/-- The row of a run that ended. -/
def finished (tool : String) (run : Job) : RunOutcome → Job
  | .exited status stdout stderr none =>
    { run with status := .done status.exit, stdout := stdout, stderr := stderr }
  | .exited status stdout stderr (some reason) =>
    { run with
      status := .failed (tool ++ " exited " ++ toString status.exit ++
        ", but output capture failed: " ++ reason)
      stdout := stdout
      stderr := stderr }
  | .notStarted e => { run with status := .failed ("could not run " ++ tool ++ ": " ++ e) }
  | .uncertain e =>
    { run with status := .uncertain ("could not determine " ++ tool ++ " exit status: " ++ e ++
        ". Not rerunning.") }

/-- Consume or free the reservation of a single-use run. A replacement grant is a new owner decision;
an older run cannot consume it. -/
def settleGrant (grants : List Grant) (grant : Grant) (id : String) (success : Option Bool) : List Grant :=
  let held := fun g : Grant => g.tool == grant.tool && g.reservation == some id
  if grant.once then
    match success with
    | some true => grants.eraseP held
    | some false => grants.modifyFirst held (fun g => { g with reservation := none })
    | none => grants
  else grants

def finishEdit (grant : Grant) (run : Job) (outcome : RunOutcome) (s : Store) : Result (Store × Unit) :=
  match s.job? run.id with
  | none => .error (.protocol "accepted job disappeared")
  | some _ =>
    .ok ({ s with grants := settleGrant s.grants grant run.id outcome.success }.setJob
      (finished grant.tool run outcome), ())

def unsavedReason (e : ClixError) : String :=
  "could not persist job completion: " ++ e.text ++ "; its outcome is uncertain. Not rerunning."

/-- The status of a run whose completion could not be saved. -/
def unsavedStatus (e : ClixError) : JobStatus := .uncertain (unsavedReason e)

def setStatus (s : Store) (id : String) (status : JobStatus) : Store :=
  { s with jobs := s.jobs.modifyFirst (fun j => j.id == id) (fun j => { j with status := status }) }

end Clix.Exec
