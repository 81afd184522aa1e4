import Clix.Model.Dispatch

/-! # The projected log

The log shows local rows and recorded facts as one row for each invocation that they are about. Local rows come first,
entries that tell more of an invocation replace what was there, and all observations stay with its row. An owner
inspects a job through its row, and waits for a command on the local row itself.
-/

namespace Clix.History

open Except Json

variable (c : Crypto)

structure Observation where
  invocation : String
  role : Role
  legacyObserver : Option BodyId
  status : JobStatus
  deriving DecidableEq, Repr

structure View where
  job : Job
  invocation : Option String
  retryOf : Option String
  provenance : String
  outputAvailable : Bool
  stdout : OutputRef
  stderr : OutputRef
  observations : List Observation
  /-- The unsaved diagnostic of this process, distinct from signed durable facts. -/
  localWarning : Option String
  deriving DecidableEq, Repr

/-- The bytes of a text, which is how texts are ordered. -/
abbrev Group := List ℕ

/-- Presentation grouping, not an admission or signature lookup. -/
def viewGroup (job : Job) (retryOf : Option String) : Group :=
  (array [toVec job.id, toVec job.origin, toVec job.body, toVec job.argv, toVec retryOf]).map UInt8.toNat

def View.group (v : View) : Group := viewGroup v.job v.retryOf

/-- Rows under their groups, with the priority of what they show. -/
abbrev Rows := OrdMap Group (ℕ × View)

/-- Whether a projection, of all jobs or of one, is about an ID. -/
def isAbout (id : Option String) (job : String) : Bool := id.all (fun id => job == id)

def localById (s : Store) (id : Option String) : OrdMap String (ℕ × Job) :=
  (s.jobs.zipIdx.filter (fun p => isAbout id p.1.id)).foldl (fun m p => m.insert p.1.id (p.2, p.1)) ∅

/-! ## Rows -/

def localView (s : Store) (job : Job) : View where
  job := job
  invocation := none
  retryOf := s.retryLinks.get? job.id
  provenance := "local record; publication identity is unresolved"
  outputAvailable := !s.outputPruned.contains job.id
  stdout := OutputRef.of c job.stdout
  stderr := OutputRef.of c job.stderr
  observations := []
  localWarning := none

def putLocal (s : Store) (rows : Rows) (job : Job) : Rows :=
  rows.insert (viewGroup job (s.retryLinks.get? job.id)) (0, localView c s job)

/-- The priority and the provenance of what a record says. -/
def standing (record : Record) : ℕ × String :=
  match record.certificate.invocation.legacyObserver with
  | some observer =>
    (if observer = record.certificate.invocation.body then 3 else 1, "legacy record observed by " ++ observer.name)
  | none =>
    if record.runner.isSome then (4, "verified runner result")
    else (2, "origin delivery observation; runner outcome not known")

def observationsOf (record : Record) : List Observation :=
  [record.origin, record.runner].filterMap (fun fact => fact.map (fun f =>
    ⟨invocationHash c record.certificate, f.fact.role, record.certificate.invocation.legacyObserver, f.fact.status⟩))

def entryView (s : Store) (found : Option Job) (entry : Entry) (fact : SignedFact) : View :=
  let i := entry.record.certificate.invocation
  let output := selectedOutput c s entry found
  { job := {
      id := i.id
      origin := i.origin
      body := i.body
      argv := i.argv
      status := fact.fact.status
      stdout := (output.map (·.stdout)).getD []
      stderr := (output.map (·.stderr)).getD [] }
    invocation := some (invocationHash c entry.record.certificate)
    retryOf := i.retryOf
    provenance := (standing entry.record).2
    outputAvailable := output.isSome || (decide (fact.fact.stdout.bytes = 0) && decide (fact.fact.stderr.bytes = 0))
    stdout := fact.fact.stdout
    stderr := fact.fact.stderr
    observations := observationsOf c entry.record
    localWarning := none }

/-- The row of an entry that holds a fact. -/
def entryRow (s : Store) (jobs : OrdMap String (ℕ × Job)) (entry : Entry) : Option (ℕ × View) :=
  entry.record.selected.map (fun fact => ((standing entry.record).1,
    entryView c s ((jobs.get? entry.record.certificate.invocation.id).map (·.2)) entry fact))

def entryRows (s : Store) (id : Option String) : List (ℕ × View) :=
  (s.history.entries.values.filter (fun e => isAbout id e.record.certificate.invocation.id)).filterMap
    (entryRow c s (localById s id))

/-- A row of a higher priority replaces one, and all observations stay. -/
def mergeRow (row : ℕ × View) (old : Option (ℕ × View)) : ℕ × View :=
  match old with
  | none => row
  | some old =>
    if old.1 < row.1 then (row.1, { row.2 with observations := row.2.observations ++ old.2.observations })
    else (old.1, { old.2 with observations := old.2.observations ++ row.2.observations })

def putRow (rows : Rows) (row : ℕ × View) : Rows := rows.insert row.2.group (mergeRow row (rows.get? row.2.group))

def isUncertain : JobStatus → Bool
  | .uncertain _ => true
  | _ => false

def unsavedWarning : String :=
  "Local outcome is uncertain and has not been saved; the signed observations below remain the last durable evidence. " ++
    "Repair storage and restart the sidecar."

/-- A failed completion save must not make a dead local process appear to remain Running. -/
def warnRow (job : Job) (row : ℕ × View) : ℕ × View :=
  if row.2.job.status ≠ job.status then
    (row.1, { row.2 with job := { row.2.job with status := job.status }, localWarning := some unsavedWarning })
  else row

def warnLocal (s : Store) (rows : Rows) (job : Job) : Rows :=
  rows.adjust (viewGroup job (s.retryLinks.get? job.id)) (warnRow job)

def localJobs (s : Store) (id : Option String) : List Job := s.jobs.filter (fun j => isAbout id j.id)

/-- The jobs of this machine whose outcome it lost. -/
def lostJobs (s : Store) (id : Option String) : List Job :=
  (localJobs s id).filter (fun j => decide (j.body.name = s.bodyName) && isUncertain j.status)

def projectedRows (s : Store) (id : Option String) : Rows :=
  (lostJobs s id).foldl (warnLocal s) ((entryRows c s id).foldl putRow ((localJobs s id).foldl (putLocal c s) ∅))

/-! ## The order of display -/

def arranged (v : View) : View :=
  { v with observations := v.observations.insertionSort (fun a b => a.invocation ≤ b.invocation) }

/-- The sequence of the entry that is shown. An unpublished local record falls back to its admission index. -/
def sequence (s : Store) (jobs : OrdMap String (ℕ × Job)) (v : View) : ℕ :=
  match v.invocation.bind s.history.entries.get? with
  | some entry => entry.change.toNat
  | none => ((jobs.get? v.job.id).map (·.1)).getD 0

def DisplayOrder (a b : ℕ × View) : Prop := a.1 < b.1 ∨ (a.1 = b.1 ∧ a.2.job.id ≤ b.2.job.id)

instance : DecidableRel DisplayOrder := fun a b => inferInstanceAs (Decidable (a.1 < b.1 ∨ _))

def projectedViews (s : Store) (id : Option String) : List View :=
  (((projectedRows c s id).values.map (fun row => (sequence s (localById s id) row.2, arranged row.2))).insertionSort
    DisplayOrder).map (·.2)

def views (s : Store) : List View := projectedViews c s none

def viewsForJob (s : Store) (id : String) : List View := projectedViews c s (some id)

/-! ## What an owner asks about a job -/

def inspected (s : Store) (id : String) : Result View :=
  match viewsForJob c s id with
  | [] => .error (.usage "job is not in this machine's saved history")
  | [view] => .ok view
  | _ => .error (.usage "job ID has conflicting invocations; inspect the history evidence before acting")

def jobExplanation : JobStatus → String
  | .queued => "Saved locally and awaiting delivery or execution."
  | .waitingBody => "The named machine is unreachable. This saved ID will be retried when it returns."
  | .waitingCapacity =>
    "Execution capacity is full. This saved ID will be retried and the grant checked again before execution."
  | .running => "The runner accepted this job; a terminal outcome has not been recorded here."
  | .done _ => "The runner recorded the exit status. Saved output may be retrieved while retained."
  | .denied _ =>
    "The tool was not admitted under the runner's current grant. Permission must be granted on that machine."
  | .failed _ =>
    "Inspect the recorded reason and provenance. A delivery failure does not prove that a remote process had no effects."
  | .uncertain _ => "The command may have taken effect. Clix will not rerun it automatically. " ++
    "Inspect its effects before a new attempt; any single-use reservation remains in place."

def jobInspect (s : Store) (id : String) : Result (String × View) := do
  Limits.identifier id
  let view ← inspected c s id
  return (jobExplanation view.job.status, view)

def jobOutput (s : Store) (id : String) (stderr : Bool) : Result Bytes := do
  Limits.identifier id
  let view ← inspected c s id
  refuseIf (view.job.status.isTerminal = false)
    (.usage "this job has no saved terminal output yet; inspect its status first")
  refuseIf (view.outputAvailable = false)
    (.usage "this job's output is no longer retained; its outcome and output digests remain in history")
  return if stderr then view.job.stderr else view.job.stdout

/-- What a waiting client is told when it looks at its job. -/
inductive Poll where
  | answer (job : Job)
  | report (job : Job)
  | again
  deriving DecidableEq, Repr

def noLongerRetained (id : String) : ClixError :=
  .usage ("job " ++ id ++ " completed but its saved output is no longer retained; use clix job inspect " ++ id)

/-- One look of a client that waits for its command. -/
def execPoll (s : Store) (id : String) (noWait reported : Bool) : Result Poll := do
  s.ensureWritable
  match s.job? id with
  | none => .error (.protocol "accepted job disappeared")
  | some j =>
    if j.status.isTerminal = true ∨ (noWait = true ∧ j.status ≠ .queued) then do
      refuseIf (s.outputPruned.contains j.id = true) (noLongerRetained j.id)
      return .answer j
    else if (j.status = .waitingBody ∨ j.status = .waitingCapacity) ∧ reported = false then return .report j
    else return .again

end Clix.History
