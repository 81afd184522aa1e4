import Clix.Model.Update

/-! # Delivery of jobs to their runners

The dispatcher of the origin asks a runner about a saved job and delivers it under the same ID. Only
a row that is not terminal is changed by an answer or by a failure to get one.
-/

namespace Clix.Dispatch

open Except

variable (c : Crypto)

/-- Append a job of this machine, certified by the update that saves it. -/
def newJob (newId : Result String) (origin body : BodyId) (argv : List String) : Result Job := do
  let id ← newId
  Limits.invocation id argv
  return ⟨id, body, argv, origin, .queued, [], []⟩

def appendEdit (job : Job) (retryOf : Option String) (s : Store) : Result (Store × Unit) :=
  .ok ({ History.linkRetry s job.id retryOf with jobs := s.jobs ++ [job] }, ())

/-- A command may be sent to this machine or to a paired one. -/
def checkBody (s : Store) (body : String) (argv : List String) : Result Unit := do
  refuseIf (argv = []) (.usage "usage: clix <machine> <cmd>…")
  refuseIf (body ≠ s.bodyName ∧ ¬s.peers.any (fun p => p.name.name == body))
    (.usage (body ++ " is not a paired machine"))

/-- The finished job of this machine that a retry repeats. -/
def retryable (s : Store) (id : String) : Result Job := do
  Limits.identifier id
  match s.jobs.find? (fun j => j.id == id && j.origin.name == s.bodyName) with
  | none => .error (.usage "retry this job on its originating machine")
  | some old => do
    refuseIf (old.status.isTerminal = false)
      (.usage "the original job is still pending or running; a retry would be another execution")
    return old

/-- The rows whose outcome another machine decides. -/
def isOutbound (s : Store) (j : Job) : Bool :=
  decide (j.origin.name = s.bodyName) && decide (j.body.name ≠ s.bodyName) && !j.status.isTerminal

/-- The rows waiting in this machine's own queue. -/
def isLocal (s : Store) (j : Job) : Bool :=
  decide (j.origin.name = s.bodyName) && decide (j.body.name = s.bodyName) && j.status.isLocalQueue

/-- Whether an unsigned answer of a peer concerns a row, and changes it. -/
def peerResult (s : Store) (peer : BodyId) (incoming : Job) : Result (Option Job) := do
  Limits.result incoming
  match s.job? incoming.id with
  | none => return none
  | some existing =>
    if existing.body ≠ peer ∨ existing.status.isTerminal = true then return none
    else do
      refuseIf (incoming.body ≠ peer ∨ incoming.origin ≠ existing.origin ∨
        incoming.argv ≠ existing.argv) (.protocol "peer returned a different job invocation")
      if incoming.status = existing.status ∧ incoming.stdout = existing.stdout ∧
          incoming.stderr = existing.stderr then return none
      else return some incoming

def putJobEdit (job : Job) (s : Store) : Result (Store × Unit) := .ok (s.setJob job, ())

/-- The status of a row after its delivery failed. A running job never regresses. -/
def failedDelivery (status : JobStatus) (e : ClixError) : JobStatus :=
  match e with
  | .capacity _ => if status = .running then status else .waitingCapacity
  | .unreachable => if status = .running then status else .waitingBody
  | e => .failed e.text

/-- The row to save after a delivery failed, when anything changes. -/
def undelivered (s : Store) (id : String) (e : ClixError) : Option Job :=
  match s.job? id with
  | none => none
  | some existing =>
    if existing.status.isTerminal then none
    else
      if failedDelivery existing.status e = existing.status then none
      else some { existing with status := failedDelivery existing.status e }

/-- A local submission that failed waits for capacity, or fails. -/
def failedSubmission (e : ClixError) : JobStatus :=
  if e.isCapacity then .waitingCapacity else .failed e.text

def localError (id : String) (e : ClixError) (s : Store) : Result (Store × Unit) :=
  match s.job? id with
  | none => .error (.protocol "queued local job disappeared")
  | some job =>
    if job.status.isLocalQueue = false then .ok (s, ())
    else .ok ({ s with
      jobs := s.jobs.modifyFirst (fun j => j.id == id)
        (fun j => { j with status := failedSubmission e }) }, ())

end Clix.Dispatch
