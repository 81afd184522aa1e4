import Clix.Model.Storage
import Clix.Model.Pair
import Clix.ToMathlib.DurableCell

/-! # Durable updates

An update edits a copy of the store, publishes the facts it owns, prunes, checks the budgets, and
replaces the saved file. Memory takes the copy only after the replacement is durable; after a failed
save the store refuses every further update until the sidecar restarts.
-/

namespace Clix

open Except

/-- The calls a save makes, in order. -/
inductive SaveStep where
  | privateDir | createTemp | write | flush | rename | syncDirectory
  deriving DecidableEq, Repr

/-- The call of a save that fails, and how. -/
structure Fault where
  step : SaveStep
  error : ClixError
  deriving DecidableEq, Repr

/-- Only a failure after the rename leaves the new content in the file. -/
def Fault.outcome (fault : Fault) : DurableCell.Outcome :=
  if fault.step = .syncDirectory then .failedAfter else .failedBefore

namespace Store

def storageError (reason : String) : ClixError :=
  .io ("Clix storage is unavailable: " ++ reason ++ ". Repair storage and restart the sidecar.")

def ensureWritable (s : Store) : Result Unit :=
  match s.writeError with
  | some reason => .error (storageError reason)
  | none => .ok ()

def formatVersionNow : UInt32 := 2

variable (c : Crypto) {α : Type}

/-- The state an update would save, with everything but the save itself. -/
def stage (epochId : Result String) (s : Store) (edit : Store → Result (Store × α)) :
    Result (Store × α) := do
  ensureWritable s
  let (next, value) ← edit s
  let next ← History.refreshOwned c epochId next (some s)
  let next := History.normalizeOutput { next with formatVersion := formatVersionNow }
  let next ← Storage.prepare next s
  let bytes ← Storage.encode next
  Storage.reserveCompletion next s bytes.length
  return (next, value)

/-- Memory after a save that failed: nothing but the error is kept. -/
def stoppedBy (s : Store) : Option Fault → Store
  | none => s
  | some fault => { s with writeError := some fault.error.text }

/-- The state the first run of a machine creates. -/
def blank (hostname : String) (seed : Bytes) : Store where
  writeError := none
  bodyName := Pair.sanitizeName hostname
  ownerSk := seed
  peers := []
  grants := []
  jobs := []
  requests := []
  outboundRequests := []
  requestReceipts := []
  pinIndex := PinIndex.default
  history := History.default
  retryLinks := ∅
  jobCertificates := ∅
  legacyJobs := ∅
  outputPruned := ∅
  historyPruned := ∅
  formatVersion := formatVersionNow
  pinEnabled := false

/-- Opening a state directory for the first time. -/
def create (epochId : Result String) (hostname : String) (seed : Bytes) : Result Store :=
  History.refreshOwned c epochId (blank hostname seed) none

/-- The state that a first opening saves under a random epoch. -/
def first (epoch hostname : String) (seed : Bytes) : Store :=
  let s := blank hostname seed
  let named := { s with history := { s.history with epoch := epoch } }
  let s := History.refreshTrust c named
  { s with history := { s.history with initialized := true } }

theorem create_eq_first (epoch hostname : String) (seed : Bytes) :
    create c (.ok epoch) hostname seed = .ok (first c epoch hostname seed) := by
  have unnamed : (blank hostname seed).history.epoch = "" := rfl
  have unmarked : History.markLegacy (blank hostname seed) = blank hostname seed := rfl
  rw [create, History.refreshOwned, unmarked, History.ensureEpoch, if_pos unnamed]
  simp only [ok_bind, pure_eq_ok]
  have jobs : ∀ s : Store, (History.refreshTrust c s).jobs = s.jobs := by
    intro s
    rw [History.refreshTrust]
    split_ifs <;> rfl
  rw [jobs]
  rfl

def recoveryReason : String :=
  "sidecar restarted during execution; the command may have taken effect. Not rerunning."

def unsavedRecoveryReason : String :=
  "sidecar restarted during execution and could not save recovery; the command may have taken effect. Not rerunning."

/-- Give up on every job this machine was running. -/
def markInterrupted (reason : String) (s : Store) : Store :=
  { s with jobs := s.jobs.map (fun j =>
      if j.body.name = s.bodyName ∧ j.status = .running then { j with status := .uncertain reason }
      else j) }

/-- Whether recovery has anything to save. -/
def needsRecovery (s : Store) : Bool :=
  !s.history.initialized ||
    s.jobs.any (fun j => decide (j.body.name = s.bodyName) && decide (j.status = .running))

def recoverEdit (s : Store) : Result (Store × Unit) := .ok (markInterrupted recoveryReason s, ())

/-- Stop mutations after a recovery failure. -/
def recoveryFailed (s : Store) (error : ClixError) : Store :=
  markInterrupted unsavedRecoveryReason
    { s with writeError := some (s.writeError.getD error.text) }

end Store

end Clix
