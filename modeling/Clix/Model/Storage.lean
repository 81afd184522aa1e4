import Clix.Model.History

/-! # Retained output and the state budget

Output is pruned oldest first, never that of an active job, and removing it leaves permanent
receipts. `completionCharge` reserves, for every active job, the room its outcome will need.
-/

namespace Clix.Storage

open Except

def stateBytes : ℕ := 128 * 1024 * 1024
def outputBudget : ℕ := 16 * 1024 * 1024
def completionReserve : ℕ := 2 * 1024 * 1024
def maxJobs : ℕ := 10000
def maxHistory : ℕ := 30000
def maxRequestReceipts : ℕ := 10000
def maxPendingRequests : ℕ := 1024
def maxOutboundRequests : ℕ := 1024
def maxPeers : ℕ := 64
def maxGrants : ℕ := 256

/-- The JSON text of a store, refused when it exceeds the limit. -/
def encode (s : Store) : Result Bytes := do
  let bytes := Json.toVec s
  refuseIf (stateBytes < bytes.length) (.capacity "Clix state exceeds 128 MiB; new work is refused")
  return bytes

def jobBytes (j : Job) : ℕ := j.stdout.length + j.stderr.length

def replicaBytes (e : Entry) : ℕ := e.output.elim 0 (fun o => o.stdout.length + o.stderr.length)

/-- All retained payload bytes. -/
def outputBytes (s : Store) : ℕ :=
  (s.jobs.map jobBytes).sum + (s.history.entries.values.map replicaBytes).sum

inductive Payload where
  | «local» (id : String)
  | replica (key : String)
  deriving DecidableEq, Repr

structure Candidate where
  age : UInt64
  payload : Payload
  bytes : ℕ
  deriving DecidableEq, Repr

/-- A finished job's own payload, under the key it was admitted with. -/
def localCandidate (s : Store) (found : OrdMap String Candidate) (job : Job) : OrdMap String Candidate :=
  if jobBytes job = 0 ∨ job.status.isTerminal = false then found
  else
    match s.jobCertificates.get? job.id with
    | none => found
    | some key =>
      match s.history.entries.get? key with
      | none => found
      | some entry =>
        if entry.record.selected.isSome then
          found.insert key ⟨entry.change, .local job.id, jobBytes job⟩
        else found

/-- A finished record's replica payload, counted with the job's own when both are kept. -/
def replicaCandidate (found : OrdMap String Candidate) (e : String × Entry) : OrdMap String Candidate :=
  if 0 < replicaBytes e.2 ∧ e.2.record.selected.any (fun f => f.fact.status.isTerminal) = true then
    match found.get? e.1 with
    | some candidate => found.insert e.1 { candidate with bytes := candidate.bytes + replicaBytes e.2 }
    | none => found.insert e.1 ⟨e.2.change, .replica e.1, replicaBytes e.2⟩
  else found

/-- What may be pruned, oldest first. -/
def candidates (s : Store) : List Candidate :=
  let locals := s.jobs.foldl (localCandidate s) ∅
  let all := s.history.entries.entries.foldl replicaCandidate locals
  all.values.insertionSort (fun a b => a.age ≤ b.age)

/-- The key of a payload, after clearing a job's own bytes. -/
def clearLocal (s : Store) (id : String) : Result (Store × String) :=
  match s.jobCertificates.get? id with
  | none => .error (.protocol "output has no admission record")
  | some key =>
    match s.job? id with
    | none => .error (.protocol "output job disappeared")
    | some _ => .ok ({ s with
        jobs := s.jobs.modifyFirst (fun j => j.id == id) (fun j => { j with stdout := [], stderr := [] })
        outputPruned := s.outputPruned.insert id () }, key)

/-- Remove a payload, restamp its entry and leave receipts. -/
def removePayload (s : Store) (payload : Payload) : Result Store := do
  let (s, key) ← match payload with
    | .local id => clearLocal s id
    | .replica key => .ok (s, key)
  let (change, s) ← History.nextChange s
  let entries := s.history.entries.adjust key (fun e => { e with output := none, change := change })
  return { s with
    history := { s.history with entries := entries }
    historyPruned := s.historyPruned.insert key () }

/-- Owner pruning: keep the newest payloads, and report the bytes removed. -/
def prune (s : Store) (keep : ℕ) : Result (Store × ℕ) := do
  let all := candidates s
  let removed := all.take (all.length - keep)
  let next ← removed.foldlM (fun s candidate => removePayload s candidate.payload) s
  return (next, outputBytes s - outputBytes next)

/-- A count may stay above its limit but not grow there. -/
def countLimit (name : String) (next old max : ℕ) : Result Unit :=
  refuseIf (max < next ∧ old < next)
    (.capacity (name ++ " limit (" ++ toString max ++
      ") reached; new admissions are refused, existing records are preserved"))

/-- Remove candidates in order until the payloads fit the budget. -/
def evict (s : Store) : List Candidate → Result Store
  | [] => .ok s
  | candidate :: rest =>
    if outputBytes s ≤ outputBudget then .ok s
    else do
      let s ← removePayload s candidate.payload
      evict s rest

def countLimits (next old : Store) : Result Unit := do
  countLimit "execution receipt" next.jobs.length old.jobs.length maxJobs
  countLimit "history record" next.history.entries.size old.history.entries.size maxHistory
  countLimit "request delivery receipt" next.requestReceipts.length old.requestReceipts.length
    maxRequestReceipts
  countLimit "pending request" next.requests.length old.requests.length maxPendingRequests
  countLimit "outbound request" next.outboundRequests.length old.outboundRequests.length
    maxOutboundRequests
  countLimit "paired machine" next.peers.length old.peers.length maxPeers
  countLimit "grant" next.grants.length old.grants.length maxGrants

def prepare (next old : Store) : Result Store := do
  countLimits next old
  let pruned ← evict next (candidates next)
  refuseIf (outputBudget < outputBytes pruned)
    (.capacity "retained output budget is full; active or unverified data was preserved")
  return pruned

/-- The JSON text of a payload without its brackets. -/
def payloadJsonBytes (bytes : Bytes) : ℕ :=
  if bytes = [] then 0
  else (bytes.map (fun b => if 100 ≤ b then 3 else if 10 ≤ b then 2 else 1)).sum + bytes.length - 1

def jobPayload (j : Job) : ℕ := payloadJsonBytes j.stdout + payloadJsonBytes j.stderr

def replicaPayload (e : Entry) : ℕ :=
  e.output.elim 0 (fun o => payloadJsonBytes o.stdout + payloadJsonBytes o.stderr)

/-- The JSON text of a receipt, with its comma. -/
def receiptBytes (key : String) : ℕ := Json.size key + 1

/-- The decimal digits a counter may still gain. -/
def sequenceHeadroom (n : UInt64) : ℕ := 20 - (if n = 0 then 1 else Nat.log 10 n.toNat + 1)

def payloadBytes (s : Store) : ℕ :=
  (s.jobs.map jobPayload).sum + (s.history.entries.values.map replicaPayload).sum

def pruneReceipts (s : Store) : ℕ :=
  ((s.jobs.filter (fun j => !s.outputPruned.contains j.id)).map (fun j => receiptBytes j.id)).sum +
    ((s.history.entries.keys.filter (fun key => !s.historyPruned.contains key)).map receiptBytes).sum

def sequences (s : Store) : ℕ :=
  sequenceHeadroom s.history.clock +
    (s.history.entries.values.map (fun e => sequenceHeadroom e.change)).sum

def pending (s : Store) : ℕ := (s.jobs.filter (fun j => !j.status.isTerminal)).length

/-- The room a state needs when every active job completes with a full output budget. -/
def completionCharge (s : Store) (encodedBytes : ℕ) : ℕ :=
  encodedBytes - payloadBytes s + pruneReceipts s + sequences s + outputBudget * 4 +
    pending s * completionReserve

/-- Refuse an update that would leave too little room, unless it does not make it worse. -/
def reserveCompletion (s old : Store) (encodedBytes : ℕ) : Result Unit :=
  if completionCharge s encodedBytes ≤ stateBytes then .ok ()
  else do
    let oldBytes ← encode old
    refuseIf (completionCharge old oldBytes.length < completionCharge s encodedBytes)
      (.capacity "state capacity is reserved for admitted job outcomes; new work is refused")

end Clix.Storage
