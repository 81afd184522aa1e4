import Clix.Model.Encode
import Clix.Model.Limits
import Mathlib.Data.List.Sort

/-! # Verified history

The origin owns the invocation and delivery observations; the runner owns acceptance and outcome.
`refreshOwned` signs the facts a machine owns, `ingest` merges verified records of others, and `page`
and `mergePage` are the two sides of a paged scan. Only admission may bind a certificate to a job.
-/

namespace Clix.History

open Except Json

variable (c : Crypto)

def pageRows : ℕ := 16
def pageBytes : ℕ := 48 * 1024 * 1024
def streamBytes : ℕ := 4 * 1024 * 1024

/-- The signed bytes of a value of some kind. -/
def bytes {α : Type} [Serialize α] (kind : String) (value : α) : Bytes :=
  utf8 "Clix history v1" ++ 0 :: utf8 kind ++ 0 :: toVec value

def signingKey (s : Store) : Result Bytes := do
  refuseIf (s.ownerSk.length ≠ 32) (.protocol "invalid local history identity")
  return s.ownerSk

def publicKey (s : Store) : Result Bytes := do
  let seed ← signingKey s
  return c.verifyingKey seed

def knownKey (s : Store) (name : BodyId) : Result Bytes :=
  if name.name = s.bodyName then publicKey c s
  else
    match s.peer? name with
    | some peer => .ok peer.ownerPk
    | none => .error (.protocol "history includes an author that is not explicitly paired")

def verify {α : Type} [Serialize α] (kind : String) (value : α) (signature key : Bytes) :
    Result Unit := do
  refuseIf (key.length ≠ 32 ∨ c.validKey key = false) (.protocol "invalid history public key")
  refuseIf (signature.length ≠ 64) (.protocol "invalid history signature length")
  refuseIf (c.verifyStrict key (bytes kind value) signature = false)
    (.protocol "history signature did not verify")

def invocationHash (cert : Certificate) : String := c.hash (bytes "invocation" cert.invocation)

/-- The key that must have signed an invocation. -/
def invocationSigner (s : Store) (i : Invocation) : Result Bytes :=
  match i.legacyObserver with
  | some observer =>
    if observer = i.origin ∨ observer = i.body then do
      let key ← knownKey c s observer
      let recorded := if observer = i.origin then i.originKey else i.runnerKey
      refuseIf (recorded ≠ key) (.protocol "legacy observer identity differs from its paired key")
      return key
    else .error (.protocol "legacy observer was not a job participant")
  | none => do
    let originKey ← knownKey c s i.origin
    refuseIf (originKey ≠ i.originKey) (.protocol "history identity differs from the paired key")
    let runnerKey ← knownKey c s i.body
    refuseIf (runnerKey ≠ i.runnerKey) (.protocol "history identity differs from the paired key")
    return i.originKey

/-- A retry names an earlier job by an identifier of its own. -/
def validateRetry (i : Invocation) : Result Unit :=
  match i.retryOf with
  | none => .ok ()
  | some id => do
    Limits.identifier id
    refuseIf (id = i.id) (.protocol "a retry must have a new job ID")

def validateInvocation (s : Store) (cert : Certificate) : Result Unit := do
  let i := cert.invocation
  Limits.invocation i.id i.argv
  validateRetry i
  let signer ← invocationSigner c s i
  verify c "invocation" i cert.signature signer

def authorizeExecution (s : Store) (peer : Peer) (cert : Certificate) : Result Unit := do
  validateInvocation c s cert
  let i := cert.invocation
  let own ← publicKey c s
  refuseIf (i.legacyObserver.isSome = true ∨ i.origin ≠ peer.name ∨ i.originKey ≠ peer.ownerPk ∨
      i.body.name ≠ s.bodyName ∨ i.runnerKey ≠ own)
    (.protocol "history relay is not execution authority")

/-- The next number of a counter that must not wrap. -/
def checkedNext (n : UInt64) (e : ClixError) : Result UInt64 :=
  if n.toNat + 1 < 2 ^ 64 then .ok (n + 1) else .error e

/-- Advance the history clock. -/
def nextChange (s : Store) : Result (UInt64 × Store) := do
  let change ← checkedNext s.history.clock (.protocol "history sequence exhausted")
  return (change, { s with history := { s.history with clock := change } })

/-- A record of which no fact has been signed. -/
def Entry.unsigned (cert : Certificate) (change : UInt64) : Entry := ⟨⟨cert, none, none⟩, change, none⟩

/-- An ID stays bound to the first invocation admitted under it. -/
def checkBinding (s : Store) (id key : String) : Result Unit :=
  match s.jobCertificates.get? id with
  | some old => refuseIf (old ≠ key) (.protocol "job ID is already bound to a different invocation")
  | none => refuseIf (s.jobs.any (fun j => j.id == id) = true)
      (.protocol "job ID belongs to an earlier unsigned admission")

/-- Keep a record of an invocation, before any fact of it. -/
def ensureEntry (s : Store) (cert : Certificate) : Result Store :=
  if s.history.entries.contains (invocationHash c cert) then .ok s
  else do
    let (change, s) ← nextChange s
    return s.setEntry (invocationHash c cert) (Entry.unsigned cert change)

/-- Remember what a job retries. -/
def linkRetry (s : Store) (id : String) (retryOf : Option String) : Store :=
  match retryOf with
  | none => s
  | some old => { s with retryLinks := s.retryLinks.insert id old }

/-- Only execution admission may bind a certificate to a local job. -/
def bindAdmission (s : Store) (cert : Certificate) : Result Store := do
  let key := invocationHash c cert
  let id := cert.invocation.id
  checkBinding s id key
  let s ← ensureEntry c s cert
  return linkRetry { s with jobCertificates := s.jobCertificates.insert id key } id
    cert.invocation.retryOf

def matchesJob (cert : Certificate) (j : Job) : Bool :=
  let i := cert.invocation
  i.id == j.id && i.origin == j.origin && i.body == j.body && i.argv == j.argv

def outputMatches (output : CapturedOutput) (fact : Fact) : Bool :=
  OutputRef.of c output.stdout == fact.stdout && OutputRef.of c output.stderr == fact.stderr

/-- Whether a job still holds the bytes a fact describes. -/
def holdsOutput (s : Store) (job : Job) (fact : Fact) : Bool :=
  !s.outputPruned.contains job.id &&
    OutputRef.of c job.stdout == fact.stdout && OutputRef.of c job.stderr == fact.stderr

/-- Whether a job was admitted under this key and certificate. -/
def admittedUnder (s : Store) (key : String) (cert : Certificate) (job : Job) : Bool :=
  s.jobCertificates.get? job.id == some key && matchesJob cert job

def selectedOutput (s : Store) (entry : Entry) (localJob : Option Job) : Option CapturedOutput :=
  match entry.record.selected with
  | none => none
  | some selected =>
    let key := invocationHash c entry.record.certificate
    if s.historyPruned.contains key then none
    else
      match localJob.filter (fun job => admittedUnder s key entry.record.certificate job &&
          holdsOutput c s job selected.fact) with
      | some job => some ⟨job.stdout, job.stderr⟩
      | none => entry.output.filter (fun output => outputMatches c output selected.fact)

def exportEntry (s : Store) (entry : Entry) : Published :=
  { record := entry.record
    output := selectedOutput c s entry (s.job? entry.record.certificate.invocation.id)
    change := entry.change }

/-- What a runner answers about an admitted invocation: nothing, or the job with its record. -/
def executionReply (s : Store) (cert : Certificate) : Result (Option (Job × Published)) :=
  let key := invocationHash c cert
  match s.job? cert.invocation.id with
  | none => .ok none
  | some job => do
    refuseIf (matchesJob cert job = false ∨ s.jobCertificates.get? job.id ≠ some key)
      (.protocol "job ID is bound to a different admitted invocation")
    match s.history.entries.get? key with
    | none => .error (.protocol "admission is missing history")
    | some entry => return some (job, exportEntry c s entry)

/-- The statuses an origin may publish. -/
def isOriginStatus : JobStatus → Bool
  | .queued | .waitingBody | .waitingCapacity | .failed _ => true
  | _ => false

/-- The statuses before a runner has accepted. -/
def isUnaccepted : JobStatus → Bool
  | .queued | .waitingBody | .waitingCapacity => true
  | _ => false

def isOutputRef (o : OutputRef) : Bool := decide (o.bytes ≤ streamBytes) && Crypto.isDigest o.sha256

/-- The key a fact must be signed with, when its role may publish its status. -/
def factSigner (s : Store) (i : Invocation) (f : Fact) : Role → Result Bytes
  | .origin => do
    refuseIf (i.legacyObserver.isSome = true ∨ isOriginStatus f.status = false ∨ f.stdout.bytes ≠ 0 ∨
      f.stderr.bytes ≠ 0) (.protocol "origin cannot publish a runner outcome")
    return i.originKey
  | .runner => do
    refuseIf (i.legacyObserver.isSome = true ∨ isUnaccepted f.status = true)
      (.protocol "invalid runner fact")
    return i.runnerKey
  | .legacyObserver =>
    match i.legacyObserver with
    | none => .error (.protocol "missing legacy observer")
    | some observer => knownKey c s observer

def validateFact (s : Store) (cert : Certificate) (signed : SignedFact) (role : Role) : Result Unit := do
  let f := signed.fact
  refuseIf (f.role ≠ role ∨ f.invocation ≠ invocationHash c cert ∨ f.revision = 0)
    (.protocol "history fact is bound to a different invocation or role")
  refuseIf (isOutputRef f.stdout = false) (.protocol "invalid history output digest or size")
  refuseIf (isOutputRef f.stderr = false) (.protocol "invalid history output digest or size")
  let key ← factSigner c s cert.invocation f role
  Limits.status f.status
  verify c "fact" f signed.signature key

/-- An absent fact is valid. -/
def validateFact? (s : Store) (cert : Certificate) (signed : Option SignedFact) (role : Role) :
    Result Unit :=
  match signed with
  | none => .ok ()
  | some signed => validateFact c s cert signed role

def validateRecord (s : Store) (record : Record) : Result Unit := do
  validateInvocation c s record.certificate
  if record.certificate.invocation.legacyObserver.isSome then do
    refuseIf (record.runner.isSome = true)
      (.protocol "legacy history is an observation, not a runner signature")
    validateFact? c s record.certificate record.origin .legacyObserver
  else do
    validateFact? c s record.certificate record.origin .origin
    validateFact? c s record.certificate record.runner .runner

/-- Certify a job of this machine. A legacy certificate is an observation by this machine. -/
def certificate (s : Store) (job : Job) (legacy : Bool) : Result Certificate := do
  let keyOf := fun name : BodyId =>
    if legacy then .ok ((knownKey c s name).toOption.getD []) else knownKey c s name
  let originKey ← keyOf job.origin
  let runnerKey ← keyOf job.body
  let i : Invocation := {
    id := job.id
    origin := job.origin
    originKey := originKey
    body := job.body
    runnerKey := runnerKey
    argv := job.argv
    retryOf := s.retryLinks.get? job.id
    legacyObserver := if legacy then some ⟨s.bodyName⟩ else none }
  let seed ← signingKey s
  return ⟨i, c.sign seed (bytes "invocation" i)⟩

/-- The digest of the paired names and keys, in name order. -/
def trustHash (s : Store) : String :=
  c.hash (toVec ((s.peers.map (fun p => (p.name.name, p.ownerPk))).insertionSort (fun a b => a.1 ≤ b.1)))

/-- The last row with an ID: the row that a map built from the rows in order keeps. -/
def lastJob? (jobs : List Job) (id : String) : Option Job := jobs.reverse.find? (fun j => j.id == id)

/-- The certificate key of a changed job, certifying it now if it never was. -/
def bindOwned (old : List Job) (s : Store) (job : Job) : Result (Store × String) :=
  match s.jobCertificates.get? job.id with
  | some key => .ok (s, key)
  | none => do
    let legacy := s.legacyJobs.contains job.id || decide (job.origin.name ≠ s.bodyName) ||
      (lastJob? old job.id).isSome
    let s := if legacy then { s with legacyJobs := s.legacyJobs.insert job.id () } else s
    let cert ← certificate c s job legacy
    let key := invocationHash c cert
    let (change, s) ← nextChange s
    let s := s.setEntry key (Entry.unsigned cert change)
    return ({ s with jobCertificates := s.jobCertificates.insert job.id key }, key)

/-- Which fact of a record a machine owns for a job, if the job's status is one to publish. -/
def ownedRole (s : Store) (record : Record) (job : Job) : Option Role :=
  if record.certificate.invocation.legacyObserver.isSome then some .legacyObserver
  else if job.body.name = s.bodyName ∧ job.status.isLocalQueue = false then some .runner
  else if job.origin.name = s.bodyName ∧ isOriginStatus job.status = true then some .origin
  else none

/-- The fact of a record that a role writes. -/
def Record.fact? (record : Record) : Role → Option SignedFact
  | .runner => record.runner
  | _ => record.origin

def Record.setFact (record : Record) (role : Role) (signed : SignedFact) : Record :=
  match role with
  | .runner => { record with runner := some signed }
  | _ => { record with origin := some signed }

/-- The digests to publish with a fact. -/
def ownedOutput (s : Store) (job : Job) (role : Role) (previous : Option SignedFact) :
    Result (OutputRef × OutputRef) :=
  if role = .origin then .ok (OutputRef.of c [], OutputRef.of c [])
  else if s.outputPruned.contains job.id then
    match previous with
    | some signed => .ok (signed.fact.stdout, signed.fact.stderr)
    | none => .error (.protocol "pruned job is missing its output digests")
  else .ok (OutputRef.of c job.stdout, OutputRef.of c job.stderr)

def nextRevision (previous : Option SignedFact) : Result UInt64 :=
  match previous with
  | none => .ok 1
  | some signed => checkedNext signed.fact.revision (.protocol "fact revision exhausted")

/-- Whether the last published fact already says this, or may not be rewritten. -/
def isSettledFact (previous : Option SignedFact) (status : JobStatus) (stdout stderr : OutputRef) :
    Bool :=
  previous.any (fun signed =>
    (signed.fact.status == status && signed.fact.stdout == stdout && signed.fact.stderr == stderr) ||
      signed.fact.status.isTerminal)

/-- The replica payload to keep after a fact was published for a job. -/
def keptOutput (s : Store) (entry : Entry) (job : Job) : Option CapturedOutput :=
  match entry.record.selected with
  | none => entry.output
  | some selected =>
    if holdsOutput c s job selected.fact = true then none
    else entry.output.filter (fun output => outputMatches c output selected.fact)

/-- Sign a fact and store it in the record of its key. -/
def publishFact (s : Store) (key : String) (entry : Entry) (job : Job) (role : Role) : Result Store := do
  let previous := Record.fact? entry.record role
  let (stdout, stderr) ← ownedOutput c s job role previous
  if isSettledFact previous job.status stdout stderr then return s
  else do
    let revision ← nextRevision previous
    let fact : Fact := ⟨key, role, revision, job.status, stdout, stderr⟩
    let seed ← signingKey s
    let signed : SignedFact := ⟨fact, c.sign seed (bytes "fact" fact)⟩
    let (change, s) ← nextChange s
    let entry := { entry with record := Record.setFact entry.record role signed, change := change }
    return s.setEntry key { entry with output := keptOutput c s entry job }

/-- Publish what this machine owns about one changed job. -/
def publishOwned (old : List Job) (s : Store) (job : Job) : Result Store :=
  if job.origin.name ≠ s.bodyName ∧ job.body.name ≠ s.bodyName then .ok s
  else do
    let (s, key) ← bindOwned c old s job
    match s.history.entries.get? key with
    | none => .error (.protocol "admitted job lost its certificate")
    | some entry => do
      refuseIf (matchesJob entry.record.certificate job = false)
        (.protocol "admitted job invocation changed")
      match ownedRole s entry.record job with
      | none => return s
      | some role => publishFact c s key entry job role

/-- Label every job of a store that has no history yet as legacy. -/
def markLegacy (s : Store) : Store :=
  if s.history.initialized then s
  else { s with legacyJobs := s.legacyJobs.extend (s.jobs.map (·.id)) }

def ensureEpoch (newId : Result String) (s : Store) : Result Store :=
  if s.history.epoch = "" then do
    let id ← newId
    return { s with history := { s.history with epoch := id } }
  else return s

/-- When the paired identities changed, every neighbour is scanned again. -/
def refreshTrust (s : Store) : Store :=
  if trustHash c s = s.history.trust then s
  else { s with history := { s.history with peers := ∅, trust := trustHash c s } }

/-- The jobs whose row is new or differs from the last one with its ID. -/
def changedJobs (legacy : Bool) (old jobs : List Job) : List Job :=
  jobs.filter (fun j => legacy || decide (lastJob? old j.id ≠ some j))

/-- Publish locally owned facts, inside the update that changed the jobs. -/
def refreshOwned (newId : Result String) (s : Store) (previous : Option Store) : Result Store := do
  let legacy := !s.history.initialized
  let old := (previous.map (·.jobs)).getD []
  let s ← ensureEpoch newId (markLegacy s)
  let s := refreshTrust c s
  let s ← (changedJobs legacy old s.jobs).foldlM (publishOwned c old) s
  return { s with history := { s.history with initialized := true } }

/-- Merge one fact: newer revisions replace, and a terminal fact is never rewritten. -/
def mergeFact (existing incoming : Option SignedFact) : Result (Option SignedFact × Bool) :=
  match incoming, existing with
  | none, _ => .ok (existing, false)
  | some incoming, none => .ok (some incoming, true)
  | some incoming, some current =>
    if incoming.fact.revision < current.fact.revision then .ok (some current, false)
    else if incoming.fact.revision = current.fact.revision then
      if incoming ≠ current then .error (.protocol "conflicting history facts at the same revision")
      else .ok (some current, false)
    else if current.fact.status.isTerminal then
      .error (.protocol "history cannot rewrite a terminal fact")
    else .ok (some incoming, true)

/-- An offered payload must be the one its record's fact describes. -/
def validateOutput (published : Published) : Result Unit :=
  match published.output with
  | none => .ok ()
  | some output =>
    match published.record.selected with
    | none => .error (.protocol "output has no history fact")
    | some selected => refuseIf (outputMatches c output selected.fact = false)
        (.protocol "history output differs from its signed digest")

/-- Whether some admitted job already holds the selected output of a record. -/
def heldLocally (s : Store) (key : String) (record : Record) : Bool :=
  match record.selected with
  | none => false
  | some selected => s.jobs.any (fun j =>
      admittedUnder s key record.certificate j && holdsOutput c s j selected.fact)

/-- The replica payload after a merge, and whether keeping it is a change. -/
def mergeOutput (s : Store) (key : String) (entry : Entry) (incoming : Option CapturedOutput) :
    Option CapturedOutput × Bool :=
  if heldLocally c s key entry.record then (none, false)
  else
    match entry.record.selected with
    | none => (entry.output, false)
    | some selected =>
      let offered := incoming.filter (fun output => !s.historyPruned.contains key &&
        outputMatches c output selected.fact && entry.output != some output)
      let output := offered <|> entry.output
      if output.any (fun output => !outputMatches c output selected.fact) then (none, true)
      else (output, offered.isSome)

/-- Validate then merge a record. Jobs, grants, requests and pairing are never changed. -/
def ingest (s : Store) (published : Published) : Result (Store × Bool) := do
  validateRecord c s published.record
  validateOutput c published
  let cert := published.record.certificate
  let key := invocationHash c cert
  let existing := s.history.entries.get? key
  let entry := existing.getD (Entry.unsigned cert 0)
  refuseIf (entry.record.certificate ≠ cert) (.protocol "different certificate for the same invocation")
  let (origin, originChanged) ← mergeFact entry.record.origin published.record.origin
  let (runner, runnerChanged) ← mergeFact entry.record.runner published.record.runner
  let entry := { entry with record := { entry.record with origin := origin, runner := runner } }
  let (output, outputChanged) := mergeOutput c s key entry published.output
  if originChanged || runnerChanged || outputChanged || existing.isNone then do
    let (change, s) ← nextChange s
    return (s.setEntry key { entry with change := change, output := output }, true)
  else return (s, false)

/-- The certificate, signed runner fact and row a validated response settles. -/
def acceptRunnerReply (s : Store) (peer : BodyId) (published : Published) :
    Result (Store × Option Job) := do
  validateRecord c s published.record
  let cert := published.record.certificate
  let i := cert.invocation
  let key := invocationHash c cert
  refuseIf (i.legacyObserver.isSome = true ∨ i.body ≠ peer)
    (.protocol "response has no modern runner authority")
  match published.record.runner with
  | none => .error (.protocol "runner response is missing its signed result")
  | some signed =>
    match s.job? i.id with
    | none => return (s, none)
    | some job => do
      refuseIf (s.jobCertificates.get? i.id ≠ some key ∨ matchesJob cert job = false)
        (.protocol "runner result belongs to a different admission")
      let (s, _) ← ingest c s published
      if job.status.isTerminal then return (s, none)
      else do
        let locallyPruned := s.historyPruned.contains key || s.outputPruned.contains i.id
        let retained := published.output.filter (fun _ => !locallyPruned)
        let output := retained.getD ⟨[], []⟩
        let missing := retained.isNone &&
          (decide (signed.fact.stdout.bytes ≠ 0) || decide (signed.fact.stderr.bytes ≠ 0))
        let s := if missing then { s with outputPruned := s.outputPruned.insert i.id () } else s
        let incoming : Job := {
          id := i.id
          origin := i.origin
          body := i.body
          argv := i.argv
          status := signed.fact.status
          stdout := output.stdout
          stderr := output.stderr }
        return (s.setJob incoming, some incoming)

/-- Drop the payloads of one job that are pruned, or kept twice. -/
def normalizeJob (s : Store) (job : Job) : Store × Job :=
  match s.jobCertificates.get? job.id with
  | none => (s, job)
  | some key =>
    match s.history.entries.get? key with
    | none => (s, job)
    | some entry =>
      if matchesJob entry.record.certificate job = false then (s, job)
      else if s.historyPruned.contains key then
        let described := entry.record.selected.any (fun signed =>
          decide (signed.fact.stdout.bytes ≠ 0) || decide (signed.fact.stderr.bytes ≠ 0))
        (if described then { s with outputPruned := s.outputPruned.insert job.id () } else s,
          { job with stdout := [], stderr := [] })
      else if !s.outputPruned.contains job.id &&
          entry.output.any (fun output => output == ⟨job.stdout, job.stderr⟩) then
        (s.setEntry key { entry with output := none }, job)
      else (s, job)

def normalizeJobs (s : Store) : List Job → Store × List Job
  | [] => (s, [])
  | job :: rest =>
    let (s, job) := normalizeJob s job
    let (s, rest) := normalizeJobs s rest
    (s, job :: rest)

/-- Remove pruned payloads, and replicas of payloads a job already holds. -/
def normalizeOutput (s : Store) : Store :=
  let entries := s.history.entries.mapValues (fun key entry =>
    if s.historyPruned.contains key then { entry with output := none } else entry)
  let (s, jobs) := normalizeJobs { s with history := { s.history with entries := entries } } s.jobs
  { s with jobs := jobs }

/-- The record of the invocation a job was admitted under. -/
def forJob (s : Store) (job : Job) : Option Entry :=
  match s.jobCertificates.get? job.id with
  | none => none
  | some key => (s.history.entries.get? key).filter (fun e =>
      e.record.certificate.invocation.legacyObserver.isNone && matchesJob e.record.certificate job)

/-- Export rows in order while they fit the page. -/
def fillPage (s : Store) (count size : ℕ) (next : UInt64) : List Entry → Result (List Published × UInt64)
  | [] => .ok ([], next)
  | entry :: rest => do
    let p := exportEntry c s entry
    refuseIf (pageBytes < Json.size p) (.protocol "one history record exceeds the page budget")
    if count = pageRows ∨ pageBytes < size + Json.size p then return ([], next)
    else do
      let (others, next) ← fillPage s (count + 1) (size + Json.size p) entry.change rest
      return (p :: others, next)

/-- The entries a scan between two sequence numbers covers, in sequence order. -/
def window (s : Store) (after high : UInt64) : List Entry :=
  (s.history.entries.values.filter (fun e => decide (after < e.change) && decide (e.change ≤ high))).insertionSort
    (fun a b => a.change ≤ b.change)

def page (s : Store) (epoch : String) (after : UInt64) (high : Option UInt64) : Result Page := do
  let reset := decide (epoch ≠ s.history.epoch) || decide (s.history.clock < after)
  let after := if reset then 0 else after
  let high := if reset then s.history.clock else min (high.getD s.history.clock) s.history.clock
  refuseIf (high < after) (.protocol "history cursor is beyond the scan boundary")
  let entries := window s after high
  let (published, next) ← fillPage c s 0 0 after entries
  let complete := decide (published.length = entries.length)
  return {
    epoch := s.history.epoch
    reset := reset
    high := high
    next := if complete then high else next
    complete := complete
    entries := published }

/-- Whether every author a record needs is paired, by name. -/
def authorsKnown (s : Store) (cert : Certificate) : Bool :=
  match cert.invocation.legacyObserver with
  | some observer => (knownKey c s observer).isOk
  | none => (knownKey c s cert.invocation.origin).isOk && (knownKey c s cert.invocation.body).isOk

/-- The progress a scan of a peer continues from. -/
def progress (s : Store) (peer : BodyId) : Progress :=
  (s.history.peers.get? peer.name).getD Progress.default

/-- The boundary a request asks to keep: the captured one of an unfinished scan. -/
def requestHigh (p : Progress) : Option UInt64 :=
  if p.complete = false ∧ p.epoch ≠ "" then some p.high else none

/-- Rows must come in increasing order, up to the page's end. -/
def checkOrder (next previous : UInt64) : List Published → Result Unit
  | [] => .ok ()
  | entry :: rest => do
    refuseIf (entry.change ≤ previous ∨ next < entry.change) (.protocol "history page is not ordered")
    checkOrder next entry.change rest

def checkPage (progress : Progress) (page : Page) : Result Unit := do
  refuseIf (pageRows < page.entries.length ∨ page.high < page.next ∨ page.epoch = "" ∨
      (page.reset = false ∧ page.epoch ≠ progress.epoch) ∨
      (page.reset = false ∧ page.next < progress.cursor) ∨
      (page.complete = true ∧ page.next ≠ page.high))
    (.protocol "invalid history page boundary")
  checkOrder page.next (if page.reset then 0 else progress.cursor) page.entries

/-- Merge the rows whose authors are known, and report whether some were not. -/
def mergeRows (s : Store) (unknown : Bool) : List Published → Result (Store × Bool)
  | [] => .ok (s, unknown)
  | entry :: rest =>
    if authorsKnown c s entry.record.certificate then do
      let (s, _) ← ingest c s entry
      mergeRows s unknown rest
    else mergeRows s true rest

def setProgress (s : Store) (peer : BodyId) (p : Progress) : Store :=
  { s with history := { s.history with peers := s.history.peers.insert peer.name p } }

/-- Merge a page and advance the cursor past it. -/
def mergePage (s : Store) (peer : BodyId) (progress : Progress) (page : Page) : Result Store := do
  let (s, unknown) ← mergeRows c s (if page.reset then false else progress.unknownAuthors) page.entries
  return setProgress s peer ⟨page.epoch, page.next, page.high, page.complete, unknown, none, none⟩

/-- Whether a page says anything new. -/
def isNews (progress : Progress) (page : Page) : Bool :=
  page.reset || decide (page.next ≠ progress.cursor) || !page.entries.isEmpty ||
    decide (page.complete ≠ progress.complete) || decide (page.high ≠ progress.high)

end Clix.History
