import Clix.Model.Exec
import Clix.Model.Dispatch

/-! # One machine, step by step

Every step is one critical section of the sidecar, or one thing its process environment does: an
accepted connection, the two sections of a certified execution, the three of a local submission, the
start and end of a child, a failing save, a crash and restart. What a task carries from one section to
the next is kept in the state, so sections of different tasks interleave in any order.

`acts` records with each saved state the owner decisions and admissions it descends from; `starts` and
`exits` record the children that ran. No step reads them, except that waiting for a child reports how
it exited.
-/

namespace Clix

open Except

/-- An owner decision about a tool, or the admission of a run under a grant. -/
inductive Act where
  | owner (tool : String) (grant : Option Grant)
  | admitted (id : String) (grant : Grant)
  deriving DecidableEq

/-- A state with the acts it descends from, newest first. -/
structure Image where
  store : Store
  acts : List Act

/-- On whose authority a job was submitted. -/
inductive Requester where
  | own
  | peer (peer : Peer)
  | certified (peer : Peer) (cert : Certificate)
  deriving DecidableEq

/-- The circumstances of an admission. -/
structure Admission where
  requester : Requester
  clock : Clock
  /-- The state in which the job was admitted. -/
  before : Store
  /-- The state that the admission saved. -/
  saved : Store

inductive Phase where
  | pending
  | running
  | ended (outcome : Exec.RunOutcome)
  | unsaved (error : ClixError)
  | finished

/-- An accepted run, until its execution slot is released. -/
structure Task where
  run : Job
  grant : Grant
  phase : Phase
  admission : Admission

/-- A child process that was started. -/
structure Start where
  command : Exec.Command
  run : Job
  grant : Grant
  admission : Admission

/-- A command of the owner, between its checks and its saving. -/
structure Draft where
  origin : BodyId
  body : BodyId
  argv : List String
  retryOf : Option String
  deriving DecidableEq

/-- An attempt to deliver a job. -/
structure Dispatch where
  job : Job
  peer : Option Peer
  certificate : Option Certificate
  deriving DecidableEq

/-- A request for a page of a peer's history, with what it was based on. -/
structure Sync where
  peer : BodyId
  progress : Progress
  trust : String
  deriving DecidableEq

structure Daemon where
  cell : DurableCell Image
  live : Bool
  conns : List Peer
  authorized : List (Peer × Certificate)
  drafts : List Draft
  dispatches : List Dispatch
  undelivered : List (Dispatch × ClixError)
  locals : List Job
  localErrors : List (Job × ClixError)
  syncs : List Sync
  tasks : List Task
  starts : List Start
  exits : List (String × Exec.ExitStatus)

/-- What a step reads from its environment. -/
structure Env where
  now : Clock
  newId : Result String
  epochId : Result String
  fs : FileSystem
  fault : Option Fault
  /-- Whether every slot for waiting execution requests is taken. -/
  meshBusy : Bool

/-- What opening a state reads from its environment. -/
structure Boot where
  /-- Whether a crash undid a replacement that was not yet durable. -/
  reverted : Bool
  hostname : String
  seed : Bytes
  nameFault : Option Fault
  seedFault : Option Fault
  repairFault : Option Fault

inductive Event where
  | accept (key : Bytes)
  | exec (peer : Peer) (id : String) (argv : List String)
  | authorize (peer : Peer) (cert : Certificate)
  | execCertified (peer : Peer) (cert : Certificate)
  | request (peer : Peer) (tool : String) (deliveryId : Option String)
  | add (tool : String) (allow : List String) (once : Bool) (expiry : Option SystemTime)
      (schedule : Option Schedule) (args : Option (List (List String)))
  | remove (tool : String)
  | decide (id : String) (decision : Request.Decision)
  | ask (tool : String)
  | sendRequest (body tool : String)
  | settleRequest (id : String) (result : Result Unit)
  | prune (keep : ℕ)
  | compose (body : String) (argv : List String)
  | retry (id : String)
  | submit (draft : Draft)
  | rename (name : Option String)
  | pair (name : String) (key : Bytes) (peer : Peer)
  | pin (index : PinIndex) (enabled : Bool)
  | selectJob (id : String)
  | answer (dispatch : Dispatch) (incoming : Job)
  | answerCertified (dispatch : Dispatch) (published : Published)
  | fail (dispatch : Dispatch) (error : ClixError)
  | settle (dispatch : Dispatch) (error : ClixError)
  | selectLocal (id : String)
  | submitLocal (job : Job)
  | settleLocal (job : Job) (error : ClixError)
  | startSync (peer : BodyId)
  | mergePage (sync : Sync) (page : Page)
  | contact (peer : BodyId) (lastContact : Option UInt64) (error : Option String)
  | launch (id : String) (spawnError : Option String)
  | exited (id : String) (status : Exec.ExitStatus)
  | collect (id : String) (streams : Except String (Bytes × Bytes)) (waitError : Option String)
  | finish (id : String)
  | giveUp (id : String)
  | release (id : String)
  | restart (boot : Boot)

namespace Daemon

variable (c : Crypto)

/-- The state in memory. -/
def store (d : Daemon) : Store := d.cell.mem.store

def acts (d : Daemon) : List Act := d.cell.mem.acts

def setStore (d : Daemon) (f : Store → Store) : Daemon :=
  { d with cell := d.cell.tweak (fun image => { image with store := f image.store }) }

/-- The outcome of a save. -/
def outcome (fault : Option Fault) : DurableCell.Outcome :=
  match fault with
  | none => .saved
  | some fault => fault.outcome

/-- Save an image. Memory takes it only when the save succeeds. -/
def commit (d : Daemon) (saved : Image) (fault : Option Fault) : DurableCell Image :=
  d.cell.replace saved ⟨d.store.stoppedBy fault, d.acts⟩ (outcome fault)

/-- What an update returns once its save was attempted. -/
def saveResult {α : Type} (fault : Option Fault) (value : α) : Result α :=
  match fault with
  | none => .ok value
  | some fault => .error fault.error

/-- Publish state only after its durable replacement succeeds. -/
def update {α : Type} (epochId : Result String) (fault : Option Fault) (d : Daemon)
    (edit : Store → Result (Store × α)) (acts : α → List Act) : Daemon × Result α :=
  match Store.stage c epochId d.store edit with
  | .error e => (d, .error e)
  | .ok (next, value) =>
    ({ d with cell := d.commit ⟨next, acts value ++ d.acts⟩ fault }, saveResult fault value)

/-- An update whose edit returns nothing and is no owner decision. -/
def quietUpdate {α : Type} (env : Env) (d : Daemon) (edit : Store → Result (Store × α)) :
    Daemon × Result α :=
  d.update c env.epochId env.fault edit (fun _ => [])

def task? (d : Daemon) (id : String) : Option Task := d.tasks.find? (fun t => t.run.id == id)

def setPhase (d : Daemon) (id : String) (phase : Phase) : Daemon :=
  { d with tasks := d.tasks.modifyFirst (fun t => t.run.id == id) (fun t => { t with phase := phase }) }

def surroundings (d : Daemon) (env : Env) : Exec.Surroundings :=
  ⟨env.now, env.newId, decide (Limits.children ≤ d.tasks.length)⟩

/-- Persist acceptance and reserve permission before starting a process. An accepted run becomes a
task, holding an execution slot. -/
def submit (env : Env) (d : Daemon) (requester : Requester) (origin : BodyId) (argv : List String)
    (id : String) (cert : Option Certificate) : Daemon × Result Job :=
  match Exec.precheck c d.store origin argv id cert with
  | .error e => (d, .error e)
  | .ok (some existing) => (d, .ok existing)
  | .ok none =>
    match d.update c env.epochId env.fault
        (Exec.admitEdit c (d.surroundings env) origin argv id cert)
        (fun admitted => (admitted.2.map (Act.admitted id)).toList) with
    | (next, .error e) => (next, .error e)
    | (next, .ok (job, none)) => (next, .ok job)
    | (next, .ok (job, some grant)) =>
      ({ next with
        tasks := next.tasks ++ [⟨job, grant, .pending, requester, env.now, d.store, next.store⟩] }, .ok job)

/-- A waiting execution request takes a slot only when its ID is new. -/
def meshRefuses (env : Env) (d : Daemon) (id : String) : Bool :=
  env.meshBusy && (d.store.job? id).isNone

def exec (env : Env) (d : Daemon) (peer : Peer) (id : String) (argv : List String) : Daemon :=
  if peer ∉ d.conns ∨ d.meshRefuses env id = true then d
  else (d.submit c env (.peer peer) peer.name argv id none).1

def authorize (d : Daemon) (peer : Peer) (cert : Certificate) : Daemon :=
  if peer ∉ d.conns then d
  else
    match d.store.ensureWritable >>= fun _ => History.authorizeExecution c d.store peer cert with
    | .error _ => d
    | .ok () => { d with authorized := (peer, cert) :: d.authorized }

instance (d : Daemon) (held : Peer × Certificate) : Decidable (held ∈ d.authorized) := inferInstance

def execCertified (env : Env) (d : Daemon) (peer : Peer) (cert : Certificate) : Daemon :=
  let i := cert.invocation
  if (peer, cert) ∉ d.authorized ∨ d.meshRefuses env i.id = true then d
  else (d.submit c env (.certified peer cert) i.origin i.argv i.id (some cert)).1

def owned (acts : Option Grant) : List Act := (acts.map (fun g => Act.owner g.tool (some g))).toList

def compose (d : Daemon) (body : String) (argv : List String) : Daemon :=
  match Dispatch.checkBody d.store body argv with
  | .error _ => d
  | .ok () => { d with drafts := ⟨⟨d.store.bodyName⟩, ⟨body⟩, argv, none⟩ :: d.drafts }

def retry (d : Daemon) (id : String) : Daemon :=
  match Dispatch.retryable d.store id with
  | .error _ => d
  | .ok old => { d with drafts := ⟨old.origin, old.body, old.argv, some old.id⟩ :: d.drafts }

/-- Save a command as a queued job. The random identifier of the job is one that no row has. -/
def submitDraft (env : Env) (d : Daemon) (draft : Draft) : Daemon :=
  match Dispatch.newJob env.newId draft.origin draft.body draft.argv with
  | .error _ => d
  | .ok job =>
    if draft ∉ d.drafts ∨ (d.store.job? job.id).isSome = true then d
    else (d.quietUpdate c env (Dispatch.appendEdit job draft.retryOf)).1

/-- A rename is refused once the machine has peers, jobs or grants. -/
def renameEdit (name : String) (s : Store) : Result (Store × Unit) := do
  let s := { s with bodyName := name }
  Pair.validateStore c s
  return (s, ())

def checkName (s : Store) (name : String) : Result Unit := do
  Pair.validateName name
  Pair.refuseCommandName name "this machine"
  refuseIf (name ≠ s.bodyName ∧ ¬(s.peers = [] ∧ s.jobs = [] ∧ s.grants = []))
    (.usage "cannot rename a body after pairing or granting tools")

def rename (env : Env) (d : Daemon) (name : Option String) : Daemon :=
  let name := name.getD d.store.bodyName
  match checkName d.store name with
  | .error _ => d
  | .ok () => (d.quietUpdate c env (renameEdit c name)).1

def pairEdit (peer : Peer) (s : Store) : Result (Store × Unit) := do
  let s ← Pair.updatePeer c s peer
  return (s, ())

/-- A peer is saved only while this machine is who the handshake said it was. -/
def pair (env : Env) (d : Daemon) (name : String) (key : Bytes) (peer : Peer) : Daemon :=
  if d.store.bodyName ≠ name ∨ Pair.ownerPk c d.store.ownerSk ≠ .ok key then d
  else (d.quietUpdate c env (pairEdit c peer)).1

def sendRequest (env : Env) (d : Daemon) (body tool : String) : Daemon :=
  match (do
      Limits.tool tool
      refuseIf (d.store.peer? ⟨body⟩ = none) (.usage (body ++ " is not a paired machine"))
      env.newId) with
  | .error _ => d
  | .ok id => (d.quietUpdate c env (fun s => .ok ({ s with
      outboundRequests := s.outboundRequests ++ [⟨id, ⟨body⟩, tool, false, none⟩] }, ()))).1

def settleRequest (env : Env) (d : Daemon) (id : String) (result : Result Unit) : Daemon :=
  match d.store.outboundRequests.find? (fun r => r.id == id) with
  | none => d
  | some existing =>
    if existing.waiting = true ∧ result = .error .unreachable then d
    else (d.quietUpdate c env (fun s => .ok (settleOutbound s id result, ()))).1

def selectJob (d : Daemon) (id : String) : Daemon :=
  match d.store.jobs.find? (fun j => j.id == id && Dispatch.isOutbound d.store j), d.store.ensureWritable with
  | some job, .ok () =>
    { d with dispatches := ⟨job, d.store.peer? job.body,
        (History.forJob d.store job).map (fun e => e.record.certificate)⟩ :: d.dispatches }
  | _, _ => d

/-- The effect of an update in a delivery attempt; its failure is the attempt's. -/
def attempt {α : Type} (dispatch : Dispatch) (done : Daemon × Result α) : Daemon :=
  match done with
  | (d, .ok _) => d
  | (d, .error e) => { d with undelivered := (dispatch, e) :: d.undelivered }

def answer (env : Env) (d : Daemon) (dispatch : Dispatch) (incoming : Job) : Daemon :=
  match dispatch.peer with
  | none => d
  | some peer =>
    if dispatch ∉ d.dispatches ∨ dispatch.certificate ≠ none then d
    else
      match Dispatch.peerResult d.store peer.name incoming with
      | .error e => attempt dispatch (d, (.error e : Result Unit))
      | .ok none => d
      | .ok (some job) => attempt dispatch (d.quietUpdate c env (Dispatch.putJobEdit job))

def answerCertified (env : Env) (d : Daemon) (dispatch : Dispatch) (published : Published) : Daemon :=
  match dispatch.peer with
  | none => d
  | some peer =>
    if dispatch ∉ d.dispatches ∨ dispatch.certificate = none then d
    else attempt dispatch
      (d.quietUpdate c env (fun s => History.acceptRunnerReply c s peer.name published))

def settle (env : Env) (d : Daemon) (dispatch : Dispatch) (error : ClixError) : Daemon :=
  if (dispatch, error) ∉ d.undelivered then d
  else
    match Dispatch.undelivered d.store dispatch.job.id error with
    | none => d
    | some job => (d.quietUpdate c env (Dispatch.putJobEdit job)).1

def selectLocal (d : Daemon) (id : String) : Daemon :=
  match d.store.jobs.find? (fun j => j.id == id && Dispatch.isLocal d.store j) with
  | none => d
  | some job => { d with locals := job :: d.locals }

def submitLocal (env : Env) (d : Daemon) (job : Job) : Daemon :=
  if job ∉ d.locals then d
  else
    match d.submit c env .own job.origin job.argv job.id none with
    | (d, .ok _) => d
    | (d, .error e) => { d with localErrors := (job, e) :: d.localErrors }

def settleLocal (env : Env) (d : Daemon) (job : Job) (error : ClixError) : Daemon :=
  if (job, error) ∉ d.localErrors then d
  else (d.quietUpdate c env (Dispatch.localError job.id error)).1

/-- Only paired machines are asked. -/
def startSync (d : Daemon) (peer : BodyId) : Daemon :=
  match d.store.peer? peer, d.store.ensureWritable with
  | some _, .ok () =>
    { d with syncs := ⟨peer, History.progress d.store peer, d.store.history.trust⟩ :: d.syncs }
  | _, _ => d

/-- Whether the receiver still is where the request left it. -/
def isCurrent (s : Store) (sync : Sync) : Bool :=
  let current := History.progress s sync.peer
  decide (s.history.trust = sync.trust) && decide (current.epoch = sync.progress.epoch) &&
    decide (current.cursor = sync.progress.cursor) && decide (current.high = sync.progress.high)

def mergePage (env : Env) (d : Daemon) (sync : Sync) (page : Page) : Daemon :=
  if sync ∉ d.syncs ∨ History.checkPage sync.progress page ≠ .ok () ∨ isCurrent d.store sync = false ∨
      History.isNews sync.progress page = false then d
  else (d.quietUpdate c env (fun s => do
    let s ← History.mergePage c s sync.peer sync.progress page
    return (s, ()))).1

/-- Diagnostics of a scan, in memory only. A failed scan is not complete. -/
def contact (d : Daemon) (peer : BodyId) (lastContact : Option UInt64) (error : Option String) : Daemon :=
  d.setStore (fun s =>
    let p := History.progress s peer
    History.setProgress s peer { p with
      complete := p.complete && error.isNone
      lastContact := if error.isSome then p.lastContact else lastContact
      error := error })

/-- Start the child of a pending run, with the command its grant allows. -/
def launch (d : Daemon) (id : String) (spawnError : Option String) : Daemon :=
  match d.task? id with
  | some ⟨run, grant, .pending, admission⟩ =>
    match Exec.command grant run.argv, spawnError with
    | .error e, _ => d.setPhase id (.ended (.notStarted e.text))
    | .ok _, some e => d.setPhase id (.ended (.notStarted e))
    | .ok command, none =>
      { d.setPhase id .running with starts := ⟨command, run, grant, admission⟩ :: d.starts }
  | _ => d

def exitOf (d : Daemon) (id : String) : Option Exec.ExitStatus :=
  (d.exits.find? (fun e => e.1 == id)).map (·.2)

/-- A started child exits, once. -/
def exited (d : Daemon) (id : String) (status : Exec.ExitStatus) : Daemon :=
  if d.starts.any (fun start => start.run.id == id) ∧ d.exitOf id = none then
    { d with exits := (id, status) :: d.exits }
  else d

/-- Wait for a child, with what it wrote. -/
def collect (d : Daemon) (id : String) (streams : Except String (Bytes × Bytes))
    (waitError : Option String) : Daemon :=
  match d.task? id with
  | some ⟨_, _, .running, _⟩ =>
    match waitError, d.exitOf id with
    | some e, _ => d.setPhase id (.ended (Exec.captured streams (.error e)))
    | none, some status => d.setPhase id (.ended (Exec.captured streams (.ok status)))
    | none, none => d
  | _ => d

def finish (env : Env) (d : Daemon) (id : String) : Daemon :=
  match d.task? id with
  | some ⟨run, grant, .ended outcome, _⟩ =>
    match d.quietUpdate c env (Exec.finishEdit grant run outcome) with
    | (d, .ok ()) => d.setPhase id .finished
    | (d, .error e) => d.setPhase id (.unsaved e)
  | _ => d

/-- A completion that was not saved leaves the outcome uncertain, in memory. -/
def giveUp (d : Daemon) (id : String) : Daemon :=
  match d.task? id with
  | some ⟨_, _, .unsaved e, _⟩ =>
    (d.setStore (fun s => Exec.setStatus s id (Exec.unsavedStatus e))).setPhase id .finished
  | _ => d

def release (d : Daemon) (id : String) : Daemon :=
  match d.task? id with
  | some ⟨_, _, .finished, _⟩ => { d with tasks := d.tasks.eraseP (fun t => t.run.id == id) }
  | _ => d

/-- A store that opening completes is saved before it is used. -/
def saveOpened (d : Daemon) (needed : Bool) (f : Store → Store) (fault : Option Fault) : Daemon :=
  if needed = false ∨ d.live = false then d
  else
    let next : Image := ⟨f d.store, d.acts⟩
    { d with cell := d.cell.replace next d.cell.mem (outcome fault), live := fault.isNone }

def isUnnamed (s : Store) : Bool :=
  s.bodyName == "" && s.peers.isEmpty && s.jobs.isEmpty && s.grants.isEmpty

/-- Read the saved state. -/
def openStore (d : Daemon) (boot : Boot) : Daemon :=
  let d := { d with
    cell := d.cell.reopen (fun image => { image with store := image.store.reloaded }) boot.reverted
    live := true
    conns := []
    authorized := []
    drafts := []
    dispatches := []
    undelivered := []
    locals := []
    localErrors := []
    syncs := []
    tasks := [] }
  if Storage.stateBytes < Json.size d.store ∨ Store.formatVersionNow < d.store.formatVersion then
    { d with live := false }
  else
    let d := d.saveOpened (isUnnamed d.store)
      (fun s => { s with bodyName := Pair.sanitizeName boot.hostname }) boot.nameFault
    d.saveOpened d.store.ownerSk.isEmpty (fun s => { s with ownerSk := boot.seed }) boot.seedFault

/-- An invalid name is repaired while no machine is paired. -/
def repairBodyName (env : Env) (fault : Option Fault) (d : Daemon) : Daemon :=
  if Pair.validateName d.store.bodyName = .ok () ∨ d.store.peers ≠ [] then d
  else
    match d.update c env.epochId fault
        (fun s => .ok ({ s with bodyName := Pair.sanitizeName s.bodyName }, ())) (fun _ => []) with
    | (d, .ok ()) => d
    | (d, .error _) => { d with live := false }

/-- Give up on interrupted runs, or stop mutations when that cannot be saved. -/
def recoverJobs (env : Env) (d : Daemon) : Daemon :=
  if d.store.needsRecovery then
    match d.quietUpdate c env Store.recoverEdit with
    | (d, .ok ()) => d
    | (d, .error e) => d.setStore (fun s => s.recoveryFailed e)
  else d

/-- Open the state again after a stop or a crash, and recover. -/
def restart (env : Env) (d : Daemon) (boot : Boot) : Daemon :=
  let d := d.openStore boot
  if d.live = false then d
  else
    let d := d.repairBodyName c env boot.repairFault
    if d.live = false ∨ Pair.validateStore c d.store ≠ .ok () then { d with live := false }
    else d.recoverJobs c env

/-- A connection is accepted from the holder of a paired key. -/
def accept (d : Daemon) (key : Bytes) : Daemon :=
  if key.length ≠ 32 ∨ c.validKey key = false ∨ c.weakKey key = true then d
  else
    match d.store.peers.find? (fun p => p.ownerPk == key) with
    | none => d
    | some peer => { d with conns := peer :: d.conns }

/-- One step of a live machine. -/
def liveStep (d : Daemon) (env : Env) : Event → Daemon
  | .accept key => d.accept c key
  | .exec peer id argv => d.exec c env peer id argv
  | .authorize peer cert => d.authorize c peer cert
  | .execCertified peer cert => d.execCertified c env peer cert
  | .request peer tool deliveryId =>
    if peer ∉ d.conns then d
    else (d.quietUpdate c env (fun s => Request.receive env.newId s peer.name tool deliveryId)).1
  | .add tool allow once expiry schedule args =>
    (d.update c env.epochId env.fault
      (fun s => Grant.addWithArgs env.fs s tool allow once expiry schedule args)
      (fun g => owned (some g))).1
  | .remove tool =>
    (d.update c env.epochId env.fault (fun s => Grant.remove env.fs s tool)
      (fun g => [.owner g.tool none])).1
  | .decide id decision =>
    (d.update c env.epochId env.fault (fun s => Request.decide env.fs s id decision) owned).1
  | .ask tool =>
    (d.quietUpdate c env (fun s => Request.upsert env.newId s ⟨s.bodyName⟩ tool)).1
  | .sendRequest body tool => d.sendRequest c env body tool
  | .settleRequest id result => d.settleRequest c env id result
  | .prune keep => (d.quietUpdate c env (fun s => Storage.prune s keep)).1
  | .compose body argv => d.compose body argv
  | .retry id => d.retry id
  | .submit draft => d.submitDraft c env draft
  | .rename name => d.rename c env name
  | .pair name key peer => d.pair c env name key peer
  | .pin index enabled =>
    (d.quietUpdate c env (fun s => .ok ({ s with pinIndex := index, pinEnabled := enabled }, ()))).1
  | .selectJob id => d.selectJob id
  | .answer dispatch incoming => d.answer c env dispatch incoming
  | .answerCertified dispatch published => d.answerCertified c env dispatch published
  | .fail dispatch e =>
    if dispatch ∉ d.dispatches then d else { d with undelivered := (dispatch, e) :: d.undelivered }
  | .settle dispatch e => d.settle c env dispatch e
  | .selectLocal id => d.selectLocal id
  | .submitLocal job => d.submitLocal c env job
  | .settleLocal job e => d.settleLocal c env job e
  | .startSync peer => d.startSync peer
  | .mergePage sync page => d.mergePage c env sync page
  | .contact peer lastContact e => d.contact peer lastContact e
  | .launch id spawnError => d.launch id spawnError
  | .exited id status => d.exited id status
  | .collect id streams waitError => d.collect id streams waitError
  | .finish id => d.finish c env id
  | .giveUp id => d.giveUp id
  | .release id => d.release id
  | .restart boot => d.restart c env boot

/-- A stopped machine can only be restarted, while children it left behind exit. -/
def step (d : Daemon) (e : Env × Event) : Daemon :=
  if d.live then d.liveStep c e.1 e.2
  else
    match e.2 with
    | .exited id status => d.exited id status
    | .restart boot => d.restart c e.1 boot
    | _ => d

def run (d : Daemon) (events : List (Env × Event)) : Daemon := events.foldl (step c) d

/-- A machine that has a saved state and does not run yet. -/
def installed (file : Store) : Daemon where
  cell := ⟨⟨file, []⟩, ⟨file, []⟩, none⟩
  live := false
  conns := []
  authorized := []
  drafts := []
  dispatches := []
  undelivered := []
  locals := []
  localErrors := []
  syncs := []
  tasks := []
  starts := []
  exits := []

/-- A machine whose state directory was just created. -/
def fresh (epoch hostname : String) (seed : Bytes) : Daemon :=
  installed (Store.first c epoch hostname seed)

/-- The machine after a run from its installation. -/
abbrev reach (epoch hostname : String) (seed : Bytes) (events : List (Env × Event)) : Daemon :=
  (fresh c epoch hostname seed).run c events

end Daemon

end Clix
