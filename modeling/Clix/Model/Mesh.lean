import Clix.Model.Daemon
import Clix.Model.PinSession

/-! # What a connected peer may ask for

A connection carries one request: an operation, with what the rest of the request parses to. A certified
execution takes two steps, with the store free in between; a pin operation holds the store while it is served.
The events of the runs that requests started come in between.
-/

namespace Clix

/-- An event in the course of an admitted run. -/
def Event.isCompletion : Event → Bool
  | .launch _ _ | .exited _ _ | .collect _ _ _ | .finish _ | .giveUp _ | .release _ => true
  | _ => false

/-- An event of a run. -/
abbrev RunEvent := { event : Event // event.isCompletion = true }

namespace Mesh

open Except

/-- A machine that runs, with its pin tree. -/
structure Node where
  daemon : Daemon
  root : String
  tree : Pin.Tree

/-- What a machine provides while it serves a request. -/
structure Surroundings extends Env where
  /-- The ID for a job that its sender did not name. -/
  jobId : Result String
  host : Pin.Host
  ids : Pin.Ids
  /-- The time recorded with a synchronization. -/
  seconds : UInt64

def Surroundings.weather (env : Surroundings) : Pin.Weather := ⟨env.epochId, env.fault, env.seconds⟩

inductive Operation where
  | execV2 (cert : Certificate)
  | jobGetV2 (cert : Certificate)
  | historyPage (epoch : String) (after high : Option UInt64)
  | exec (argv : List String) (jobId : Option String)
  | jobGet (jobId : Option String)
  | request (tool requestId : Option String)
  | pin (request : Pin.Request)
  /-- A body that its operation cannot read. -/
  | malformed (e : ClixError)
  /-- Any other operation, local ones included. -/
  | other (op : String)

inductive Reply where
  /-- A certified execution was authorized and goes on. -/
  | authorized
  | certified (answer : Option (Job × Published))
  | page (page : Page)
  | accepted (job : Job)
  | job (job : Option Job)
  | request (request : Request)
  | pin (answer : Pin.Answer)

inductive Event where
  | accept (key : Bytes)
  | asked (peer : Peer) (op : Operation)
  /-- An authorized execution goes on. -/
  | certified (peer : Peer) (cert : Certificate)
  | run (event : RunEvent)

def busy : ClixError := .capacity "execution admission is busy; waiting for capacity"

namespace Node

variable (c : Crypto)

/-- A machine that has just opened a store. -/
def serving (s : Store) (root : String) (tree : Pin.Tree) : Node :=
  ⟨{ Daemon.installed s with live := true }, root, tree⟩

def machine (n : Node) : Pin.Machine := ⟨n.daemon.store, n.root, n.tree⟩

/-- Remember the tree as what both machines have, when it is what the peer says. -/
def commitPin (env : Surroundings) (peer : Peer) (manifest : Manifest) (n : Node) : Node × Result Unit :=
  match (do
    Pin.ensureEnabled n.daemon.store
    let files ← Pin.scan c n.tree
    refuseIf (files ≠ manifest) (Pin.changed "(tree changed before commit)")) with
  | .error e => (n, .error e)
  | .ok () =>
    let saved := n.daemon.quietUpdate c env.toEnv (Pin.recordEdit env.seconds peer.ownerPk manifest)
    ({ n with daemon := saved.1 }, saved.2)

def servePin (env : Surroundings) (peer : Peer) (n : Node) : Pin.Request → Node × Pin.Answer
  | .commit manifest =>
    let saved := n.commitPin c env peer manifest
    (saved.1, .done saved.2)
  | request =>
    let served := Pin.serve c env.host env.weather env.ids peer n.machine request
    ({ n with tree := served.1.tree }, served.2)

/-- Whether a certificate is one of this peer for this machine. -/
def authorized (s : Store) (peer : Peer) (cert : Certificate) : Result Unit := do
  s.ensureWritable
  History.authorizeExecution c s peer cert

/-- What an authorized execution does with the store. -/
def submitCertified (env : Surroundings) (peer : Peer) (cert : Certificate) (n : Node) : Node × Result Reply :=
  let i := cert.invocation
  if n.daemon.meshRefuses env.toEnv i.id = true then (n, .error busy)
  else
    let done := n.daemon.submit c env.toEnv (.certified peer cert) i.origin i.argv i.id (some cert)
    ({ n with daemon := done.1 }, do
      let _ ← done.2
      let answer ← History.executionReply c done.1.store cert
      return .certified answer)

def submit (env : Surroundings) (peer : Peer) (argv : List String) (jobId : Option String) (n : Node) :
    Node × Result Reply :=
  match (do
    let drawn ← env.jobId
    let id := jobId.getD drawn
    Limits.invocation id argv
    return id) with
  | .error e => (n, .error e)
  | .ok id =>
    if n.daemon.meshRefuses env.toEnv id = true then (n, .error busy)
    else
      let done := n.daemon.submit c env.toEnv (.peer peer) peer.name argv id none
      ({ n with daemon := done.1 }, done.2.map .accepted)

def historyPage (s : Store) (epoch : String) (after high : Option UInt64) : Result Reply := do
  refuseIf (128 < epoch.utf8ByteSize) (.protocol "invalid history epoch")
  match after with
  | none => .error (.protocol "missing history cursor")
  | some after => do
    let page ← History.page c s epoch after high
    return .page page

/-- The row of a job that this peer sent to this machine. -/
def ownJob (s : Store) (peer : Peer) (id : String) : Option Job :=
  s.jobs.find? (fun j => j.id == id && decide (j.origin = peer.name) && decide (j.body.name = s.bodyName))

/-- Serve one request. Only the operations named here exist for a peer. -/
def dispatch (env : Surroundings) (peer : Peer) (n : Node) : Operation → Node × Result Reply
  | .execV2 cert =>
    ({ n with daemon := n.daemon.authorize c peer cert },
      (authorized c n.daemon.store peer cert).map (fun _ => .authorized))
  | .jobGetV2 cert => (n, do
      authorized c n.daemon.store peer cert
      let answer ← History.executionReply c n.daemon.store cert
      return .certified answer)
  | .historyPage epoch after high => (n, historyPage c n.daemon.store epoch after high)
  | .exec argv jobId => n.submit c env peer argv jobId
  | .jobGet none => (n, .error (.protocol "missing job ID"))
  | .jobGet (some id) => (n, .ok (.job (ownJob n.daemon.store peer id)))
  | .request tool requestId =>
    match tool.filter (fun t => t != "") with
    | none => (n, .error (.usage "missing tool"))
    | some tool =>
      let saved := n.daemon.quietUpdate c env.toEnv
        (fun s => Request.receive env.newId s peer.name tool requestId)
      ({ n with daemon := saved.1 }, saved.2.map .request)
  | .pin request =>
    let served := n.servePin c env peer request
    (served.1, .ok (.pin served.2))
  | .malformed e => (n, .error e)
  | .other op => (n, .error (.usage (op ++ " is not allowed over the mesh")))

def step (n : Node) (e : Surroundings × Event) : Node :=
  match e.2 with
  | .accept key => { n with daemon := n.daemon.accept c key }
  | .asked peer op => if peer ∉ n.daemon.conns then n else (n.dispatch c e.1 peer op).1
  | .certified peer cert =>
    if (peer, cert) ∉ n.daemon.authorized then n else (n.submitCertified c e.1 peer cert).1
  | .run event => { n with daemon := n.daemon.liveStep c e.1.toEnv event.1 }

def run (n : Node) (events : List (Surroundings × Event)) : Node := events.foldl (step c) n

end Node

end Mesh

end Clix
