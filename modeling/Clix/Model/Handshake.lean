import Clix.Model.Update

/-! # Pairing over a hostile network

Listeners and joiners run the two sides of one handshake. Every frame that was ever sent is on the wire,
and whoever controls the network delivers, in any order, frames from the wire or of its own making.

Key exchange and authentication are ideal. A session draws a message that no other session draws, a key
is determined by the code and the two messages exchanged, and a tag under a key of the run is made by the
session that writes it and by nobody else.
-/

namespace Clix.Pairing

open Except

structure PairIdentity where
  name : String
  ownerPk : Bytes
  addr : Option String
  deriving DecidableEq, Repr

structure Confirmation where
  joiner : PairIdentity
  listener : PairIdentity
  deriving DecidableEq, Repr

/-- The text of a message, and what it is read back as. -/
structure WireFormat where
  identity : PairIdentity → Bytes
  parseIdentity : Bytes → Option PairIdentity
  confirmation : Confirmation → Bytes
  parseConfirmation : Bytes → Option Confirmation
  parse_identity : ∀ i, parseIdentity (identity i) = some i
  parse_confirmation : ∀ i, parseConfirmation (confirmation i) = some i

inductive Side where
  | listener | joiner
  deriving DecidableEq, Repr

inductive Phase where
  | joinIdentity | listenIdentity | joinCommitted | listenCommitted
  deriving DecidableEq, Repr

def Phase.label : Phase → String
  | joinIdentity => "join-identity"
  | listenIdentity => "listen-identity"
  | joinCommitted => "join-committed"
  | listenCommitted => "listen-committed"

/-- The side that writes the messages of a phase. -/
def Phase.sender : Phase → Side
  | joinIdentity | joinCommitted => .joiner
  | listenIdentity | listenCommitted => .listener

/-- A key exchange message, drawn by a session of the run or made up. -/
inductive PakeMsg where
  | own (session : ℕ)
  | other (bytes : Bytes)
  deriving DecidableEq, Repr

/-- The key that a code and two exchanged messages determine. -/
structure Key where
  code : String
  a : PakeMsg
  b : PakeMsg
  deriving DecidableEq, Repr

inductive Tag where
  | mac (key : Key) (input : Bytes)
  | junk (bytes : Bytes)
  deriving DecidableEq, Repr

inductive Frame where
  | pake (msg : PakeMsg)
  | authentic (tag : Tag) (payload : Bytes)
  | junk (bytes : Bytes)
  deriving DecidableEq, Repr

/-- The bytes that a tag covers. -/
def macInput (phase : Phase) (payload : Bytes) : Bytes :=
  Json.utf8 "clix-pair-v2" ++ 0 :: (Json.utf8 phase.label ++ 0 :: payload)

def phraseMismatch : ClixError := .io "phrase did not match"

def writeAuthenticated (key : Key) (phase : Phase) (payload : Bytes) : Frame :=
  .authentic (.mac key (macInput phase payload)) payload

def readAuthenticated (key : Key) (phase : Phase) : Frame → Result Bytes
  | .authentic tag payload => do
    refuseIf (tag ≠ .mac key (macInput phase payload)) phraseMismatch
    return payload
  | _ => .error phraseMismatch

def parsed {α : Type} (message : Option α) : Result α := message.elim (.error phraseMismatch) .ok

variable (c : Crypto) (w : WireFormat)

def localIdentity (s : Store) (addr : String) : Result PairIdentity := do
  Pair.validateName s.bodyName
  let pk ← Pair.ownerPk c s.ownerSk
  return ⟨s.bodyName, pk, some addr⟩

def peerFrom (identity : PairIdentity) (fallback : Option String) : Peer where
  name := ⟨identity.name⟩
  ownerPk := identity.ownerPk
  addr := (identity.addr.filter (fun addr => addr != "")).or fallback

def validatePeer (s : Store) (peer : Peer) : Result Unit := do
  if s.peers.any (fun p => p.name == peer.name && p.ownerPk == peer.ownerPk) then pure ()
  else Pair.refuseCommandName peer.name.name "the other machine"
  let _ ← Pair.updatePeer c s peer
  return ()

/-- Trust is tracked apart from confirmation, so that a dropped acknowledgement never conceals a saved
peer. -/
structure Progress where
  localPeer : Option String
  localSaved : Bool
  remoteMayTrust : Bool
  deriving DecidableEq, Repr

namespace Progress

def default : Progress := ⟨none, false, false⟩

def trustMayExist (p : Progress) : Bool := p.localPeer.isSome || p.remoteMayTrust

/-- What an error has to say about trust, when there is any. -/
def state? (p : Progress) : Option String :=
  match p.localPeer with
  | some name =>
    if p.localSaved then some ("This machine now trusts " ++ name)
    else some ("Pairing state may have been saved for " ++ name)
  | none => if p.remoteMayTrust then some "The other machine may already trust this machine" else none

def report (p : Progress) (result : Result Peer) : Result Peer :=
  match result with
  | .ok peer => .ok peer
  | .error e =>
    let e := if e = .unreachable then .io "pairing did not finish; check the phrase and connection" else e
    match p.state? with
    | none => .error e
    | some state => .error (.usage (state ++ ", but pairing confirmation did not finish: " ++ e.text ++
        ". Check clix status on both machines."))

end Progress

inductive Stage where
  | greeting
  | keyed (key : Key)
  | introduced (key : Key) (remote : PairIdentity)
  | ended (key : Option Key) (remote : Option PairIdentity) (result : Result Peer)
  deriving DecidableEq

namespace Stage

def key? : Stage → Option Key
  | greeting => none
  | keyed key | introduced key _ => some key
  | ended key _ _ => key

def remote? : Stage → Option PairIdentity
  | greeting | keyed _ => none
  | introduced _ remote => some remote
  | ended _ remote _ => remote

def result? : Stage → Option (Result Peer)
  | ended _ _ result => some result
  | _ => none

end Stage

/-- One attempt of one machine. `saved` records the peer that the attempt put on disk. -/
structure Session where
  side : Side
  here : PairIdentity
  code : String
  fallback : Option String
  stage : Stage
  progress : Progress
  saved : Option Peer

/-- What a step of a session reads from its machine. -/
structure Env where
  store : Store
  epochId : Result String
  fault : Option Fault
  /-- Whether the frame of the step could be written. -/
  written : Result Unit

namespace Session

def fail (s : Session) (e : ClixError) : Session :=
  { s with stage := .ended s.stage.key? s.stage.remote? (s.progress.report (.error e)) }

def finish (s : Session) (peer : Peer) : Session :=
  { s with stage := .ended s.stage.key? s.stage.remote? (.ok peer) }

/-- A session whose frame could not be written ends, though the frame may have been sent. -/
def afterWrite (env : Env) (s : Session) : Session :=
  match env.written with
  | .error e => s.fail e
  | .ok () => s

def peer (s : Session) (remote : PairIdentity) : Peer := peerFrom remote s.fallback

def pairEdit (peer : Peer) (s : Store) : Result (Store × Unit) := do
  let s ← Pair.updatePeer c s peer
  return (s, ())

def checkLocal (env : Env) (s : Session) : Result Unit := do
  let error := .usage "local identity changed during pairing; start a new phrase"
  refuseIf (env.store.bodyName ≠ s.here.name) error
  let pk ← Pair.ownerPk c env.store.ownerSk
  refuseIf (pk ≠ s.here.ownerPk) error

/-- A failed durable write can leave the new file on disk. -/
def persistPeer (env : Env) (s : Session) (peer : Peer) : Session × Result Unit :=
  match s.checkLocal c env with
  | .error e => (s, .error e)
  | .ok () =>
    let s := { s with progress := { s.progress with localPeer := some peer.name.name } }
    match Store.stage c env.epochId env.store (pairEdit c peer), env.fault with
    | .error e, _ => (s, .error e)
    | .ok _, none => ({ s with saved := some peer, progress := { s.progress with localSaved := true } }, .ok ())
    | .ok _, some fault =>
      (if fault.outcome = .failedAfter then { s with saved := some peer } else s, .error fault.error)

/-- The messages of the key exchange. The joiner's next frame introduces it. -/
def greet (i : ℕ) (frame : Frame) (env : Env) (s : Session) : Session × List Frame :=
  match s.side, frame with
  | .listener, .pake a =>
    (({ s with stage := .keyed ⟨s.code, a, .own i⟩ } : Session).afterWrite env, [.pake (.own i)])
  | .listener, _ => ((s.fail phraseMismatch).afterWrite env, [.pake (.own i)])
  | .joiner, .pake b =>
    (({ s with stage := .keyed ⟨s.code, .own i, b⟩ } : Session).afterWrite env,
      [writeAuthenticated ⟨s.code, .own i, b⟩ .joinIdentity (w.identity s.here)])
  | .joiner, _ => (s.fail phraseMismatch, [])

/-- The identity of the other machine, once it is one that could be saved. -/
def readIdentity (key : Key) (phase : Phase) (frame : Frame) (env : Env) (s : Session) :
    Result PairIdentity := do
  let payload ← readAuthenticated key phase frame
  let remote ← parsed (w.parseIdentity payload)
  validatePeer c env.store (s.peer remote)
  return remote

def readConfirmation (key : Key) (phase : Phase) (expected : Confirmation) (frame : Frame) : Result Unit := do
  let payload ← readAuthenticated key phase frame
  let confirmed ← parsed (w.parseConfirmation payload)
  refuseIf (confirmed ≠ expected) phraseMismatch

/-- Receiving the listener's identity lets the joiner save it; the joiner saves at once. -/
def introduce (key : Key) (frame : Frame) (env : Env) (s : Session) : Session × List Frame :=
  match s.side with
  | .listener =>
    match s.readIdentity c w key .joinIdentity frame env with
    | .error e => (s.fail e, [])
    | .ok remote =>
      (({ s with
          stage := .introduced key remote
          progress := { s.progress with remoteMayTrust := true } } : Session).afterWrite env,
        [writeAuthenticated key .listenIdentity (w.identity s.here)])
  | .joiner =>
    match s.readIdentity c w key .listenIdentity frame env with
    | .error e => (s.fail e, [])
    | .ok remote =>
      match ({ s with stage := .introduced key remote } : Session).persistPeer c env (s.peer remote) with
      | (s, .error e) => (s.fail e, [])
      | (s, .ok ()) =>
        (({ s with progress := { s.progress with remoteMayTrust := true } } : Session).afterWrite env,
          [writeAuthenticated key .joinCommitted (w.confirmation ⟨s.here, remote⟩)])

/-- The listener saves once the joiner has, and acknowledges it. -/
def confirm (key : Key) (remote : PairIdentity) (frame : Frame) (env : Env) (s : Session) :
    Session × List Frame :=
  match s.side with
  | .listener =>
    match readConfirmation w key .joinCommitted ⟨remote, s.here⟩ frame with
    | .error e => (s.fail e, [])
    | .ok () =>
      match s.persistPeer c env (s.peer remote) with
      | (s, .error e) => (s.fail e, [])
      | (s, .ok ()) =>
        (match env.written with
          | .error e => s.fail e
          | .ok () => s.finish (s.peer remote),
          [writeAuthenticated key .listenCommitted (w.confirmation ⟨remote, s.here⟩)])
  | .joiner =>
    match readConfirmation w key .listenCommitted ⟨s.here, remote⟩ frame with
    | .error e => (s.fail e, [])
    | .ok () => (s.finish (s.peer remote), [])

/-- A session reads the next frame that is delivered to it. -/
def deliver (i : ℕ) (frame : Frame) (env : Env) (s : Session) : Session × List Frame :=
  match s.stage with
  | .greeting => s.greet w i frame env
  | .keyed key => s.introduce c w key frame env
  | .introduced key remote => s.confirm c w key remote frame env
  | .ended .. => (s, [])

/-- A timeout or a lost connection ends a session that waits for a frame. -/
def interrupt (e : ClixError) (s : Session) : Session :=
  if s.stage.result?.isSome then s else s.fail e

/-- Begin an attempt. A joiner sends its key exchange message at once. -/
def start (env : Env) (side : Side) (code addr : String) (fallback : Option String) (i : ℕ) :
    Result (Session × List Frame) := do
  let here ← localIdentity c env.store addr
  let s : Session := ⟨side, here, code, fallback, .greeting, .default, none⟩
  match side with
  | .listener => return (s, [])
  | .joiner => return (s.afterWrite env, [.pake (.own i)])

end Session

/-- One call that tries every candidate address. The flag of its result tells whether trust may exist. -/
structure Call where
  code : String
  addr : String
  waiting : List String
  attempt : Option ℕ
  tried : List ℕ
  last : Option ClixError
  result : Option (Result Peer × Bool)

structure State where
  sessions : List Session
  /-- Every frame sent, with the session that sent it. -/
  wire : List (ℕ × Frame)
  calls : List Call

inductive Event where
  | listen (env : Env) (code addr : String) (remote : Option String)
  | join (env : Env) (code dialed addr : String)
  | deliver (session : ℕ) (frame : Frame) (env : Env)
  | interrupt (session : ℕ) (error : ClixError)
  | call (code addr : String) (candidates : List String)
  | dial (call : ℕ) (connected : Result Env)
  | next (call : ℕ) (pinned : Result Unit)

namespace State

def empty : State := ⟨[], [], []⟩

/-- Whether the network can produce a frame: tags under a key are only ever repeated. -/
def mayInject (d : State) : Frame → Bool
  | .authentic (.mac key input) _ => d.wire.any (fun sent =>
      match sent.2 with
      | .authentic tag _ => tag == .mac key input
      | _ => false)
  | _ => true

def begun (d : State) (started : Session × List Frame) : State :=
  { d with
    sessions := d.sessions ++ [started.1]
    wire := d.wire ++ started.2.map (fun frame => (d.sessions.length, frame)) }

def begin (d : State) (env : Env) (side : Side) (code addr : String) (fallback : Option String) : State :=
  match Session.start c env side code addr fallback d.sessions.length with
  | .error _ => d
  | .ok started => d.begun started

def deliver (d : State) (i : ℕ) (frame : Frame) (env : Env) : State :=
  match d.sessions[i]? with
  | none => d
  | some s =>
    if d.mayInject frame = false then d
    else
      let next := s.deliver c w i frame env
      { d with
        sessions := d.sessions.set i next.1
        wire := d.wire ++ next.2.map (fun frame => (i, frame)) }

def interrupt (d : State) (i : ℕ) (e : ClixError) : State :=
  match d.sessions[i]? with
  | none => d
  | some s => { d with sessions := d.sessions.set i (s.interrupt e) }

def setCall (d : State) (k : ℕ) (call : Call) : State := { d with calls := d.calls.set k call }

/-- Dial the next candidate of a call, or give up when there is none. -/
def dial (d : State) (k : ℕ) (connected : Result Env) : State :=
  match d.calls[k]? with
  | none => d
  | some call =>
    if call.result.isSome ∨ call.attempt.isSome then d
    else
      match call.waiting with
      | [] => d.setCall k { call with
          result := some (.error (call.last.getD (.io "no online Tailscale peers")), false) }
      | dialed :: rest =>
        match (do
            let env ← connected
            Session.start c env .joiner call.code call.addr (some dialed) d.sessions.length) with
        | .error e => d.setCall k { call with waiting := rest, last := some e }
        | .ok started =>
          (d.begun started).setCall k { call with waiting := rest, attempt := some d.sessions.length }

/-- A call goes on after its attempt ended. Trust that exists, or may, ends the call. -/
def next (d : State) (k : ℕ) (pinned : Result Unit) : State :=
  match d.calls[k]? with
  | none => d
  | some call =>
    match call.attempt with
    | none => d
    | some i =>
      match d.sessions[i]? with
      | none => d
      | some s =>
        match s.stage.result? with
        | none => d
        | some (.ok peer) => d.setCall k { call with
            attempt := none
            tried := i :: call.tried
            result := some (pinned.map (fun _ => peer), true) }
        | some (.error e) =>
          if s.progress.trustMayExist then d.setCall k { call with
            attempt := none
            tried := i :: call.tried
            result := some (.error e, true) }
          else d.setCall k { call with
            attempt := none
            tried := i :: call.tried
            last := some e }

def step (d : State) : Event → State
  | .listen env code addr remote => d.begin c env .listener code addr remote
  | .join env code dialed addr => d.begin c env .joiner code addr (some dialed)
  | .deliver i frame env => d.deliver c w i frame env
  | .interrupt i e => d.interrupt i e
  | .call code addr candidates =>
    { d with calls := d.calls ++ [⟨code, addr, candidates, none, [], none, none⟩] }
  | .dial k connected => d.dial c k connected
  | .next k pinned => d.next k pinned

def run (events : List Event) : State := events.foldl (step c w) empty

end State

end Clix.Pairing
