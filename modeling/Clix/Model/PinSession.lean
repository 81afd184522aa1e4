import Clix.Model.PinTree

/-! # Synchronization sessions

The operations a peer may ask for, and the two sessions a machine starts: a synchronization, and taking
the peer's version of one conflict. A session is a sequence of steps: each holds the store lock once, touches
the tree once, or waits for one answer of the peer, and other operations come in between.
-/

namespace Clix

namespace Pin

open Except

/-- One machine: its state in memory, its pin root as given by the configuration, and its tree. -/
structure Machine where
  store : Store
  root : String
  tree : Tree

/-- What the machine provides for one update of its state. -/
structure Weather where
  epochId : Result String
  fault : Option Fault
  now : UInt64

/-- An update of the state, which memory takes only when it was saved. -/
def updateStore (c : Crypto) (w : Weather) (s : Store) (edit : Store → Result (Store × Unit)) :
    Store × Result Unit :=
  match Store.stage c w.epochId s edit with
  | .error e => (s, .error e)
  | .ok (next, _) =>
    match w.fault with
    | none => (next, .ok ())
    | some fault => (s.stoppedBy (some fault), .error fault.error)

def record (c : Crypto) (w : Weather) (pk : Bytes) (manifest : Manifest) (s : Store) : Store × Result Unit :=
  updateStore c w s (recordEdit w.now pk manifest)

/-- Turn pin on or off. -/
def switchPin (c : Crypto) (w : Weather) (enabled : Bool) (s : Store) : Store × Result Unit :=
  updateStore c w s (fun s => .ok ({ s with pinEnabled := enabled }, ()))

/-! ## File content as text -/

/-- The value of a hexadecimal digit. -/
def digit? (ch : Char) : Option ℕ :=
  if '0' ≤ ch ∧ ch ≤ '9' then some (ch.toNat - 48)
  else if 'a' ≤ ch ∧ ch ≤ 'f' then some (ch.toNat - 87)
  else if 'A' ≤ ch ∧ ch ≤ 'F' then some (ch.toNat - 55)
  else none

def invalidContent : ClixError := .protocol "invalid pin content"

/-- The bytes of pairs of digits. A text of an even number of bytes has a character left over only if one of its
characters has several bytes, and none of these is a digit. -/
def digitPairs : List Char → Result Bytes
  | [] => .ok []
  | [_] => .error invalidContent
  | high :: low :: rest =>
    match digit? high, digit? low with
    | some h, some l => do
      let others ← digitPairs rest
      return (h * 16 + l).toUInt8 :: others
    | _, _ => .error invalidContent

def unhex (s : String) : Result Bytes := do
  refuseIf (s.utf8ByteSize % 2 ≠ 0 ∨ maxFile * 2 < s.utf8ByteSize) invalidContent
  digitPairs s.toList

/-! ## What a peer may ask for -/

structure PutRequest where
  path : Option String
  expected : Option (Option Fingerprint)
  new : Option (Option Fingerprint)
  content : Option String

/-- The request that offers a change to the receiver. -/
def putRequest (ch : Change) (data : Option File) : PutRequest :=
  ⟨some ch.path, some ch.expected, some ch.new, data.map (fun f => Crypto.hex f.bytes)⟩

inductive Request where
  | list
  | get (path : String) (expected : Fingerprint)
  | put (request : PutRequest)
  | commit (manifest : Manifest)

def missingPath : ClixError := .protocol "missing pin path"
def missingVersions : ClixError := .protocol "pin write requires version preconditions"

def rpcList (c : Crypto) (m : Machine) (peer : Peer) : Result Listing := do
  ensureEnabled m.store
  let files ← scan c m.tree
  return ⟨files, baseline m.store peer.ownerPk⟩

def rpcGet (c : Crypto) (m : Machine) (path : String) (expected : Fingerprint) : Result String := do
  ensureEnabled m.store
  match ← read m.tree.live path with
  | none => .error (changed path)
  | some f => do
    refuseIf (f.fingerprint c ≠ expected) (changed path)
    return Crypto.hex f.bytes

/-- The checks of a write before the tree is touched: the receiver's own baseline decides. -/
def putChecks (s : Store) (peer : Peer) (request : PutRequest) : Result (Change × Option Bytes) := do
  ensureEnabled s
  match request.path, request.expected, request.new with
  | none, _, _ => .error missingPath
  | some _, none, _ => .error missingVersions
  | some _, some _, none => .error missingVersions
  | some path, some expected, some new => do
    validPath path
    refuseIf ((baseline s peer.ownerPk).get? path ≠ expected)
      (conflict path peer.name.name (s.bodyName ++ " (local change since last sync)"))
    match request.content with
    | none => return (⟨path, expected, new, false⟩, none)
    | some text => do
      let bytes ← unhex text
      return (⟨path, expected, new, false⟩, some bytes)

def rpcPut (c : Crypto) (host : Host) (ids : Ids) (peer : Peer) (request : PutRequest) (m : Machine) :
    Machine × Result Unit :=
  match putChecks m.store peer request with
  | .error e => (m, .error e)
  | .ok (ch, bytes) =>
    let applied := apply c host m.store ch bytes ids m.tree
    ({ m with tree := applied.2 }, applied.1)

def rpcCommit (c : Crypto) (w : Weather) (peer : Peer) (manifest : Manifest) (m : Machine) :
    Machine × Result Unit :=
  match (do
    ensureEnabled m.store
    let files ← scan c m.tree
    refuseIf (files ≠ manifest) (changed "(tree changed before commit)")) with
  | .error e => (m, .error e)
  | .ok () =>
    let saved := record c w peer.ownerPk manifest m.store
    ({ m with store := saved.1 }, saved.2)

/-- The answer of the peer to a request, or that there was none. -/
inductive Answer where
  | listing (result : Result Listing)
  | content (result : Result String)
  | done (result : Result Unit)
  | none

/-- Serve one request of a peer. -/
def serve (c : Crypto) (host : Host) (w : Weather) (ids : Ids) (peer : Peer) (m : Machine) :
    Request → Machine × Answer
  | .list => (m, .listing (rpcList c m peer))
  | .get path expected => (m, .content (rpcGet c m path expected))
  | .put request =>
    let served := rpcPut c host ids peer request m
    (served.1, .done served.2)
  | .commit manifest =>
    let served := rpcCommit c w peer manifest m
    (served.1, .done served.2)

/-! ## Two trees at hand -/

/-- The public key of the machine itself. -/
def ownKey (c : Crypto) (m : Machine) : Bytes := c.verifyingKey m.store.ownerSk

/-- The content of a change at its source, which must still be what was planned. -/
def offered (c : Crypto) (live : Live) (ch : Change) : Result (Option File) := do
  let data ← read live ch.path
  refuseIf (data.map (fun f => f.fingerprint c) ≠ ch.new) (changed ch.path)
  return data

/-- Apply one planned change between two machines. -/
def syncChange (c : Crypto) (hostA hostB : Host) (ids : Ids) (ch : Change) (a b : Machine) :
    Result Unit × Machine × Machine :=
  match offered c (if ch.toRemote then a else b).tree.live ch with
  | .error e => (.error e, a, b)
  | .ok data =>
    if ch.toRemote then
      let applied := apply c hostB b.store ch (data.map (·.bytes)) ids b.tree
      (applied.1, a, { b with tree := applied.2 })
    else
      let applied := apply c hostA a.store ch (data.map (·.bytes)) ids a.tree
      (applied.1, { a with tree := applied.2 }, b)

/-- Apply planned changes in order, up to one that fails. -/
def syncChanges (c : Crypto) (hostA hostB : Host) (ids : String → Ids) :
    List Change → Machine → Machine → Result Unit × Machine × Machine
  | [], a, b => (.ok (), a, b)
  | ch :: rest, a, b =>
    match syncChange c hostA hostB (ids ch.path) ch a b with
    | (.error e, a, b) => (.error e, a, b)
    | (.ok (), a, b) => syncChanges c hostA hostB ids rest a b

/-- What a synchronization of two trees plans, before anything is written. -/
def syncStart (c : Crypto) (a b : Machine) : Result (List Change × Manifest) := do
  Store.ensureWritable a.store
  Store.ensureWritable b.store
  let af ← scan c a.tree
  let bf ← scan c b.tree
  let base ← commonBaseline (baseline a.store (ownKey c b)) (baseline b.store (ownKey c a)) af bf
  plan af bf base a.store.bodyName b.store.bodyName

def sync (c : Crypto) (hostA hostB : Host) (wa wb : Weather) (ids : String → Ids) (a b : Machine) :
    Result Unit × Machine × Machine :=
  match syncStart c a b with
  | .error e => (.error e, a, b)
  | .ok (changes, merged) =>
    match syncChanges c hostA hostB ids changes a b with
    | (.error e, a, b) => (.error e, a, b)
    | (.ok (), a, b) =>
      match (do
        let af ← scan c a.tree
        refuseIf (af ≠ merged) (changed "(tree changed during sync)")
        let bf ← scan c b.tree
        refuseIf (bf ≠ merged) (changed "(tree changed during sync)")) with
      | .error e => (.error e, a, b)
      | .ok () =>
        match record c wa (ownKey c b) merged a.store with
        | (store, .error e) => (.error e, { a with store := store }, b)
        | (store, .ok ()) =>
          let saved := record c wb (ownKey c a) merged b.store
          (saved.2, { a with store := store }, { b with store := saved.1 })

/-! ## A synchronization over the network -/

/-- Where a synchronization stands: what its next step does, with what it remembers. -/
inductive Stage where
  /-- Called by its name; the store is to be locked. -/
  | called (name : String)
  | scanning (peer : Peer) (root localName : String)
  | listing (peer : Peer) (root localName : String) (files : Manifest)
  | comparing (peer : Peer) (root localName : String) (files : Manifest) (remote : Listing)
  | working (peer : Peer) (root : String) (changes : List Change) (merged : Manifest)
  | offering (peer : Peer) (root : String) (ch : Change) (data : Option File) (rest : List Change)
    (merged : Manifest)
  | pushing (peer : Peer) (root : String) (ch : Change) (data : Option File) (rest : List Change)
    (merged : Manifest)
  | pulling (peer : Peer) (root : String) (ch : Change) (new : Fingerprint) (rest : List Change)
    (merged : Manifest)
  | placing (peer : Peer) (root : String) (ch : Change) (bytes : Option Bytes) (rest : List Change)
    (merged : Manifest)
  | vouching (peer : Peer) (root : String) (merged : Manifest)
  | committing (peer : Peer) (root : String) (merged : Manifest)
  | rescanning (peer : Peer) (root : String) (merged : Manifest)
  | recording (peer : Peer) (root : String) (merged : Manifest)
  | ended (result : Result Unit)

namespace Stage

def isEnded : Stage → Bool
  | ended _ => true
  | _ => false

/-- What the session has asked its peer for. -/
def request : Stage → Option Request
  | listing .. => some .list
  | pushing _ _ ch data _ _ => some (.put (putRequest ch data))
  | pulling _ _ ch new _ _ => some (.get ch.path new)
  | committing _ _ merged => some (.commit merged)
  | _ => none

end Stage

/-- The peer and the root a session started with must still be the machine's. -/
def currentSyncAuthority (m : Machine) (peer : Peer) (root : String) : Result Unit := do
  Store.ensureWritable m.store
  refuseIf (m.root ≠ root ∨
      m.store.peers.any (fun p => p.name == peer.name && p.ownerPk == peer.ownerPk) = false)
    (changed "pin root or peer identity changed during synchronization")

/-- Go on after a step that may have failed. -/
def proceed {α : Type} (result : Result α) (next : α → Stage) : Stage :=
  match result with
  | .error e => .ended (.error e)
  | .ok value => next value

def sessionPeer (s : Store) (name : String) : Result Peer := do
  Store.ensureWritable s
  match s.peers.find? (fun p => p.name.name == name) with
  | none => .error (.usage (name ++ " is not paired"))
  | some peer => .ok peer

/-- One step of a synchronization, with the answer it waited for. -/
def syncStep (c : Crypto) (host : Host) (w : Weather) (ids : Ids) (answer : Answer) (m : Machine) :
    Stage → Stage × Machine
  | .called name =>
    (proceed (sessionPeer m.store name) (fun peer => .scanning peer m.root m.store.bodyName), m)
  | .scanning peer root localName =>
    (proceed (scan c m.tree) (fun files => .listing peer root localName files), m)
  | .listing peer root localName files =>
    match answer with
    | .listing result =>
      (proceed (result >>= validateListing) (fun remote => .comparing peer root localName files remote), m)
    | _ => (.listing peer root localName files, m)
  | .comparing peer root localName files remote =>
    (proceed (syncPlan (baseline m.store peer.ownerPk) files remote localName peer.name.name)
      (fun planned => .working peer root planned.1 planned.2), m)
  | .working peer root [] merged =>
    (proceed (do
      let files ← scan c m.tree
      refuseIf (files ≠ merged) (changed "(tree changed during sync)")) (fun _ => .vouching peer root merged), m)
  | .working peer root (ch :: rest) merged =>
    if ch.toRemote then
      (proceed (offered c m.tree.live ch) (fun data => .offering peer root ch data rest merged), m)
    else
      match ch.new with
      | some new => (.pulling peer root ch new rest merged, m)
      | none => (.placing peer root ch none rest merged, m)
  | .offering peer root ch data rest merged =>
    (proceed (currentSyncAuthority m peer root) (fun _ => .pushing peer root ch data rest merged), m)
  | .pushing peer root ch data rest merged =>
    match answer with
    | .done result => (proceed result (fun _ => .working peer root rest merged), m)
    | _ => (.pushing peer root ch data rest merged, m)
  | .pulling peer root ch new rest merged =>
    match answer with
    | .content result =>
      (proceed (result >>= unhex) (fun bytes => .placing peer root ch (some bytes) rest merged), m)
    | _ => (.pulling peer root ch new rest merged, m)
  | .placing peer root ch bytes rest merged =>
    match currentSyncAuthority m peer root with
    | .error e => (.ended (.error e), m)
    | .ok () =>
      let applied := apply c host m.store ch bytes ids m.tree
      (proceed applied.1 (fun _ => .working peer root rest merged), { m with tree := applied.2 })
  | .vouching peer root merged =>
    (proceed (currentSyncAuthority m peer root) (fun _ => .committing peer root merged), m)
  | .committing peer root merged =>
    match answer with
    | .done result => (proceed result (fun _ => .rescanning peer root merged), m)
    | _ => (.committing peer root merged, m)
  | .rescanning peer root merged =>
    (proceed (do
      let files ← scan c m.tree
      refuseIf (files ≠ merged) (changed "(tree changed during commit)")) (fun _ => .recording peer root merged), m)
  | .recording peer root merged =>
    match currentSyncAuthority m peer root with
    | .error e => (.ended (.error e), m)
    | .ok () =>
      let saved := record c w peer.ownerPk merged m.store
      (.ended saved.2, { m with store := saved.1 })
  | .ended result => (.ended result, m)

/-! ## Taking a peer's version -/

/-- Where taking the peer's version of a conflict stands. -/
inductive Taking where
  | called
  | scanning (peer : Peer) (root : String) (base : Manifest)
  | listing (peer : Peer) (base files : Manifest)
  | choosing
  | pulling (peer : Peer) (root : String)
  | placing (peer : Peer) (root : String) (bytes : Option Bytes)
  | ended (result : Result Unit)

def Taking.isEnded : Taking → Bool
  | ended _ => true
  | _ => false

def takeOn {α : Type} (result : Result α) (next : α → Taking) : Taking :=
  match result with
  | .error e => .ended (.error e)
  | .ok value => next value

def ownerPeer (s : Store) (name : String) : Result Peer := do
  ensureEnabled s
  match s.peers.find? (fun p => p.name.name == name) with
  | none => .error (.usage (name ++ " is not paired"))
  | some peer => .ok peer

def staleChoice : ClixError := changed "pin peer or baseline changed"

/-- One step of taking the peer's version of an inspected conflict. -/
def takeStep (c : Crypto) (host : Host) (ids : Ids) (selected : PinConflictSnapshot) (answer : Answer)
    (m : Machine) : Taking → Taking × Machine
  | .called =>
    (takeOn (ownerPeer m.store selected.peer)
      (fun peer => .scanning peer m.root (baseline m.store peer.ownerPk)), m)
  | .scanning peer _ base => (takeOn (scan c m.tree) (fun files => .listing peer base files), m)
  | .listing peer base files =>
    match answer with
    | .listing result =>
      (takeOn (do
        let remote ← result >>= validateListing
        refuseIf ((inspectPeerConflicts c peer base files remote).conflicts.contains selected = false)
          (changed "pin conflict inspection is stale; inspect again")) (fun _ => .choosing), m)
    | _ => (.listing peer base files, m)
  | .choosing =>
    (takeOn (do
      let peer ← ownerPeer m.store selected.peer
      refuseIf (key peer.ownerPk ≠ selected.peerKey ∨
        (baseline m.store peer.ownerPk).get? selected.path ≠ selected.localBaseline) staleChoice
      return peer) (fun peer =>
        if selected.remote.isSome then .pulling peer m.root else .placing peer m.root none), m)
  | .pulling peer root =>
    match answer with
    | .content result => (takeOn (result >>= unhex) (fun bytes => .placing peer root (some bytes)), m)
    | _ => (.pulling peer root, m)
  | .placing peer root bytes =>
    match (do
      currentSyncAuthority m peer root
      refuseIf ((baseline m.store peer.ownerPk).get? selected.path ≠ selected.localBaseline) staleChoice) with
    | .error e => (.ended (.error e), m)
    | .ok () =>
      let applied := apply c host m.store
        ⟨selected.path, selected.local_, selected.remote, false⟩ bytes ids m.tree
      (.ended applied.1, { m with tree := applied.2 })
  | .ended result => (.ended result, m)

/-! ## A machine at work -/

/-- A session of a machine in flight. -/
inductive Session where
  | sync (stage : Stage)
  | take (selected : PinConflictSnapshot) (stage : Taking)

def Session.isEnded : Session → Bool
  | sync stage => stage.isEnded
  | take _ stage => stage.isEnded

/-- A machine with the sessions it has started. -/
structure Body where
  machine : Machine
  sessions : List Session

/-- What happens at a machine. -/
inductive Event where
  /-- The owner turns pin on or off. -/
  | switch (enabled : Bool) (w : Weather)
  /-- Any other update of the state. -/
  | update (store : Store)
  /-- The owner edits the tree. -/
  | edit (tree : Tree)
  /-- A synchronization is called, by the owner or after pairing. -/
  | begin (name : String)
  | take (selected : PinConflictSnapshot)
  /-- A session takes its next step. -/
  | advance (session : ℕ) (w : Weather) (ids : Ids) (answer : Answer)
  /-- A request of a peer is served. -/
  | request (peer : Peer) (request : Request) (w : Weather) (ids : Ids)

/-- One step of a session. -/
def Session.step (c : Crypto) (host : Host) (w : Weather) (ids : Ids) (answer : Answer) (m : Machine) :
    Session → Session × Machine
  | sync stage =>
    let next := syncStep c host w ids answer m stage
    (sync next.1, next.2)
  | take selected stage =>
    let next := takeStep c host ids selected answer m stage
    (take selected next.1, next.2)

/-- One event. Other updates touch neither the pin switch nor the baselines. -/
def Body.step (c : Crypto) (host : Host) (b : Body) : Event → Body
  | .switch enabled w => { b with machine := { b.machine with
      store := (switchPin c w enabled b.machine.store).1 } }
  | .update store => { b with machine := { b.machine with store := { store with
      pinEnabled := b.machine.store.pinEnabled
      pinIndex := { store.pinIndex with peers := b.machine.store.pinIndex.peers } } } }
  | .edit tree => { b with machine := { b.machine with tree := tree } }
  | .begin name =>
    match ensureEnabled b.machine.store with
    | .error _ => b
    | .ok () => { b with sessions := b.sessions ++ [.sync (.called name)] }
  | .take selected => { b with sessions := b.sessions ++ [.take selected .called] }
  | .advance k w ids answer =>
    match b.sessions[k]? with
    | none => b
    | some session =>
      let next := session.step c host w ids answer b.machine
      ⟨next.2, b.sessions.set k next.1⟩
  | .request peer request w ids => { b with machine := (serve c host w ids peer b.machine request).1 }

def Body.run (c : Crypto) (host : Host) (b : Body) (events : List Event) : Body :=
  events.foldl (Body.step c host) b

end Pin

end Clix
