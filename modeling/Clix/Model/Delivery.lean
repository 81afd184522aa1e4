import Clix.Model.Daemon

/-! # Delivering requests

A machine delivers an outgoing request until the machine it is for has answered. What it sent may arrive at any later
time, any number of times or never, and so may the answer.
-/

namespace Clix

open Except

/-- The outgoing request that an event takes for delivered. -/
def Event.settles : Event → Option String
  | .settleRequest id (.ok ()) => some id
  | _ => none

/-- Record a delivered request, and answer. -/
def Daemon.receive (c : Crypto) (env : Env) (d : Daemon) (peer : Peer) (tool id : String) : Daemon × Result Request :=
  d.quietUpdate c env (fun s => Request.receive env.newId s peer.name tool (some id))

/-- A delivery of an outgoing request: the machine it is for, as paired, and the key of the caller. -/
structure Call where
  row : OutboundRequest
  peer : Peer
  key : Bytes
  deriving DecidableEq

/-- The machines at both ends of deliveries, and what is between them. -/
structure Exchange where
  sender : Daemon
  receiver : Daemon
  /-- The rows that the dispatcher took up. -/
  picked : List OutboundRequest
  calls : List Call
  /-- The calls that were answered. -/
  acks : List Call

inductive Move where
  | send (env : Env) (event : Event)
  | receive (env : Env) (event : Event)
  | pick (id : String)
  | call (row : OutboundRequest)
  | arrive (env : Env) (call : Call) (peer : Peer)
  | settle (env : Env) (call : Call) (result : Result Unit)

namespace Exchange

variable (c : Crypto) (receiverKey : Bytes)

/-- The dispatcher takes up a row that no error stopped. -/
def pick (x : Exchange) (id : String) : Exchange :=
  match x.sender.store.outboundRequests.find? (fun r => r.id == id && r.error.isNone) with
  | none => x
  | some row => { x with picked := row :: x.picked }

/-- Call the machine that is paired under the name in the row. -/
def call (x : Exchange) (row : OutboundRequest) : Exchange :=
  if row ∉ x.picked ∨ x.sender.live = false then x
  else
    match x.sender.store.ensureWritable, x.sender.store.peer? row.body, Pair.ownerPk c x.sender.store.ownerSk with
    | .ok (), some peer, .ok key => { x with calls := ⟨row, peer, key⟩ :: x.calls }
    | _, _, _ => x

/-- A call of the receiver's key reaches it, on a connection that the caller's key opened. -/
def arrive (env : Env) (x : Exchange) (call : Call) (peer : Peer) : Exchange :=
  if call ∉ x.calls ∨ call.peer.ownerPk ≠ receiverKey ∨ x.receiver.live = false ∨ peer ∉ x.receiver.conns ∨
      peer.ownerPk ≠ call.key then x
  else
    match x.receiver.receive c env peer call.row.tool call.row.id with
    | (receiver, .ok _) => { x with receiver := receiver, acks := call :: x.acks }
    | (receiver, .error _) => { x with receiver := receiver }

/-- The sender learns what became of a call. Only an answer is a success. -/
def settle (env : Env) (x : Exchange) (call : Call) (result : Result Unit) : Exchange :=
  if call ∉ x.calls ∨ (result = .ok () ∧ call.peer.ownerPk = receiverKey ∧ call ∉ x.acks) then x
  else { x with sender := x.sender.step c (env, .settleRequest call.row.id result) }

/-- Both machines do anything else in between. -/
def step (x : Exchange) : Move → Exchange
  | .send env event => if event.settles = none then { x with sender := x.sender.step c (env, event) } else x
  | .receive env event => { x with receiver := x.receiver.step c (env, event) }
  | .pick id => x.pick id
  | .call row => x.call c row
  | .arrive env call peer => x.arrive c receiverKey env call peer
  | .settle env call result => x.settle c receiverKey env call result

def run (x : Exchange) (moves : List Move) : Exchange := moves.foldl (step c receiverKey) x

/-- Two machines between which nothing was sent yet. -/
def between (sender receiver : Daemon) : Exchange := ⟨sender, receiver, [], [], []⟩

end Exchange

end Clix
