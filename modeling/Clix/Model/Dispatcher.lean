import Clix.Model.Dispatch
import Clix.ToMathlib.Rotation

/-! # The dispatcher's rounds

A round lists what may be attempted, scans it in turn behind the last key that was started, and starts what is neither
running nor delayed while there is room. Tasks finish whenever they do, and are joined later.
-/

namespace Clix

/-- A spawned attempt. It stays until it is joined. -/
structure Attempt where
  id : ℕ
  key : String
  finished : Bool
  deriving DecidableEq, Repr

structure Dispatcher where
  tasks : List Attempt
  /-- The keys of the tasks that were not joined yet. -/
  active : List (ℕ × String)
  nextAttempt : OrdMap String ℕ
  cursor : String
  /-- The identifier of the next task. -/
  nextId : ℕ

/-- What a round reads. -/
structure Round where
  store : Store
  now : ℕ
  pollInterval : ℕ

inductive Dispatcher.Event where
  | round (r : Round)
  | finish (id : ℕ)
  /-- A finished task is joined. -/
  | join (id : ℕ)

namespace Dispatcher

def initial : Dispatcher := ⟨[], [], ∅, "", 0⟩

/-- The keys of what may be attempted, in order. -/
def candidates (s : Store) : List String :=
  let jobs := s.jobs.filterMap (fun j =>
    if Dispatch.isOutbound s j then some ("job:" ++ j.id)
    else if Dispatch.isLocal s j then some ("local:" ++ j.id)
    else none)
  let requests := (s.outboundRequests.filter (fun r => r.error.isNone)).map (fun r => "request:" ++ r.id)
  let peers := s.peers.map (fun p => "history:" ++ p.name.name)
  (jobs ++ requests ++ peers).insertionSort (· ≤ ·)

def isActive (d : Dispatcher) (key : String) : Bool := d.active.any (fun running => running.2 == key)

/-- Whether the next attempt at a key lies in the future. -/
def isDelayed (d : Dispatcher) (now : ℕ) (key : String) : Bool := (d.nextAttempt.get? key).any (fun due => decide (now < due))

def spawn (d : Dispatcher) (r : Round) (key : String) : Dispatcher :=
  { d with
    tasks := d.tasks ++ [⟨d.nextId, key, false⟩]
    active := d.active ++ [(d.nextId, key)]
    nextAttempt := d.nextAttempt.insert key (r.now + r.pollInterval)
    nextId := d.nextId + 1 }

/-- Start keys in order while fewer than `cap` tasks are there. -/
def scan (cap : ℕ) (r : Round) (d : Dispatcher) : List String → Dispatcher × List String
  | [] => (d, [])
  | key :: rest =>
    if cap ≤ d.tasks.length then (d, [])
    else if d.isActive key || d.isDelayed r.now key then scan cap r d rest
    else
      let (d, started) := scan cap r (d.spawn r key) rest
      (d, key :: started)

/-- Delays are kept for candidates only. -/
def retain (d : Dispatcher) (keys : List String) : Dispatcher :=
  { d with nextAttempt := d.nextAttempt.restrict (fun key => keys.contains key) }

/-- One round, with the keys it starts. -/
def round (cap : ℕ) (r : Round) (d : Dispatcher) : Dispatcher × List String :=
  let keys := candidates r.store
  let (d, started) := scan cap r (d.retain keys) (Rotation.order d.cursor keys)
  ({ d with cursor := started.getLastD d.cursor }, started)

def finish (d : Dispatcher) (id : ℕ) : Dispatcher :=
  { d with tasks := d.tasks.map (fun t => if t.id = id then { t with finished := true } else t) }

def join (d : Dispatcher) (id : ℕ) : Dispatcher :=
  if d.tasks.any (fun t => t.id == id && t.finished) then
    { d with
      tasks := d.tasks.filter (fun t => t.id != id)
      active := d.active.filter (fun running => running.1 != id) }
  else d

/-- One event, with the keys it starts. -/
def step (cap : ℕ) (d : Dispatcher) : Event → Dispatcher × List String
  | .round r => d.round cap r
  | .finish id => (d.finish id, [])
  | .join id => (d.join id, [])

/-- A run, with the keys it starts in order. -/
def run (cap : ℕ) (d : Dispatcher) : List Event → Dispatcher × List String
  | [] => (d, [])
  | e :: rest =>
    let (d, first) := d.step cap e
    let (d, later) := run cap d rest
    (d, first ++ later)

end Dispatcher

end Clix
