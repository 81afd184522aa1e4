import Clix.Model.Mesh

/-! # One machine reading the history of another

The reader sends a request in one critical section, the publisher answers it in another, and the reader merges the page
in a third, if its own progress is still where the request left it. In between both go on with anything, fail to save,
stop and start again. A page may be lost, come late, or come twice. The publisher may also lose its saved state and
begin a history of another epoch.
-/

namespace Clix

structure Replication where
  publisher : Daemon
  reader : Daemon
  /-- The pages served so far, each with the request it answers. -/
  served : List (Sync × Page)
  /-- The epochs of the histories that the publisher has lost. -/
  lost : List String

namespace Replication

inductive Event where
  | publisher (env : Env) (event : Clix.Event)
  | reader (env : Env) (event : Clix.Event)
  | serve (sync : Sync)
  /-- The publisher begins again, under the random epoch of a new history. -/
  | begin (epoch hostname : String) (seed : Bytes)

variable (c : Crypto) (name : BodyId)

/-- The publisher answers a request of the reader. -/
def serve (r : Replication) (sync : Sync) : Replication :=
  if r.publisher.live = false ∨ sync ∉ r.reader.syncs ∨ sync.peer ≠ name then r
  else
    match Mesh.Node.historyPage c r.publisher.store sync.progress.epoch (some sync.progress.cursor)
        (History.requestHigh sync.progress) with
    | .ok (.page page) => { r with served := (sync, page) :: r.served }
    | _ => r

/-- Pages under the publisher's name come from the publisher, as the reader asks the holder of its key. -/
def isGenuine (r : Replication) : Clix.Event → Bool
  | .mergePage sync page => decide (sync.peer ≠ name) || decide ((sync, page) ∈ r.served)
  | _ => true

def step (r : Replication) : Event → Replication
  | .publisher env event => { r with publisher := r.publisher.step c (env, event) }
  | .reader env event => if r.isGenuine name event then { r with reader := r.reader.step c (env, event) } else r
  | .serve sync => r.serve c name sync
  | .begin epoch hostname seed =>
    if epoch = "" ∨ epoch = r.publisher.store.history.epoch ∨ epoch ∈ r.lost then r
    else { r with
      publisher := Daemon.fresh c epoch hostname seed
      lost := r.publisher.store.history.epoch :: r.lost }

def run (r : Replication) (events : List Event) : Replication := events.foldl (step c name) r

/-- A publisher that was just installed, and a reader with some saved state. -/
def start (epoch hostname : String) (seed : Bytes) (reader : Store) : Replication :=
  ⟨Daemon.fresh c epoch hostname seed, Daemon.installed reader, [], []⟩

/-- How far the reader has read. -/
def progress (r : Replication) : Progress := History.progress r.reader.store name

end Replication

end Clix
