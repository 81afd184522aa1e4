import Clix.Model.Daemon

/-! # Jobs and grants, abstractly

A desk is what decides whether a command may run: this machine's name, one row for each job without
its output, the grants, and the paired machines. A deed is one change of it. Whatever an update does to
history, output or diagnostics, its desk changes by a deed or not at all.
-/

namespace Clix

/-- A job without its output. -/
structure Row where
  id : String
  body : BodyId
  origin : BodyId
  argv : List String
  status : JobStatus
  deriving DecidableEq, Repr

def Job.row (j : Job) : Row := ⟨j.id, j.body, j.origin, j.argv, j.status⟩

structure Desk where
  name : String
  rows : List Row
  grants : List Grant
  peers : List Peer

def Store.desk (s : Store) : Desk := ⟨s.bodyName, s.jobs.map Job.row, s.grants, s.peers⟩

/-- One change of a desk. -/
inductive Deed where
  | quiet
  | rename (name : String)
  | pair (peers : List Peer)
  /-- An owner decision replaces the grants for one tool, by a grant or by none. -/
  | owner (tool : String) (grant : Option Grant) (grants : List Grant)
  | enqueue (row : Row)
  | accept (row : Row) (grant : Grant)
  | deny (row : Row)
  | finish (row : Row) (grant : Grant) (success : Option Bool)
  /-- What a peer reports, or a failed delivery, about a row of another machine. -/
  | note (id : String) (status : JobStatus)
  /-- A local submission that failed. -/
  | requeue (id : String) (status : JobStatus)
  /-- Every interrupted run becomes uncertain. -/
  | recover (reason : String)
  /-- The completion of a run was lost. -/
  | lose (id : String) (reason : String)

/-- The acts a deed records. -/
def Deed.acts : Deed → List Act
  | .owner tool grant _ => [.owner tool grant]
  | .accept row grant => [.admitted row.id grant]
  | _ => []

/-- Deeds that leave the runs of this machine alone. -/
def Deed.isPlain : Deed → Bool
  | .accept _ _ | .finish _ _ _ | .recover _ | .lose _ _ => false
  | _ => true

/-- Whether a deed may end the run of a job. -/
def Deed.Ends (id : String) : Deed → Prop
  | .finish row _ _ => row.id = id
  | .lose other _ => other = id
  | .recover _ => True
  | _ => False

namespace Desk

def row? (d : Desk) (id : String) : Option Row := d.rows.find? (fun r => r.id == id)

def grant? (d : Desk) (tool : String) : Option Grant := d.grants.find? (fun g => g.tool == tool)

def putRow (d : Desk) (row : Row) : Desk := { d with rows := d.rows.put (fun r => r.id == row.id) row }

def setStatus (d : Desk) (id : String) (status : JobStatus) : Desk :=
  { d with rows := d.rows.modifyFirst (fun r => r.id == id) (fun r => { r with status := status }) }

def interrupt (d : Desk) (reason : String) : Desk :=
  { d with rows := d.rows.map (fun r =>
      if r.body.name = d.name ∧ r.status = .running then { r with status := .uncertain reason } else r) }

def apply (d : Desk) : Deed → Desk
  | .quiet => d
  | .rename name => { d with name := name }
  | .pair peers => { d with peers := peers }
  | .owner _ _ grants => { d with grants := grants }
  | .enqueue row => { d with rows := d.rows ++ [row] }
  | .accept row grant =>
    { d.putRow row with grants := if grant.once then Exec.reserveGrant d.grants grant.tool row.id else d.grants }
  | .deny row => d.putRow row
  | .finish row grant success => { d.putRow row with grants := Exec.settleGrant d.grants grant row.id success }
  | .note id status => d.setStatus id status
  | .requeue id status => d.setStatus id status
  | .recover reason => d.interrupt reason
  | .lose id reason => d.setStatus id (.uncertain reason)

/-- A row may be started when its ID is new, or waits in this machine's own queue. -/
def Startable (d : Desk) (row : Row) : Prop :=
  row.body.name = d.name ∧
    ∀ old, d.row? row.id = some old → old.status.isLocalQueue = true ∧ old.body = row.body ∧
      old.origin = row.origin ∧ old.argv = row.argv

/-- An ID under which nothing may ever be started again: its run is over, or is this machine's own. -/
def Settled (d : Desk) (id : String) : Prop :=
  Pair.isName d.name = true ∧ ∃ row, d.row? id = some row ∧
    (row.status.isTerminal = true ∨ (row.status = .running ∧ row.body.name = d.name))

/-- Identifiers name one row each. -/
def Unique (d : Desk) : Prop := (d.rows.map (·.id)).Nodup

/-- The row of a run that is going on. -/
def Running (d : Desk) (row : Row) : Prop :=
  ∃ old, d.row? row.id = some old ∧ old.status = .running ∧ old.body = row.body ∧
    old.origin = row.origin ∧ old.argv = row.argv ∧ row.body.name = d.name

/-- The row of a job that another machine runs. -/
def Foreign (d : Desk) (id : String) : Prop := ∃ row, d.row? id = some row ∧ row.body.name ≠ d.name

/-- A row with this command that this machine asked itself for. -/
def Own (d : Desk) (row : Row) : Prop := row.origin.name = d.name ∧
  ∃ old, d.row? row.id = some old ∧ old.body = row.body ∧ old.origin = row.origin ∧ old.argv = row.argv

/-- A peer with this name and key is paired. -/
def Knows (d : Desk) (p : Peer) : Prop := ∃ q ∈ d.peers, q.name = p.name ∧ q.ownerPk = p.ownerPk

/-- A status a finished run is given, with what is known of its success. -/
def isOutcome (success : Option Bool) : JobStatus → Bool
  | .uncertain _ => success.isNone
  | .done _ | .failed _ => success.isSome
  | _ => false

/-- When a deed may be done. -/
def Allows (d : Desk) : Deed → Prop
  | .quiet => True
  | .rename name => Pair.isName name = true ∧ d.peers = [] ∧
      (Pair.isName d.name = false ∨ (d.rows = [] ∧ d.grants = []))
  | .pair peers => ∀ p ∈ d.peers, Knows { d with peers := peers } p
  | .owner tool grant grants =>
    grants.filter (fun g => g.tool != tool) = d.grants.filter (fun g => g.tool != tool) ∧
      (∀ g, grant = some g → g.tool = tool ∧ g.reservation = none ∧ g ∈ grants) ∧
      ((d.grants.map (·.tool)).Nodup →
        (grants.map (·.tool)).Nodup ∧ ∀ g ∈ grants, g.tool = tool → grant = some g)
  | .enqueue row => row.status = .queued ∧ d.row? row.id = none
  | .accept row grant => d.Startable row ∧ row.status = .running ∧ row.argv.head? = some grant.tool ∧
      d.grant? grant.tool = some grant ∧ grant.reservation = none
  | .deny row => d.Startable row ∧ ∃ reason, row.status = .denied reason
  | .finish row grant success => d.Running row ∧ row.argv.head? = some grant.tool ∧
      isOutcome success row.status = true
  | .note id _ => ∃ old, d.row? id = some old ∧ old.status.isTerminal = false ∧ old.body.name ≠ d.name
  | .requeue id status => ∃ old, d.row? id = some old ∧ old.status.isLocalQueue = true ∧
      (status = .waitingCapacity ∨ ∃ reason, status = .failed reason)
  | .recover _ => True
  | .lose id _ => ∃ old, d.row? id = some old ∧ old.status = .running ∧ old.body.name = d.name

end Desk

end Clix
