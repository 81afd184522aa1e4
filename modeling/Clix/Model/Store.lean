import Clix.Model.Types
import Clix.Model.Error
import Clix.Model.Crypto
import Clix.ToMathlib.ListFirst

/-! # Signed history records and the saved state

A record certifies one invocation and carries at most one signed fact of its origin and one of its
runner. The store keeps, besides its own jobs and grants, every record it admitted or learned, and
how far it has read the history of each paired machine. Counters are 64-bit words.
-/

namespace Clix

structure Invocation where
  id : String
  origin : BodyId
  originKey : Bytes
  body : BodyId
  runnerKey : Bytes
  argv : List String
  retryOf : Option String
  /-- The machine that observed its own record from before histories were signed. -/
  legacyObserver : Option BodyId
  deriving DecidableEq, Repr

structure Certificate where
  invocation : Invocation
  signature : Bytes
  deriving DecidableEq, Repr

inductive Role where
  | origin | runner | legacyObserver
  deriving DecidableEq, Repr

structure OutputRef where
  bytes : ℕ
  sha256 : String
  deriving DecidableEq, Repr

def OutputRef.of (c : Crypto) (bytes : Bytes) : OutputRef := ⟨bytes.length, c.hash bytes⟩

structure Fact where
  invocation : String
  role : Role
  revision : UInt64
  status : JobStatus
  stdout : OutputRef
  stderr : OutputRef
  deriving DecidableEq, Repr

structure SignedFact where
  fact : Fact
  signature : Bytes
  deriving DecidableEq, Repr

structure Record where
  certificate : Certificate
  origin : Option SignedFact
  runner : Option SignedFact
  deriving DecidableEq, Repr

/-- A runner fact is preferred over an origin observation. -/
def Record.selected (r : Record) : Option SignedFact := r.runner <|> r.origin

structure CapturedOutput where
  stdout : Bytes
  stderr : Bytes
  deriving DecidableEq, Repr

structure Entry where
  record : Record
  change : UInt64
  /-- Payload of a record whose output is not already kept with a local job. -/
  output : Option CapturedOutput
  deriving DecidableEq, Repr

/-- How far the history of one peer has been read. -/
structure Progress where
  epoch : String
  cursor : UInt64
  high : UInt64
  complete : Bool
  unknownAuthors : Bool
  lastContact : Option UInt64
  error : Option String
  deriving DecidableEq, Repr

def Progress.default : Progress := ⟨"", 0, 0, false, false, none, none⟩

structure History where
  initialized : Bool
  epoch : String
  clock : UInt64
  trust : String
  entries : OrdMap String Entry
  peers : OrdMap String Progress

def History.default : History := ⟨false, "", 0, "", ∅, ∅⟩

structure Published where
  record : Record
  output : Option CapturedOutput
  change : UInt64
  deriving DecidableEq, Repr

structure Page where
  epoch : String
  reset : Bool
  high : UInt64
  next : UInt64
  complete : Bool
  entries : List Published
  deriving DecidableEq, Repr

structure Fingerprint where
  hash : String
  mode : UInt32
  deriving DecidableEq, Repr

/-- The last successful synchronisation of pinned files. -/
structure PinIndex where
  peers : OrdMap String (OrdMap String Fingerprint)
  lastSync : Option UInt64
  hashes : OrdMap String String
  lastError : Option String

def PinIndex.default : PinIndex := ⟨∅, none, ∅, none⟩

/-- The state of one machine. Everything but `writeError` is saved. -/
structure Store where
  writeError : Option String
  bodyName : String
  ownerSk : Bytes
  peers : List Peer
  grants : List Grant
  jobs : List Job
  requests : List Request
  outboundRequests : List OutboundRequest
  requestReceipts : List RequestReceipt
  pinIndex : PinIndex
  history : History
  retryLinks : OrdMap String String
  jobCertificates : OrdMap String String
  legacyJobs : OrdSet String
  outputPruned : OrdSet String
  historyPruned : OrdSet String
  formatVersion : UInt32
  pinEnabled : Bool

namespace Store

/-- The job a lookup by ID finds: the first row with that ID. -/
def job? (s : Store) (id : String) : Option Job := s.jobs.find? (fun j => j.id == id)

/-- The first grant for a tool. -/
def grant? (s : Store) (tool : String) : Option Grant := s.grants.find? (fun g => g.tool == tool)

def peer? (s : Store) (name : BodyId) : Option Peer := s.peers.find? (fun p => p.name == name)

/-- Replace the first row with the job's ID, or append it. -/
def setJob (s : Store) (job : Job) : Store :=
  { s with jobs := s.jobs.put (fun j => j.id == job.id) job }

def setEntry (s : Store) (key : String) (entry : Entry) : Store :=
  { s with history := { s.history with entries := s.history.entries.insert key entry } }

end Store

end Clix
