import Clix.Model.Encode
import Clix.Model.Limits
import Clix.ToMathlib.JsonValue

/-! # Certificates, facts and records in messages

A message is a JSON value, whose objects keep their fields in the order of the names, and is read from its text. A
certificate goes out with a request to execute, and records come back with the answer to it and in history pages.
-/

namespace Clix

open Json

/-- A machine is its name. -/
instance : ToValue BodyId := ⟨fun _ b => .string b.name⟩

instance : FromValue BodyId := ⟨fun word v => (fromValue word v).map BodyId.mk, none⟩

/-- A status without more to say is a name, another one an object of one field. -/
instance : ToValue JobStatus :=
  ⟨fun order => fun
    | .queued => .string "Queued"
    | .waitingBody => .string "WaitingBody"
    | .waitingCapacity => .string "WaitingCapacity"
    | .running => .string "Running"
    | .done exit => variantValue "Done" "exit" (toValue order exit)
    | .denied reason => variantValue "Denied" "reason" (toValue order reason)
    | .failed reason => variantValue "Failed" "reason" (toValue order reason)
    | .uncertain reason => variantValue "Uncertain" "reason" (toValue order reason)⟩

instance : FromValue JobStatus :=
  ⟨fun word v => do
    let (name, content) ← v.variant
    match name with
    | "Queued" => plain .queued content
    | "WaitingBody" => plain .waitingBody content
    | "WaitingCapacity" => plain .waitingCapacity content
    | "Running" => plain .running content
    | "Done" => (onlyField word "exit" content).map .done
    | "Denied" => (onlyField word "reason" content).map .denied
    | "Failed" => (onlyField word "reason" content).map .failed
    | "Uncertain" => (onlyField word "reason" content).map .uncertain
    | _ => none, none⟩

instance : ToValue Role :=
  ⟨fun _ => fun
    | .origin => .string "origin"
    | .runner => .string "runner"
    | .legacyObserver => .string "legacy_observer"⟩

instance : FromValue Role :=
  ⟨fun _ v => do
    let (name, content) ← v.variant
    match name with
    | "origin" => plain .origin content
    | "runner" => plain .runner content
    | "legacy_observer" => plain .legacyObserver content
    | _ => none, none⟩

/-- The fields of an output in the order in which they are declared. -/
def OutputRef.names : List String := ["bytes", "sha256"]

def OutputRef.values (order : Fields → Fields) (o : OutputRef) : List Value :=
  [toValue order o.bytes, toValue order o.sha256]

instance : ToValue OutputRef := ⟨fun order o => record order OutputRef.names (o.values order)⟩

instance : FromValue OutputRef :=
  ⟨fun word v => do
    let fields ← v.fields OutputRef.names
    return ⟨← fieldOf word fields "bytes", ← fieldOf word fields "sha256"⟩, none⟩

/-- The fields of a fact. -/
def Fact.names : List String := ["invocation", "role", "revision", "status", "stdout", "stderr"]

def Fact.values (order : Fields → Fields) (f : Fact) : List Value :=
  [toValue order f.invocation, toValue order f.role, toValue order f.revision, toValue order f.status,
    toValue order f.stdout, toValue order f.stderr]

instance : ToValue Fact := ⟨fun order f => record order Fact.names (f.values order)⟩

instance : FromValue Fact :=
  ⟨fun word v => do
    let fields ← v.fields Fact.names
    return {
      invocation := ← fieldOf word fields "invocation"
      role := ← fieldOf word fields "role"
      revision := ← fieldOf word fields "revision"
      status := ← fieldOf word fields "status"
      stdout := ← fieldOf word fields "stdout"
      stderr := ← fieldOf word fields "stderr" }, none⟩

/-- The fields of an invocation. The optional ones are written as null when they are absent. -/
def Invocation.names : List String :=
  ["id", "from", "origin_key", "body", "runner_key", "argv", "retry_of", "legacy_observer"]

def Invocation.values (order : Fields → Fields) (i : Invocation) : List Value :=
  [toValue order i.id, toValue order i.origin, toValue order i.originKey, toValue order i.body,
    toValue order i.runnerKey, toValue order i.argv, toValue order i.retryOf, toValue order i.legacyObserver]

instance : ToValue Invocation := ⟨fun order i => record order Invocation.names (i.values order)⟩

instance : FromValue Invocation :=
  ⟨fun word v => do
    let fields ← v.fields Invocation.names
    return {
      id := ← fieldOf word fields "id"
      origin := ← fieldOf word fields "from"
      originKey := ← fieldOf word fields "origin_key"
      body := ← fieldOf word fields "body"
      runnerKey := ← fieldOf word fields "runner_key"
      argv := ← fieldOf word fields "argv"
      retryOf := ← fieldOf word fields "retry_of"
      legacyObserver := ← fieldOf word fields "legacy_observer" }, none⟩

/-- The fields of a certificate. -/
def Certificate.names : List String := ["invocation", "signature"]

def Certificate.values (order : Fields → Fields) (c : Certificate) : List Value :=
  [toValue order c.invocation, toValue order c.signature]

instance : ToValue Certificate := ⟨fun order c => record order Certificate.names (c.values order)⟩

instance : FromValue Certificate :=
  ⟨fun word v => do
    let fields ← v.fields Certificate.names
    return ⟨← fieldOf word fields "invocation", ← fieldOf word fields "signature"⟩, none⟩

def SignedFact.names : List String := ["fact", "signature"]

def SignedFact.values (order : Fields → Fields) (f : SignedFact) : List Value :=
  [toValue order f.fact, toValue order f.signature]

instance : ToValue SignedFact := ⟨fun order f => record order SignedFact.names (f.values order)⟩

instance : FromValue SignedFact :=
  ⟨fun word v => do
    let fields ← v.fields SignedFact.names
    return ⟨← fieldOf word fields "fact", ← fieldOf word fields "signature"⟩, none⟩

/-- The fields of a record; a fact that nobody has told is null. -/
def Record.names : List String := ["certificate", "origin", "runner"]

def Record.values (order : Fields → Fields) (r : Record) : List Value :=
  [toValue order r.certificate, toValue order r.origin, toValue order r.runner]

instance : ToValue Record := ⟨fun order r => record order Record.names (r.values order)⟩

instance : FromValue Record :=
  ⟨fun word v => do
    let fields ← v.fields Record.names
    return {
      certificate := ← fieldOf word fields "certificate"
      origin := ← fieldOf word fields "origin"
      runner := ← fieldOf word fields "runner" }, none⟩

def CapturedOutput.names : List String := ["stdout", "stderr"]

def CapturedOutput.values (order : Fields → Fields) (o : CapturedOutput) : List Value :=
  [toValue order o.stdout, toValue order o.stderr]

instance : ToValue CapturedOutput := ⟨fun order o => record order CapturedOutput.names (o.values order)⟩

instance : FromValue CapturedOutput :=
  ⟨fun word v => do
    let fields ← v.fields CapturedOutput.names
    return ⟨← fieldOf word fields "stdout", ← fieldOf word fields "stderr"⟩, none⟩

/-- The fields of a row of a page. -/
def Published.names : List String := ["record", "output", "change"]

def Published.values (order : Fields → Fields) (p : Published) : List Value :=
  [toValue order p.record, toValue order p.output, toValue order p.change]

instance : ToValue Published := ⟨fun order p => Json.record order Published.names (p.values order)⟩

instance : FromValue Published :=
  ⟨fun word v => do
    let fields ← v.fields Published.names
    return {
      record := ← fieldOf word fields "record"
      output := ← fieldOf word fields "output"
      change := ← fieldOf word fields "change" }, none⟩

/-- The fields of a page. -/
def Page.names : List String := ["epoch", "reset", "high", "next", "complete", "entries"]

def Page.values (order : Fields → Fields) (p : Page) : List Value :=
  [toValue order p.epoch, toValue order p.reset, toValue order p.high, toValue order p.next,
    toValue order p.complete, toValue order p.entries]

instance : ToValue Page := ⟨fun order p => record order Page.names (p.values order)⟩

instance : FromValue Page :=
  ⟨fun word v => do
    let fields ← v.fields Page.names
    return {
      epoch := ← fieldOf word fields "epoch"
      reset := ← fieldOf word fields "reset"
      high := ← fieldOf word fields "high"
      next := ← fieldOf word fields "next"
      complete := ← fieldOf word fields "complete"
      entries := ← fieldOf word fields "entries" }, none⟩

/-- The fields of a row; its origin is called `from`. -/
def Job.names : List String := ["id", "body", "argv", "from", "status", "stdout", "stderr"]

def Job.values (order : Fields → Fields) (j : Job) : List Value :=
  [toValue order j.id, toValue order j.body, toValue order j.argv, toValue order j.origin, toValue order j.status,
    toValue order j.stdout, toValue order j.stderr]

instance : ToValue Job := ⟨fun order j => record order Job.names (j.values order)⟩

namespace Mesh

/-- A message in a frame, and what is read from it. -/
def deliver (message : Value) : Option Value :=
  if Limits.meshFrameBytes < message.text.length then none else fromSlice inOrder message.text

/-- A response that does not refuse the request. -/
def response (v : Value) : Option Value :=
  match v.get "ok" with
  | some (.bool false) => none
  | _ => some v

/-- A request that carries a certificate. -/
def certifiedRequest (op : String) (cert : Certificate) : Value :=
  record inOrder ["op", "invocation"] [.string op, toValue inOrder cert]

/-- The answer about a job with a certificate. -/
def certifiedReply (job : Job) (history : Published) : Value :=
  record inOrder ["job", "history"] [toValue inOrder job, toValue inOrder history]

variable (word : ℕ)

/-- The certificate a runner reads from a request. -/
def carryCertificate (op : String) (cert : Certificate) : Option Certificate := do
  let request ← deliver (certifiedRequest op cert)
  fromValue word ((request.get "invocation").getD .null)

/-- The record an origin reads from the answer to its request. -/
def carryReply (job : Job) (history : Published) : Option Published := do
  let answer ← deliver (certifiedReply job history)
  let answer ← response answer
  let history ← answer.get "history"
  fromValue word history

/-- The page a peer reads. -/
def carryPage (page : Page) : Option Page := do
  let answer ← deliver (toValue inOrder page)
  let answer ← response answer
  fromValue word answer

end Mesh

end Clix
