import Clix.Model.PinSession

/-! # Two machines in a synchronization

One machine has called the session, the other serves its requests. An answer may be lost after the request
was served: the session ends, and what was served stays. A request or an answer that is too long for a frame is
not sent. A session stops at any point by taking no further step.
-/

namespace Clix

namespace Pin

/-! ## Messages -/

/-- The text of a request. -/
def Request.text : Request → Bytes
  | .list => Json.object [Json.field "op" (Json.string "pin_list")]
  | .get path expected => Json.object [Json.field "expected" (Json.toVec expected),
      Json.field "op" (Json.string "pin_get"), Json.field "path" (Json.string path)]
  | .put request => Json.object ([Json.field "content" (Json.toVec request.content)] ++
      (request.expected.map (fun fp => Json.field "expected" (Json.toVec fp))).toList ++
      (request.new.map (fun fp => Json.field "new" (Json.toVec fp))).toList ++
      [Json.field "op" (Json.string "pin_put")] ++
      (request.path.map (fun path => Json.field "path" (Json.string path))).toList)
  | .commit manifest => Json.object [Json.field "manifest" (Json.toVec manifest),
      Json.field "op" (Json.string "pin_commit")]

/-- The text of an error that a request is answered with. -/
def refusal : ClixError → Bytes
  | .capacity reason => Json.object [Json.field "error" (Json.string reason),
      Json.field "kind" (Json.string "capacity"), Json.field "ok" (Json.toVec false)]
  | .unreachable => Json.object [Json.field "error" (Json.string "machine is unreachable"),
      Json.field "kind" (Json.string "unreachable"), Json.field "ok" (Json.toVec false)]
  | .pinConflict path a b => Json.object [Json.field "a" (Json.string a), Json.field "b" (Json.string b),
      Json.field "kind" (Json.string "pin_conflict"), Json.field "ok" (Json.toVec false),
      Json.field "path" (Json.string path)]
  | e => Json.object [Json.field "error" (Json.string e.text), Json.field "ok" (Json.toVec false)]

/-- The text of an answer. -/
def Answer.text : Answer → Bytes
  | .listing (.ok l) => Json.object [Json.field "baseline" (Json.toVec l.baseline),
      Json.field "files" (Json.toVec l.files)]
  | .content (.ok text) => Json.object [Json.field "content" (Json.string text)]
  | .done (.ok ()) => Json.object [Json.field "ok" (Json.toVec true)]
  | .listing (.error e) => refusal e
  | .content (.error e) => refusal e
  | .done (.error e) => refusal e
  | .none => []

def frameExceeded : ClixError := .protocol "Clix message exceeds 64 MiB"

/-! ## Sessions -/

/-- What does not change of a machine during sessions with one peer: its surroundings, and the peer as the
machine has recorded it. -/
structure Side where
  host : Host
  peer : Peer

/-- A session of one machine with another. -/
structure Call where
  stage : Stage
  caller : Machine
  callee : Machine

/-- What the network and the two machines provide for one step. -/
structure Delivery where
  lost : Bool
  caller : Weather
  callee : Weather

/-- The path a stage is about to change. -/
def Stage.path : Stage → String
  | pushing _ _ ch _ _ _ => ch.path
  | placing _ _ ch _ _ _ => ch.path
  | _ => ""

namespace Call

def start (name : String) (caller callee : Machine) : Call := ⟨.called name, caller, callee⟩

/-- One step of a session: a request is served before the caller goes on with its answer. The IDs an
application draws are given by the path, which is applied once. -/
def step (c : Crypto) (here there : Side) (ids : String → Ids) (call : Call) (d : Delivery) : Call :=
  match call.stage.request with
  | none =>
    let next := syncStep c here.host d.caller (ids call.stage.path) .none call.caller call.stage
    ⟨next.1, next.2, call.callee⟩
  | some request =>
    if Limits.meshFrameBytes < request.text.length then ⟨.ended (.error frameExceeded), call.caller, call.callee⟩
    else
      let served := serve c there.host d.callee (ids call.stage.path) there.peer call.callee request
      -- The callee closes the connection instead of sending an answer that is too long.
      if d.lost = true ∨ Limits.meshFrameBytes < served.2.text.length then
        ⟨.ended (.error .unreachable), call.caller, served.1⟩
      else
        let next := syncStep c here.host d.caller (ids call.stage.path) served.2 call.caller call.stage
        ⟨next.1, next.2, served.1⟩

def run (c : Crypto) (here there : Side) (ids : String → Ids) (call : Call) (deliveries : List Delivery) : Call :=
  deliveries.foldl (step c here there ids) call

end Call

end Pin

end Clix
