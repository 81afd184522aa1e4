import Clix.Model.Grant

/-! # Permission requests -/

namespace Clix

open Except

namespace Request

/-- Record a grant request on this machine. The latest row for the same machine and tool is
refreshed. -/
def upsert (newId : Result String) (s : Store) (origin : BodyId) (tool : String) :
    Result (Store × Request) := do
  Limits.tool tool
  let matched := fun r : Request => r.origin == origin && r.tool == tool
  match s.requests.reverse.find? matched with
  | some existing =>
    let refreshed := { existing with onceSuggested := true }
    return ({ s with
      requests := (s.requests.reverse.modifyFirst matched (fun _ => refreshed)).reverse }, refreshed)
  | none =>
    let id ← newId
    let request : Request := ⟨id, origin, tool, true⟩
    return ({ s with requests := s.requests ++ [request] }, request)

/-- Accept a delivered request, once for each delivery ID of a sender. -/
def receive (newId : Result String) (s : Store) (origin : BodyId) (tool : String)
    (deliveryId : Option String) : Result (Store × Request) := do
  Limits.tool tool
  match deliveryId with
  | none => upsert newId s origin tool
  | some id => do
    Limits.identifier id
    match s.requestReceipts.find? (fun r => r.deliveryId == id && r.request.origin == origin) with
    | some receipt =>
      refuseIf (receipt.request.tool ≠ tool) (.protocol "request ID belongs to a different tool")
      return (s, receipt.request)
    | none =>
      let (s, request) ← upsert newId s origin tool
      return ({ s with requestReceipts := s.requestReceipts ++ [⟨id, request⟩] }, request)

inductive Scope where
  | requester
  | bodies (names : List String)
  deriving DecidableEq, Repr

inductive Decision where
  | allow (scope : Scope) (once : Bool) (expiry : Option SystemTime) (schedule : Option Schedule)
  | deny
  deriving DecidableEq, Repr

/-- The decision behind a button of the desktop, with its authority explicit. -/
def Decision.fromAction (action : String) : Result Decision :=
  if action = "default" ∨ action = "once" then .ok (.allow .requester true none none)
  else if action = "allow" then .ok (.allow .requester false none none)
  else if action = "deny" then .ok .deny
  else .error (.usage "unknown request action")

/-- The machines an approval is for. -/
def Scope.names (scope : Scope) (origin : BodyId) : Result (List String) :=
  match scope with
  | .requester => .ok [origin.name]
  | .bodies [] => .error (.usage "approval body list must not be empty")
  | .bodies names => .ok names

/-- The owner's decision on a pending request. An approval never replaces a different grant. -/
def decide (fs : FileSystem) (s : Store) (id : String) (decision : Decision) :
    Result (Store × Option Grant) :=
  match s.requests.find? (fun r => r.id == id && id != "") with
  | none => .error (.usage "request is no longer pending; run clix pending")
  | some request =>
    match decision with
    | .allow scope once expiry schedule => do
      let allow ← scope.names request.origin
      let prospective ← Grant.build fs s request.tool allow once expiry schedule none
      refuseIf (∃ existing ∈ s.grant? prospective.tool,
          Grant.samePermission existing prospective = false)
        (.usage (prospective.tool ++ " already has a grant on " ++ s.bodyName ++
          "; change it with clix add / clix remove rather than approving this request"))
      return (Grant.commit s prospective, some prospective)
    | .deny => return ({ s with requests := s.requests.eraseP (fun r => r.id == id) }, none)

end Request

/-- The outcome of delivering an outbound request, recorded with it. -/
def settleOutbound (s : Store) (id : String) (result : Result Unit) : Store :=
  match result with
  | .ok () => { s with outboundRequests := s.outboundRequests.eraseP (fun r => r.id == id) }
  | .error .unreachable =>
    { s with outboundRequests :=
        s.outboundRequests.modifyFirst (fun r => r.id == id) (fun r => { r with waiting := true }) }
  | .error e =>
    { s with outboundRequests :=
        s.outboundRequests.modifyFirst (fun r => r.id == id) (fun r => { r with error := some e.text }) }

end Clix
