import Clix.Model.Store

/-! # The JSON text of the saved state and of messages

Fields are written in the order of the source's structures. An enumeration is its variant's name,
or an object with that name when it carries data. An argument allowlist is left out when absent, and
an expiry is written in whole seconds.
-/

namespace Clix

open Json

instance : Serialize BodyId := ⟨fun b => string b.name⟩

def nanosPerSecond : ℕ := 1000000000

private def twoDigits (n : ℕ) : Bytes := digits (n / 10) ++ digits (n % 10)

private def threeDigits (n : ℕ) : Bytes := digits (n / 100) ++ twoDigits (n % 100)

/-- The fraction of a second, to the millisecond, microsecond or nanosecond. -/
private def fraction (nanos : ℕ) : Bytes :=
  if nanos = 0 then []
  else if nanos % 1000000 = 0 then 46 :: threeDigits (nanos / 1000000)
  else if nanos % 1000 = 0 then
    46 :: threeDigits (nanos / 1000000) ++ threeDigits (nanos / 1000 % 1000)
  else 46 :: threeDigits (nanos / 1000000) ++ threeDigits (nanos / 1000 % 1000) ++
    threeDigits (nanos % 1000)

/-- Hours, minutes and seconds of a time of day. -/
def timeText (t : NaiveTime) : Bytes :=
  let seconds := t / nanosPerSecond
  34 :: twoDigits (seconds / 3600) ++ 58 :: twoDigits (seconds / 60 % 60) ++
    58 :: twoDigits (seconds % 60) ++ fraction (t % nanosPerSecond) ++ [34]

instance : Serialize Weekday :=
  ⟨fun
    | .mon => string "Mon" | .tue => string "Tue" | .wed => string "Wed" | .thu => string "Thu"
    | .fri => string "Fri" | .sat => string "Sat" | .sun => string "Sun"⟩

instance : Serialize Schedule :=
  ⟨fun s => object [field "days" (toVec s.days), field "dates" (toVec s.dates),
    field "from" (s.opensAt.elim (utf8 "null") timeText),
    field "to" (s.closesAt.elim (utf8 "null") timeText)]⟩

instance : Serialize Grant :=
  ⟨fun g => object ([field "tool" (toVec g.tool), field "binary" (toVec g.binary),
    field "allow_from" (toVec g.allowFrom), field "once" (toVec g.once),
    field "until" (toVec (g.until.map (· / nanosPerSecond))), field "schedule" (toVec g.schedule),
    field "reservation" (toVec g.reservation)] ++
    (g.args.map (fun args => field "args" (toVec args))).toList)⟩

/-- A variant that carries one named value. -/
def variant (name key : String) (value : Bytes) : Bytes := object [field name (object [field key value])]

instance : Serialize JobStatus :=
  ⟨fun
    | .queued => string "Queued"
    | .waitingBody => string "WaitingBody"
    | .waitingCapacity => string "WaitingCapacity"
    | .running => string "Running"
    | .done exit => variant "Done" "exit" (toVec exit)
    | .denied reason => variant "Denied" "reason" (toVec reason)
    | .failed reason => variant "Failed" "reason" (toVec reason)
    | .uncertain reason => variant "Uncertain" "reason" (toVec reason)⟩

instance : Serialize Job :=
  ⟨fun j => object [field "id" (toVec j.id), field "body" (toVec j.body),
    field "argv" (toVec j.argv), field "from" (toVec j.origin), field "status" (toVec j.status),
    field "stdout" (toVec j.stdout), field "stderr" (toVec j.stderr)]⟩

instance : Serialize Peer :=
  ⟨fun p => object [field "name" (toVec p.name), field "owner_pk" (toVec p.ownerPk),
    field "addr" (toVec p.addr)]⟩

instance : Serialize Request :=
  ⟨fun r => object [field "id" (toVec r.id), field "from" (toVec r.origin),
    field "tool" (toVec r.tool), field "once_suggested" (toVec r.onceSuggested)]⟩

instance : Serialize OutboundRequest :=
  ⟨fun r => object [field "id" (toVec r.id), field "body" (toVec r.body),
    field "tool" (toVec r.tool), field "waiting" (toVec r.waiting), field "error" (toVec r.error)]⟩

instance : Serialize RequestReceipt :=
  ⟨fun r => object [field "delivery_id" (toVec r.deliveryId), field "request" (toVec r.request)]⟩

instance : Serialize Invocation :=
  ⟨fun i => object [field "id" (toVec i.id), field "from" (toVec i.origin),
    field "origin_key" (toVec i.originKey), field "body" (toVec i.body),
    field "runner_key" (toVec i.runnerKey), field "argv" (toVec i.argv),
    field "retry_of" (toVec i.retryOf), field "legacy_observer" (toVec i.legacyObserver)]⟩

instance : Serialize Certificate :=
  ⟨fun c => object [field "invocation" (toVec c.invocation), field "signature" (toVec c.signature)]⟩

instance : Serialize Role :=
  ⟨fun
    | .origin => string "origin"
    | .runner => string "runner"
    | .legacyObserver => string "legacy_observer"⟩

instance : Serialize OutputRef :=
  ⟨fun o => object [field "bytes" (toVec o.bytes), field "sha256" (toVec o.sha256)]⟩

instance : Serialize Fact :=
  ⟨fun f => object [field "invocation" (toVec f.invocation), field "role" (toVec f.role),
    field "revision" (toVec f.revision), field "status" (toVec f.status),
    field "stdout" (toVec f.stdout), field "stderr" (toVec f.stderr)]⟩

instance : Serialize SignedFact :=
  ⟨fun f => object [field "fact" (toVec f.fact), field "signature" (toVec f.signature)]⟩

instance : Serialize Record :=
  ⟨fun r => object [field "certificate" (toVec r.certificate), field "origin" (toVec r.origin),
    field "runner" (toVec r.runner)]⟩

instance : Serialize CapturedOutput :=
  ⟨fun o => object [field "stdout" (toVec o.stdout), field "stderr" (toVec o.stderr)]⟩

instance : Serialize Entry :=
  ⟨fun e => object [field "record" (toVec e.record), field "change" (toVec e.change),
    field "output" (toVec e.output)]⟩

instance : Serialize Progress :=
  ⟨fun p => object [field "epoch" (toVec p.epoch), field "cursor" (toVec p.cursor),
    field "high" (toVec p.high), field "complete" (toVec p.complete),
    field "unknown_authors" (toVec p.unknownAuthors)]⟩

instance : Serialize History :=
  ⟨fun h => object [field "initialized" (toVec h.initialized), field "epoch" (toVec h.epoch),
    field "clock" (toVec h.clock), field "trust" (toVec h.trust),
    field "entries" (toVec h.entries), field "peers" (toVec h.peers)]⟩

instance : Serialize Published :=
  ⟨fun p => object [field "record" (toVec p.record), field "output" (toVec p.output),
    field "change" (toVec p.change)]⟩

instance : Serialize Fingerprint :=
  ⟨fun f => object [field "hash" (toVec f.hash), field "mode" (toVec f.mode)]⟩

instance : Serialize PinIndex :=
  ⟨fun p => object [field "peers" (toVec p.peers), field "last_sync" (toVec p.lastSync),
    field "hashes" (toVec p.hashes), field "last_error" (toVec p.lastError)]⟩

instance : Serialize Store :=
  ⟨fun s => object [field "body_name" (toVec s.bodyName), field "owner_sk" (toVec s.ownerSk),
    field "peers" (toVec s.peers), field "grants" (toVec s.grants), field "jobs" (toVec s.jobs),
    field "requests" (toVec s.requests), field "outbound_requests" (toVec s.outboundRequests),
    field "request_receipts" (toVec s.requestReceipts), field "pin_index" (toVec s.pinIndex),
    field "history" (toVec s.history), field "retry_links" (toVec s.retryLinks),
    field "job_certificates" (toVec s.jobCertificates), field "legacy_jobs" (toVec s.legacyJobs),
    field "output_pruned" (toVec s.outputPruned), field "history_pruned" (toVec s.historyPruned),
    field "format_version" (toVec s.formatVersion), field "pin_enabled" (toVec s.pinEnabled)]⟩

namespace Store

/-- What reading a saved state back gives: diagnostics are not saved, and an expiry keeps its whole
seconds. -/
def reloaded (s : Store) : Store :=
  { s with
    writeError := none
    grants := s.grants.map (fun g =>
      { g with «until» := g.until.map (fun t => t / nanosPerSecond * nanosPerSecond) })
    history := { s.history with
      peers := s.history.peers.mapValues (fun _ p => { p with lastContact := none, error := none }) } }

end Store

end Clix
