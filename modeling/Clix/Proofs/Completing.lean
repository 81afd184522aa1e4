import Clix.Proofs.Retained
import Clix.Proofs.Charge

/-! # How a run that ends is recorded

The update that ends a run signs the next fact of its record, keeps no second copy of the output, and is saved as long as
the output and the text fit.
-/

namespace Clix

open Except Json

namespace History

variable {c : Crypto} {s : Store} {old : List Job} {job : Job} {key : String} {e : Entry} {signed : SignedFact}

/-- The next fact about a job that runs here. -/
def nextFact (c : Crypto) (key : String) (signed : SignedFact) (job : Job) : Fact :=
  ⟨key, .runner, signed.fact.revision + 1, job.status, OutputRef.of c job.stdout, OutputRef.of c job.stderr⟩

def nextSigned (c : Crypto) (s : Store) (key : String) (signed : SignedFact) (job : Job) : SignedFact :=
  ⟨nextFact c key signed job, c.sign s.ownerSk (bytes "fact" (nextFact c key signed job))⟩

/-- The entry once that fact is signed. -/
def nextEntry (c : Crypto) (s : Store) (key : String) (e : Entry) (signed : SignedFact) (job : Job) : Entry :=
  ⟨{ e.record with runner := some (nextSigned c s key signed job) }, s.history.clock + 1, none⟩

/-- The state once that entry is stored. -/
def recorded (c : Crypto) (s : Store) (key : String) (e : Entry) (signed : SignedFact) (job : Job) : Store :=
  Store.setEntry { s with history := { s.history with clock := s.history.clock + 1 } } key
    (nextEntry c s key e signed job)

theorem publishFact_runner (retained : s.outputPruned.contains job.id = false) (previous : e.record.runner = some signed)
    (going : signed.fact.status.isTerminal = false) (moved : signed.fact.status ≠ job.status)
    (revision : signed.fact.revision.toNat + 1 < 2 ^ 64) (clock : s.history.clock.toNat + 1 < 2 ^ 64)
    (seed : s.ownerSk.length = 32) :
    publishFact c s key e job .runner = .ok (recorded c s key e signed job) := by
  have last : Record.fact? e.record .runner = some signed := previous
  have output : ownedOutput c s job .runner (some signed) =
      .ok (OutputRef.of c job.stdout, OutputRef.of c job.stderr) := by
    rw [ownedOutput, if_neg (by simp), if_neg (by rw [retained]; simp)]
  have unsettled : isSettledFact (some signed) job.status (OutputRef.of c job.stdout) (OutputRef.of c job.stderr) =
      false := by
    simp [isSettledFact, going, moved]
  have kept : keptOutput c { s with history := { s.history with clock := s.history.clock + 1 } }
      { nextEntry c s key e signed job with output := e.output } job = none := by
    have holds : holdsOutput c { s with history := { s.history with clock := s.history.clock + 1 } } job
        (nextFact c key signed job) = true := by
      simp [holdsOutput, retained, nextFact]
    rw [keptOutput]
    change (if holdsOutput c _ job (nextFact c key signed job) = true then none else _) = none
    rw [if_pos holds]
  rw [publishFact, last, output, ok_bind]
  dsimp only
  rw [unsettled, nextRevision, checkedNext, if_pos revision, signingKey, refuseIf_neg (by simp [seed]), nextChange,
    checkedNext, if_pos clock]
  simp only [Bool.false_eq_true, if_false, ok_bind, pure_eq_ok]
  exact congrArg (fun output => Except.ok (Store.setEntry { s with history := { s.history with
    clock := s.history.clock + 1 } } key { nextEntry c s key e signed job with output := output })) kept

theorem publishOwned_runner (here : job.body.name = s.bodyName) (bound : s.jobCertificates.get? job.id = some key)
    (found : s.history.entries.get? key = some e) (matched : matchesJob e.record.certificate job = true)
    (modern : e.record.certificate.invocation.legacyObserver = none) (begun : job.status.isLocalQueue = false) :
    publishOwned c old s job = publishFact c s key e job .runner := by
  have owned : bindOwned c old s job = .ok (s, key) := by rw [bindOwned, bound]
  have role : ownedRole s e.record job = some .runner := by
    rw [ownedRole, if_neg (by simp [modern]), if_pos ⟨here, begun⟩]
  rw [publishOwned, if_neg (by simp [here]), owned, ok_bind]
  dsimp only
  rw [found]
  dsimp only
  rw [refuseIf_neg (by simp [matched]), ok_bind, role]

/-- When one row has changed since the history began, it is the only one to publish. -/
theorem refreshOwned_one {newId : Result String} {previous : Store} (initialized : s.history.initialized = true)
    (named : s.history.epoch ≠ "") (trusted : trustHash c s = s.history.trust)
    (changed : changedJobs false previous.jobs s.jobs = [job]) : refreshOwned c newId s (some previous) = (do
      let s ← publishOwned c previous.jobs s job
      return { s with history := { s.history with initialized := true } }) := by
  have unmarked : markLegacy s = s := if_pos initialized
  have unchanged : refreshTrust c s = s := if_pos trusted
  rw [refreshOwned, unmarked, ensureEpoch, if_neg named, pure_eq_ok, ok_bind, unchanged, initialized]
  simp only [Bool.not_true, Option.map_some, Option.getD_some]
  rw [changed, List.foldlM_cons]
  simp only [List.foldlM_nil, bind_pure]

/-- Nothing is normalised away where nothing is pruned and no entry has a replica. -/
theorem normalizeOutput_of_single (unpruned : s.historyPruned = ∅)
    (single : ∀ key e, s.history.entries.get? key = some e → e.output = none) : normalizeOutput s = s := by
  have row : ∀ job, normalizeJob s job = (s, job) := by
    intro job
    rw [normalizeJob]
    cases bound : s.jobCertificates.get? job.id with
    | none => rfl
    | some key =>
      dsimp only
      cases found : s.history.entries.get? key with
      | none => rfl
      | some e =>
        dsimp only
        rw [single key e found, unpruned, OrdMap.contains_empty]
        simp only [Option.any_none, Bool.and_false, Bool.false_eq_true, if_false]
        split_ifs <;> rfl
  have rows : ∀ jobs, normalizeJobs s jobs = (s, jobs) := by
    intro jobs
    induction jobs with
    | nil => rfl
    | cons job rest ih =>
      rw [normalizeJobs, row]
      dsimp only
      rw [ih]
  have entries : s.history.entries.mapValues (fun key entry =>
      if s.historyPruned.contains key then { entry with output := none } else entry) = s.history.entries := by
    apply OrdMap.ext_get?
    intro key
    rw [OrdMap.get?_mapValues, unpruned]
    simp
  rw [normalizeOutput, entries]
  dsimp only
  rw [rows]

end History

section Sizes

variable {c : Crypto}

theorem size_hash_le (message : Bytes) : (string (c.hash message)).length ≤ 386 := by
  have bound := length_string_le (c.hash message)
  rw [Crypto.utf8ByteSize_hash] at bound
  exact bound

theorem size_sign_le (seed message : Bytes) : Json.size (c.sign seed message) ≤ 257 := by
  have wide (b : UInt8) : Json.size b + 1 ≤ 4 := by
    have digits : Json.size b = if 100 ≤ b then 3 else if 10 ≤ b then 2 else 1 := length_digits_uInt8 b
    rw [digits]
    split_ifs <;> omega
  have nonempty : c.sign seed message ≠ [] := by
    intro empty
    have length := c.length_sign seed message
    rw [empty] at length
    cases length
  have bound := List.sum_le_card_nsmul ((c.sign seed message).map (fun b => Json.size b + 1)) 4 (by
    intro n member
    obtain ⟨b, -, rfl⟩ := List.mem_map.mp member
    exact wide b)
  rw [List.length_map, c.length_sign] at bound
  rw [size_list_of_ne_nil nonempty]
  exact Nat.add_le_add_right bound 1

theorem size_outputRef_le {bytes : Bytes} (short : bytes.length < 10 ^ 20) : Json.size (OutputRef.of c bytes) ≤ 426 := by
  have digits : (toVec bytes.length).length ≤ 20 := (length_digits_le_iff (by omega)).mpr short
  have hash : (toVec (c.hash bytes)).length ≤ 386 := size_hash_le bytes
  have count : (string "bytes").length = 7 := rfl
  have digest : (string "sha256").length = 8 := rfl
  change (object [field "bytes" (toVec bytes.length), field "sha256" (toVec (c.hash bytes))]).length ≤ 426
  rw [length_object]
  simp only [List.map_cons, List.map_nil, List.sum_cons, List.sum_nil, length_field, count, digest]
  omega

end Sizes

namespace History

variable {c : Crypto} {s : Store} {job : Job} {key : String} {e : Entry} {signed : SignedFact}

theorem size_nextFact_le (out : job.stdout.length < 10 ^ 20) (err : job.stderr.length < 10 ^ 20) :
    Json.size (nextFact c key signed job) ≤ Json.size key + Json.size job.status + 945 := by
  have stdout : (toVec (OutputRef.of c job.stdout)).length ≤ 426 := size_outputRef_le out
  have stderr : (toVec (OutputRef.of c job.stderr)).length ≤ 426 := size_outputRef_le err
  have revision : (toVec (signed.fact.revision + 1)).length ≤ 20 := length_digits_uInt64 _
  have role : (toVec Role.runner).length = 8 := rfl
  have names : (string "invocation").length = 12 ∧ (string "role").length = 6 ∧ (string "revision").length = 10 ∧
      (string "status").length = 8 ∧ (string "stdout").length = 8 ∧ (string "stderr").length = 8 :=
    ⟨rfl, rfl, rfl, rfl, rfl, rfl⟩
  obtain ⟨name1, name2, name3, name4, name5, name6⟩ := names
  change (object _).length ≤ _
  rw [length_object]
  simp only [List.map_cons, List.map_nil, List.sum_cons, List.sum_nil, length_field, nextFact, role, name1, name2, name3,
    name4, name5, name6]
  unfold Json.size
  omega

theorem size_nextSigned_le (out : job.stdout.length < 10 ^ 20) (err : job.stderr.length < 10 ^ 20) :
    Json.size (nextSigned c s key signed job) ≤ Json.size key + Json.size job.status + 1224 := by
  have fact : (toVec (nextFact c key signed job)).length ≤ Json.size key + Json.size job.status + 945 :=
    size_nextFact_le out err
  have signature : (toVec (nextSigned c s key signed job).signature).length ≤ 257 := size_sign_le _ _
  have names : (string "fact").length = 6 ∧ (string "signature").length = 11 := ⟨rfl, rfl⟩
  change (object [field "fact" (toVec (nextFact c key signed job)),
    field "signature" (toVec (nextSigned c s key signed job).signature)]).length ≤ _
  rw [length_object]
  simp only [List.map_cons, List.map_nil, List.sum_cons, List.sum_nil, length_field, names.1, names.2]
  omega

/-- What a run needs in its record when it ends. -/
theorem size_nextEntry_le (out : job.stdout.length < 10 ^ 20) (err : job.stderr.length < 10 ^ 20) :
    Json.size (nextEntry c s key e signed job) ≤ Json.size e.record.certificate + Json.size e.record.origin +
      Json.size key + Json.size job.status + 1400 := by
  have runner : (toVec (some (nextSigned c s key signed job))).length ≤ Json.size key + Json.size job.status + 1224 :=
    size_nextSigned_le out err
  have change : (toVec (s.history.clock + 1)).length ≤ 20 := length_digits_uInt64 _
  have null : (toVec (none : Option CapturedOutput)).length = 4 := rfl
  have record : (toVec (nextEntry c s key e signed job).record).length ≤ (toVec e.record.certificate).length +
      (toVec e.record.origin).length + Json.size key + Json.size job.status + 1264 := by
    have names : (string "certificate").length = 13 ∧ (string "origin").length = 8 ∧ (string "runner").length = 8 :=
      ⟨rfl, rfl, rfl⟩
    change (object [field "certificate" (toVec e.record.certificate), field "origin" (toVec e.record.origin),
      field "runner" (toVec (some (nextSigned c s key signed job)))]).length ≤ _
    rw [length_object]
    simp only [List.map_cons, List.map_nil, List.sum_cons, List.sum_nil, length_field, names.1, names.2.1, names.2.2]
    omega
  have names : (string "record").length = 8 ∧ (string "change").length = 8 ∧ (string "output").length = 8 :=
    ⟨rfl, rfl, rfl⟩
  change (object [field "record" (toVec (nextEntry c s key e signed job).record),
    field "change" (toVec (s.history.clock + 1)), field "output" (toVec (none : Option CapturedOutput))]).length ≤
      (toVec e.record.certificate).length + (toVec e.record.origin).length + Json.size key + Json.size job.status + 1400
  rw [length_object]
  simp only [List.map_cons, List.map_nil, List.sum_cons, List.sum_nil, length_field, null, names.1, names.2.1, names.2.2]
  omega

end History

namespace Storage

/-- An update that adds nothing that is counted is within the counts. -/
theorem countLimits_of_same {next old : Store} (rows : next.jobs.length = old.jobs.length)
    (entries : next.history.entries.size = old.history.entries.size)
    (kept : (next.requestReceipts, next.requests, next.outboundRequests, next.peers, next.grants) =
      (old.requestReceipts, old.requests, old.outboundRequests, old.peers, old.grants)) :
    countLimits next old = .ok () := by
  have same (name : String) (n max : ℕ) : countLimit name n n max = .ok () :=
    refuseIf_neg (fun refused => lt_irrefl n refused.2)
  simp only [Prod.mk.injEq] at kept
  obtain ⟨receipts, requests, outbound, peers, grants⟩ := kept
  rw [countLimits, rows, entries, receipts, requests, outbound, peers, grants]
  simp only [same, ok_bind]

theorem prepare_of_fits {next old : Store} (counted : countLimits next old = .ok ())
    (fits : outputBytes next ≤ outputBudget) : prepare next old = .ok next := by
  rw [prepare, counted, ok_bind, evict_of_le fits, ok_bind, refuseIf_neg (not_lt.mpr fits)]
  rfl

end Storage

namespace Store

variable {c : Crypto} {α : Type} {epochId : Result String} {s t u v : Store} {value : α} {edit : Store → Result (Store × α)}

/-- An update is saved when its output fits and its charge is within the state. -/
theorem stage_eq_ok_of_fits (writable : s.writeError = none) (ran : edit s = .ok (u, value))
    (published : History.refreshOwned c epochId u (some s) = .ok v)
    (normal : History.normalizeOutput { v with formatVersion := formatVersionNow } = t)
    (counted : Storage.countLimits t s = .ok ()) (fits : Storage.outputBytes t ≤ Storage.outputBudget)
    (charged : Storage.charge t ≤ Storage.stateBytes) : stage c epochId s edit = .ok (t, value) := by
  have text : ¬Storage.stateBytes < (Json.toVec t).length := not_lt.mpr ((Storage.size_le_charge fits).trans charged)
  have reserved : Storage.reserveCompletion t s (Json.toVec t).length = .ok () := if_pos charged
  have unrefused : ensureWritable s = .ok () := by rw [ensureWritable, writable]
  rw [stage, unrefused, ok_bind, ran, ok_bind]
  dsimp only
  rw [published, ok_bind, normal, Storage.prepare_of_fits counted fits, ok_bind, Storage.encode, refuseIf_neg text, ok_bind, pure_eq_ok,
    ok_bind, reserved, ok_bind, pure_eq_ok]

end Store

end Clix
