import Clix.Model.Mesh
import Clix.Proofs.Completing
import Clix.Proofs.Reachable
import Clix.Proofs.Weighed

/-! # When the answer about a finished job is delivered

A runner answers with the row of the job and with its record, and the output of the job is in both. A frame holds the answer
as long as that fits, and an output that is kept may be too large to be told.
-/

namespace Clix

open Except

namespace History

variable {c : Crypto} {s : Store} {cert : Certificate} {job : Job} {e : Entry}

/-- A finished job that was admitted under a certificate, with the entry of its invocation. -/
structure Finished (c : Crypto) (s : Store) (cert : Certificate) (job : Job) (e : Entry) : Prop where
  row : s.job? cert.invocation.id = some job
  ended : job.status.isTerminal = true
  matched : matchesJob cert job = true
  bound : s.jobCertificates.get? job.id = some (invocationHash c cert)
  entered : s.history.entries.get? (invocationHash c cert) = some e
  same : e.record.certificate.invocation = cert.invocation

/-- The text of the output that goes out with the record of a job: what the row has of it, or a replica. -/
def outputText (c : Crypto) (s : Store) (key : String) (job : Job) (e : Entry) : ℕ :=
  match e.record.selected with
  | none => 4
  | some told =>
    if s.historyPruned.contains key then 4
    else if holdsOutput c s job told.fact then Storage.jobPayload job + 25
    else if e.output.any (fun output => outputMatches c output told.fact) then Storage.replicaPayload e + 25
    else 4

/-- The text of the answer about a job: its row, its record, and the output that goes out with the record. -/
def replyText (c : Crypto) (s : Store) (key : String) (job : Job) (e : Entry) : ℕ :=
  Json.size (Storage.emptied job) + Storage.jobPayload job + Json.size e.record + Json.size e.change +
    outputText c s key job e + 50

namespace Finished

theorem matched_entry (finished : Finished c s cert job e) : matchesJob e.record.certificate job = true := by
  rw [matchesJob, finished.same]
  exact finished.matched

theorem hashed (finished : Finished c s cert job e) :
    invocationHash c e.record.certificate = invocationHash c cert := by
  rw [invocationHash, finished.same, invocationHash]

theorem executionReply_eq (finished : Finished c s cert job e) :
    executionReply c s cert = .ok (some (job, exportEntry c s e)) := by
  have passes : ¬(matchesJob cert job = false ∨ s.jobCertificates.get? job.id ≠ some (invocationHash c cert)) := by
    rw [finished.matched, finished.bound]
    simp
  rw [executionReply, finished.row]
  dsimp only
  rw [refuseIf, if_neg passes, ok_bind, finished.entered]
  rfl

/-- What goes out with a record is what the cases of the row and the replica say. -/
theorem size_selectedOutput (finished : Finished c s cert job e) :
    Json.size (selectedOutput c s e (s.job? e.record.certificate.invocation.id)) =
      outputText c s (invocationHash c cert) job e := by
  have admitted : admittedUnder s (invocationHash c cert) e.record.certificate job = true := by
    rw [admittedUnder, finished.bound, finished.matched_entry, beq_self_eq_true, Bool.and_true]
  rw [finished.same, finished.row, selectedOutput, outputText, finished.hashed]
  cases e.record.selected with
  | none => rfl
  | some told =>
    dsimp only
    split_ifs with pruned held copied
    · rfl
    · rw [Option.filter_some_pos (by rw [admitted, held, Bool.and_self])]
      exact Storage.size_capturedOutput _
    · rw [Option.filter_some_neg (by rw [admitted, Bool.true_and]; exact Bool.eq_false_iff.mpr held)]
      cases kept : e.output with
      | none =>
        rw [kept] at copied
        cases copied
      | some o =>
        rw [kept] at copied
        have goes : outputMatches c o told.fact = true := copied
        dsimp only
        rw [Option.filter_some_pos (p := fun output => outputMatches c output told.fact) goes, Storage.replicaPayload, kept]
        exact Storage.size_capturedOutput o
    · rw [Option.filter_some_neg (by rw [admitted, Bool.true_and]; exact Bool.eq_false_iff.mpr held)]
      cases kept : e.output with
      | none => rfl
      | some o =>
        rw [kept] at copied
        have stays : outputMatches c o told.fact = false := Bool.eq_false_iff.mpr copied
        dsimp only
        rw [Option.filter_some_neg (p := fun output => outputMatches c output told.fact) stays]
        rfl

theorem length_reply (finished : Finished c s cert job e) :
    (Mesh.certifiedReply job (exportEntry c s e)).text.length = replyText c s (invocationHash c cert) job e := by
  have output := finished.size_selectedOutput
  have row := Storage.size_emptied job
  have published := Storage.size_published (exportEntry c s e)
  rw [Mesh.length_certifiedReply, replyText]
  simp only [exportEntry] at published ⊢
  omega

theorem carryReply_eq_some (finished : Finished c s cert job e) {word : ℕ} (sized : e.record.Sized word) :
    Mesh.carryReply word job (exportEntry c s e) = some (exportEntry c s e) ↔
      replyText c s (invocationHash c cert) job e ≤ Limits.meshFrameBytes := by
  rw [Mesh.carryReply_eq job sized, finished.length_reply]
  split_ifs with long
  · exact iff_of_false (by simp) (not_le.mpr long)
  · exact iff_of_true rfl (not_lt.mp long)

end Finished

end History

namespace Mesh.Node

variable {c : Crypto} {n : Node} {peer : Peer} {cert : Certificate} {job : Job} {e : Entry}

/-- A certificate that is authorized again finds its finished job. -/
theorem precheck_of_finished (finished : History.Finished c n.daemon.store cert job e)
    (allowed : authorized c n.daemon.store peer cert = .ok ()) :
    Exec.precheck c n.daemon.store cert.invocation.origin cert.invocation.argv cert.invocation.id (some cert) =
      .ok (some job) := by
  rw [authorized, bind_eq_ok] at allowed
  obtain ⟨⟨⟩, -, allowed⟩ := allowed
  rw [History.authorizeExecution, bind_eq_ok] at allowed
  obtain ⟨⟨⟩, valid, allowed⟩ := allowed
  rw [bind_eq_ok] at allowed
  obtain ⟨own, -, allowed⟩ := allowed
  rw [refuseIf_eq_ok] at allowed
  simp only [not_or, not_not, Bool.not_eq_true] at allowed
  obtain ⟨modern, -, -, here, -⟩ := allowed
  have admissible : Limits.invocation cert.invocation.id cert.invocation.argv = .ok () := by
    rw [History.validateInvocation, bind_eq_ok] at valid
    obtain ⟨⟨⟩, admissible, -⟩ := valid
    exact admissible
  have checked : Exec.checkCertificate c n.daemon.store cert = .ok () := by
    rw [Exec.checkCertificate, valid, ok_bind]
    exact refuseIf_neg (by simp [modern, here])
  obtain ⟨id, origin, body, argv⟩ : cert.invocation.id = job.id ∧ cert.invocation.origin = job.origin ∧
      cert.invocation.body = job.body ∧ cert.invocation.argv = job.argv := by
    have matched := finished.matched
    simp only [History.matchesJob, Bool.and_eq_true, beq_iff_eq] at matched
    exact ⟨matched.1.1.1, matched.1.1.2, matched.1.2, matched.2⟩
  have bound : n.daemon.store.jobCertificates.get? cert.invocation.id = some (History.invocationHash c cert) := by
    rw [id]
    exact finished.bound
  have waits : job.status.isLocalQueue = false := by
    have ended := finished.ended
    cases status : job.status <;> rw [status] at ended <;> cases ended <;> rfl
  rw [Exec.precheck, admissible, ok_bind]
  dsimp only
  rw [checked, ok_bind, Exec.existing, finished.row]
  dsimp only
  rw [refuseIf_neg (by simp [← origin, ← body, ← argv, here]), ok_bind, refuseIf_neg (by simp [bound]), ok_bind,
    if_neg (by simp [waits])]
  rfl

/-- Both requests are answered with the row and the record, and leave the machine as it is. -/
theorem answers_finished (finished : History.Finished c n.daemon.store cert job e)
    (allowed : authorized c n.daemon.store peer cert = .ok ()) (env : Surroundings) :
    n.dispatch c env peer (.jobGetV2 cert) =
        (n, .ok (.certified (some (job, History.exportEntry c n.daemon.store e)))) ∧
      n.submitCertified c env peer cert =
        (n, .ok (.certified (some (job, History.exportEntry c n.daemon.store e)))) := by
  have reply := finished.executionReply_eq
  have known : n.daemon.meshRefuses env.toEnv cert.invocation.id = false := by
    rw [Daemon.meshRefuses, finished.row, Option.isNone_some, Bool.and_false]
  constructor
  · rw [dispatch, allowed, ok_bind, reply]
    rfl
  · rw [submitCertified]
    dsimp only
    rw [if_neg (by simp [known]), Daemon.submit, precheck_of_finished finished allowed]
    dsimp only
    rw [ok_bind, reply]
    rfl

/-- The answer to both requests about a finished job is delivered exactly if its text fits a frame: the row and the record,
with the output of the job twice while it is retained. -/
theorem finished_delivered_iff (c : Crypto) (n : Node) (peer : Peer) (cert : Certificate) (job : Job) (e : Entry)
    (finished : History.Finished c n.daemon.store cert job e)
    (allowed : authorized c n.daemon.store peer cert = .ok ()) (word : ℕ) (sized : e.record.Sized word) :
    History.executionReply c n.daemon.store cert = .ok (some (job, History.exportEntry c n.daemon.store e)) ∧
      (∀ env : Surroundings,
        n.dispatch c env peer (.jobGetV2 cert) =
          (n, .ok (.certified (some (job, History.exportEntry c n.daemon.store e)))) ∧
        n.submitCertified c env peer cert =
          (n, .ok (.certified (some (job, History.exportEntry c n.daemon.store e))))) ∧
      (carryReply word job (History.exportEntry c n.daemon.store e) = some (History.exportEntry c n.daemon.store e) ↔
        History.replyText c n.daemon.store (History.invocationHash c cert) job e ≤ Limits.meshFrameBytes) :=
  ⟨finished.executionReply_eq, fun env => answers_finished finished allowed env, finished.carryReply_eq_some sized⟩

end Mesh.Node

/-! ## Two streams that are kept in full -/

namespace ReplyExample

set_option maxRecDepth 40000

open History

def crypto : Crypto := Crypto.transparent

def aliceKey : Bytes := List.replicate 32 1

def bobKey : Bytes := List.replicate 32 2

def alice : Peer := ⟨⟨"alice"⟩, aliceKey, none⟩

def grant : Grant := ⟨"tool", "/tool", some [⟨"alice"⟩], false, none, none, none, none⟩

def file : Store := { Store.first crypto "bobs" "bob" bobKey with
  peers := [alice]
  grants := [grant] }

def env : Env where
  now := ⟨0, .mon, 0, 0⟩
  newId := .ok "id"
  epochId := .ok "epoch"
  fs := ⟨fun _ => .error .unreachable, fun _ => .error .unreachable⟩
  fault := none
  meshBusy := false

def invocation : Invocation := ⟨"job", ⟨"alice"⟩, aliceKey, ⟨"bob"⟩, bobKey, ["tool"], none, none⟩

def certificate : Certificate := ⟨invocation, crypto.sign aliceKey (bytes "invocation" invocation)⟩

def key : String := invocationHash crypto certificate

def started : List (Env × Event) := [
  (env, .restart ⟨false, "bob", bobKey, none, none, none⟩),
  (env, .accept aliceKey),
  (env, .authorize alice certificate),
  (env, .execCertified alice certificate),
  (env, .launch "job" none),
  (env, .exited "job" ⟨some 0, none⟩)]

def bob : Daemon := (Daemon.installed file).run crypto started

def run : Job := ⟨"job", ⟨"bob"⟩, ["tool"], ⟨"alice"⟩, .running, [], []⟩

def accepted : Fact := ⟨key, .runner, 1, .running, OutputRef.of crypto [], OutputRef.of crypto []⟩

def signed : SignedFact := ⟨accepted, crypto.sign bobKey (bytes "fact" accepted)⟩

def entry : Entry := ⟨⟨certificate, none, some signed⟩, 2, none⟩

def status : Exec.ExitStatus := ⟨some 0, none⟩

/-- The state in which the run has ended and is not recorded yet. -/
structure Ready (s : Store) : Prop where
  jobs : s.jobs = [run]
  writable : s.writeError = none
  name : s.bodyName = "bob"
  seed : s.ownerSk = bobKey
  initialized : s.history.initialized = true
  epoch : s.history.epoch = "bobs"
  clock : s.history.clock = 2
  trusted : trustHash crypto s = s.history.trust
  bound : s.jobCertificates.entries = [("job", key)]
  outputs : s.outputPruned.entries = []
  histories : s.historyPruned.entries = []
  version : s.formatVersion = 2
  grants : s.grants = [grant]
  entries : s.history.entries.entries = [(key, entry)]
  text : Json.size s.skeleton = 842

def isRunning : Phase → Bool
  | .running => true
  | _ => false

theorem bob_seen : (bob.store.jobs = [run] ∧ bob.store.writeError = none ∧ bob.store.bodyName = "bob" ∧
      bob.store.ownerSk = bobKey ∧ bob.store.history.initialized = true ∧ bob.store.history.epoch = "bobs" ∧
      bob.store.history.clock = 2 ∧ trustHash crypto bob.store = bob.store.history.trust ∧
      bob.store.jobCertificates.entries = [("job", key)] ∧ bob.store.outputPruned.entries = [] ∧
      bob.store.historyPruned.entries = [] ∧ bob.store.formatVersion = 2 ∧ bob.store.grants = [grant] ∧
      bob.store.history.entries.entries = [(key, entry)] ∧ Json.size bob.store.skeleton = 842) ∧
    bob.live = true ∧ bob.exitOf "job" = some status ∧
    (bob.task? "job").map (fun task => (task.run, task.grant, isRunning task.phase)) = some (run, grant, true) ∧
    authorizeExecution crypto bob.store alice certificate = .ok () := by
  decide

theorem ready_bob : Ready bob.store := by
  obtain ⟨⟨jobs, writable, name, seed, initialized, epoch, clock, trusted, bound, outputs, histories, version, grants,
    entries, text⟩, -⟩ := bob_seen
  exact ⟨jobs, writable, name, seed, initialized, epoch, clock, trusted, bound, outputs, histories, version, grants,
    entries, text⟩

/-- The row of the run once both streams are read. -/
def row (out : Bytes) : Job := { run with status := .done 0, stdout := out, stderr := out }

/-- What the update that ends the run writes. -/
def stopped (s : Store) (out : Bytes) : Store := { s with jobs := [row out] }

def last (s : Store) (out : Bytes) : Entry := nextEntry crypto s key entry signed (row out)

/-- What it saves. -/
def after (s : Store) (out : Bytes) : Store :=
  let next := recorded crypto (stopped s out) key entry signed (row out)
  { next with
    formatVersion := Store.formatVersionNow
    history := { next.history with initialized := true } }

section Ended

variable {s : Store} (ready : Ready s) {out : Bytes}

theorem sized_last (s : Store) (short : out.length ≤ Limits.outputStreamBytes) : (last s out).record.Sized (2 ^ 64) := by
  have limit : Limits.outputStreamBytes = 4194304 := rfl
  have small : out.length < 2 ^ 64 := by omega
  refine ⟨fun told same => ?_, fun told same => ?_⟩
  · cases same
  · obtain rfl : nextSigned crypto s key signed (row out) = told := Option.some.inj same
    exact ⟨small, small⟩

theorem outcome_eq (short : out.length ≤ Limits.outputStreamBytes) :
    Exec.captured (.ok (out, out)) (.ok status) = .exited status out out none := by
  have read : Exec.readOutput out = .ok out := if_neg (not_lt.mpr short)
  rw [Exec.captured, Exec.readStreams]
  simp only [ok_bind, read, pure_eq_ok]

include ready

theorem finishEdit_eq (short : out.length ≤ Limits.outputStreamBytes) :
    Exec.finishEdit grant run (Exec.captured (.ok (out, out)) (.ok status)) s = .ok (stopped s out, ()) := by
  have found : s.job? run.id = some run := by
    rw [Store.job?, ready.jobs]
    rfl
  have kept : Exec.settleGrant s.grants grant run.id (some true) = s.grants := by
    rw [Exec.settleGrant]
    exact if_neg (by decide)
  have rows : s.jobs.put (fun j => j.id == run.id) (row out) = [row out] := by
    rw [ready.jobs]
    rfl
  rw [outcome_eq short, Exec.finishEdit, found]
  dsimp only
  rw [show (Exec.RunOutcome.exited status out out none).success = some true from rfl, kept, Store.setJob]
  change Except.ok ({ s with jobs := s.jobs.put (fun j => j.id == run.id) (row out) }, ()) = _
  rw [rows]
  rfl

theorem bound_job : (stopped s out).jobCertificates.get? (row out).id = some key := by
  rw [OrdMap.get?]
  change OrdMap.lookupEntry "job" s.jobCertificates.entries = some key
  rw [ready.bound]
  rfl

theorem entered_key : (stopped s out).history.entries.get? key = some entry := by
  rw [OrdMap.get?]
  change OrdMap.lookupEntry key s.history.entries.entries = some entry
  rw [ready.entries]
  exact if_pos rfl

theorem refreshOwned_eq : refreshOwned crypto (.ok "epoch") (stopped s out) (some s) = .ok
    { recorded crypto (stopped s out) key entry signed (row out) with
      history := { (recorded crypto (stopped s out) key entry signed (row out)).history with initialized := true } } := by
  have changed : changedJobs false s.jobs (stopped s out).jobs = [row out] := by
    rw [ready.jobs]
    rfl
  have published : publishOwned crypto s.jobs (stopped s out) (row out) =
      .ok (recorded crypto (stopped s out) key entry signed (row out)) := by
    rw [publishOwned_runner ready.name.symm (bound_job ready) (entered_key ready) rfl rfl rfl]
    have retained : (stopped s out).outputPruned.contains (row out).id = false := by
      rw [show (stopped s out).outputPruned = ∅ from OrdMap.eq_empty ready.outputs, OrdMap.contains_empty]
    have clock : (stopped s out).history.clock.toNat + 1 < 2 ^ 64 := by
      rw [show (stopped s out).history.clock = 2 from ready.clock]
      decide
    have seed : (stopped s out).ownerSk.length = 32 := by
      rw [show (stopped s out).ownerSk = bobKey from ready.seed]
      rfl
    exact publishFact_runner retained rfl rfl (show JobStatus.running ≠ .done 0 by decide) (by decide) clock seed
  have named : (stopped s out).history.epoch ≠ "" := by
    rw [show (stopped s out).history.epoch = "bobs" from ready.epoch]
    decide
  have initialized : (stopped s out).history.initialized = true := ready.initialized
  have trusted : trustHash crypto (stopped s out) = (stopped s out).history.trust := ready.trusted
  rw [refreshOwned_one initialized named trusted changed, published, ok_bind]
  rfl

theorem entries_after : (after s out).history.entries.entries = [(key, last (stopped s out) out)] := by
  change OrdMap.insertEntry key (last (stopped s out) out) s.history.entries.entries = _
  rw [ready.entries, OrdMap.insertEntry, if_neg (lt_irrefl key), if_neg (lt_irrefl key)]

theorem normal : normalizeOutput (after s out) = after s out := by
  refine normalizeOutput_of_single (OrdMap.eq_empty ready.histories) (fun other e found => ?_)
  rw [OrdMap.get?, entries_after ready, OrdMap.lookupEntry] at found
  split_ifs at found
  · cases found
    rfl
  · cases found

theorem outputBytes_after : Storage.outputBytes (after s out) = 2 * out.length := by
  rw [Storage.outputBytes, OrdMap.values, entries_after ready]
  change (out.length + out.length + 0) + (0 + 0) = _
  omega

theorem skeleton_after : (after s out).skeleton = s.skeleton := by
  have version : Store.formatVersionNow = s.formatVersion := ready.version.symm
  have initialized : true = s.history.initialized := ready.initialized.symm
  rw [after, version, initialized]
  rfl

/-- What is saved of the run besides the bytes that it wrote. -/
theorem size_entries (short : out.length ≤ Limits.outputStreamBytes) :
    Json.size (after s out).history.entries ≤ 2100 := by
  have limit : Limits.outputStreamBytes = 4194304 := rfl
  have small : out.length < 10 ^ 20 := by omega
  have record : Json.size (last (stopped s out) out) ≤ Json.size entry.record.certificate +
      Json.size entry.record.origin + Json.size key + Json.size (JobStatus.done 0) + 1400 := size_nextEntry_le small small
  have closed : Json.size entry.record.certificate + Json.size entry.record.origin + Json.size key +
      Json.size (JobStatus.done 0) + (Json.string key).length = 614 := by decide
  rw [Json.size_map, entries_after ready]
  simp only [List.map_cons, List.map_nil, List.sum_cons, List.sum_nil]
  omega

theorem payload_after : Storage.payloadBytes (after s out) = Storage.jobPayload (row out) := by
  rw [Storage.payloadBytes, OrdMap.values, entries_after ready]
  rfl

theorem receipts_after : Storage.pruneReceipts (after s out) ≤ 500 := by
  have outputs : (after s out).outputPruned = ∅ := OrdMap.eq_empty ready.outputs
  have histories : (after s out).historyPruned = ∅ := OrdMap.eq_empty ready.histories
  have closed : Storage.receiptBytes "job" + Storage.receiptBytes key ≤ 500 := by decide
  have rows : (after s out).jobs = [row out] := rfl
  have named : (row out).id = "job" := rfl
  rw [Storage.pruneReceipts, outputs, histories, OrdMap.keys, entries_after ready, rows]
  simp only [OrdMap.contains_empty, Bool.not_false, List.filter_true, List.map_cons, List.map_nil, List.sum_cons,
    List.sum_nil, named]
  omega

theorem sequences_after : Storage.sequences (after s out) ≤ 40 := by
  have bound (n : UInt64) : Storage.sequenceHeadroom n ≤ 20 := Nat.sub_le _ _
  rw [Storage.sequences, OrdMap.values, entries_after ready]
  exact Nat.add_le_add (bound _) (bound _)

/-- The reserve is not touched. -/
theorem charge_after (short : out.length ≤ Limits.outputStreamBytes) :
    Storage.charge (after s out) ≤ Storage.stateBytes := by
  have skeleton : Json.size (after s out).skeleton = 842 := by rw [skeleton_after ready, ready.text]
  have rows : Json.size (after s out).jobs = Json.size (row out) + 1 - 1 + 2 := Json.size_list [row out]
  have emptied : Json.size (Storage.emptied (row out)) = 109 := by
    change Json.size (Storage.emptied (row [])) = 109
    decide
  have outputs : Json.size (after s out).outputPruned = 2 := by
    rw [show (after s out).outputPruned = ∅ from OrdMap.eq_empty ready.outputs]
    rfl
  have histories : Json.size (after s out).historyPruned = 2 := by
    rw [show (after s out).historyPruned = ∅ from OrdMap.eq_empty ready.histories]
    rfl
  have clock : Json.size (after s out).history.clock ≤ 20 := Json.length_digits_uInt64 _
  have pending : Storage.pending (after s out) = 0 := rfl
  have budget : Storage.outputBudget = 16777216 := rfl
  have limit : Storage.stateBytes = 134217728 := rfl
  have text := Store.size_skeleton (after s out)
  have split := Storage.size_emptied (row out)
  have entries := size_entries ready short
  have receipts : Storage.pruneReceipts (after s out) ≤ 500 := receipts_after ready
  have sequences : Storage.sequences (after s out) ≤ 40 := sequences_after ready
  rw [Storage.charge, Storage.completionCharge, payload_after ready, pending]
  omega

theorem counted : Storage.countLimits (after s out) s = .ok () := by
  refine Storage.countLimits_of_same ?_ ?_ rfl
  · rw [ready.jobs]
    rfl
  · rw [OrdMap.size, OrdMap.size, entries_after ready, ready.entries]
    rfl

theorem stage_eq (short : out.length ≤ Limits.outputStreamBytes) : Store.stage crypto (.ok "epoch") s
    (Exec.finishEdit grant run (Exec.captured (.ok (out, out)) (.ok status))) = .ok (after s out, ()) := by
  have fits : Storage.outputBytes (after s out) ≤ Storage.outputBudget := by
    have limit : Limits.outputStreamBytes = 4194304 := rfl
    have budget : Storage.outputBudget = 16777216 := rfl
    rw [outputBytes_after ready]
    omega
  exact Store.stage_eq_ok_of_fits ready.writable (finishEdit_eq ready short) (refreshOwned_eq ready) (normal ready)
    (counted ready) fits (charge_after ready short)

theorem finished_after : Finished crypto (after s out) certificate (row out) (last (stopped s out) out) := by
  have entered : (after s out).history.entries.get? key = some (last (stopped s out) out) := by
    rw [OrdMap.get?, entries_after ready]
    exact if_pos rfl
  exact ⟨rfl, rfl, rfl, bound_job ready, entered, rfl⟩

theorem authorized_after (allowed : authorizeExecution crypto s alice certificate = .ok ()) :
    Mesh.Node.authorized crypto (after s out) alice certificate = .ok () := by
  have trust : s.SameTrust (after s out) := ⟨rfl, rfl, rfl⟩
  have writable : (after s out).writeError = none := ready.writable
  rw [Mesh.Node.authorized, Store.ensureWritable, writable]
  dsimp only
  rw [ok_bind, trust.authorizeExecution, allowed]

/-- The output goes out with the record too. -/
theorem outputText_after : outputText crypto (after s out) key (row out) (last (stopped s out) out) =
    Storage.jobPayload (row out) + 25 := by
  have unpruned : (after s out).historyPruned.contains key = false := by
    rw [show (after s out).historyPruned = ∅ from OrdMap.eq_empty ready.histories, OrdMap.contains_empty]
  have holds : holdsOutput crypto (after s out) (row out) (nextFact crypto key signed (row out)) = true := by
    have retained : (after s out).outputPruned.contains (row out).id = false := by
      rw [show (after s out).outputPruned = ∅ from OrdMap.eq_empty ready.outputs, OrdMap.contains_empty]
    simp [holdsOutput, retained, nextFact]
  have selected : (last (stopped s out) out).record.selected =
    some (nextSigned crypto (stopped s out) key signed (row out)) := rfl
  rw [outputText, selected]
  dsimp only
  rw [if_neg (by rw [unpruned]; simp)]
  exact if_pos holds

end Ended

/-- A run of the daemon from the end of the child to the saved result. -/
def ended (out : Bytes) : List (Env × Event) := [(env, .collect "job" (.ok (out, out)) none), (env, .finish "job")]

/-- The run that ends is recorded by the update, once its streams were read. -/
theorem store_ended {d : Daemon} {task : Task} {next : Store} {out : Bytes} (live : d.live = true)
    (found : d.task? "job" = some task) (running : isRunning task.phase = true) (exited : d.exitOf "job" = some status)
    (staged : Store.stage crypto (.ok "epoch") d.store
      (Exec.finishEdit task.grant task.run (Exec.captured (.ok (out, out)) (.ok status))) = .ok (next, ())) :
    (d.run crypto (ended out)).store = next := by
  obtain ⟨run, grant, phase, admission⟩ := task
  cases phase with
  | running =>
    let outcome := Exec.captured (.ok (out, out)) (.ok status)
    have collected : d.step crypto (env, .collect "job" (.ok (out, out)) none) = d.setPhase "job" (.ended outcome) := by
      rw [Daemon.step, if_pos live]
      change (d.collect "job" (.ok (out, out)) none) = _
      unfold Daemon.collect
      simp only [found, exited, outcome]
    have entered : (d.setPhase "job" (.ended outcome)).task? "job" = some ⟨run, grant, .ended outcome, admission⟩ := by
      rw [Daemon.task?_setPhase_self, found]
      rfl
    have saved : (d.setPhase "job" (.ended outcome)).quietUpdate crypto env (Exec.finishEdit grant run outcome) =
        ({ d.setPhase "job" (.ended outcome) with cell := d.commit ⟨next, d.acts⟩ none }, .ok ()) := by
      have same : Store.stage crypto env.epochId (d.setPhase "job" (.ended outcome)).store
          (Exec.finishEdit grant run outcome) = .ok (next, ()) := staged
      rw [Daemon.quietUpdate, Daemon.update, same]
      rfl
    have finished : (d.setPhase "job" (.ended outcome)).step crypto (env, .finish "job") =
        Daemon.setPhase { d.setPhase "job" (.ended outcome) with cell := d.commit ⟨next, d.acts⟩ none } "job" .finished := by
      rw [Daemon.step, if_pos (show (d.setPhase "job" (.ended outcome)).live = true from live), Daemon.liveStep,
        Daemon.finish, entered]
      dsimp only
      rw [saved]
    rw [Daemon.run, ended, List.foldl_cons, List.foldl_cons, collected, finished]
    rfl
  | _ => cases running

/-- What bob has saved of the run. -/
def bobAfter (out : Bytes) : Daemon := bob.run crypto (ended out)

theorem store_after {out : Bytes} (short : out.length ≤ Limits.outputStreamBytes) :
    (bobAfter out).store = after bob.store out := by
  obtain ⟨-, live, exited, tasks, -⟩ := bob_seen
  obtain ⟨task, found, same⟩ := Option.map_eq_some_iff.mp tasks
  simp only [Prod.mk.injEq] at same
  refine store_ended live found same.2.2 exited ?_
  rw [same.1, same.2.1]
  exact stage_eq ready_bob short

/-- The entry of the run, with the second fact. -/
def lastEntry (out : Bytes) : Entry := last (stopped bob.store out) out

theorem finished_bob {out : Bytes} (short : out.length ≤ Limits.outputStreamBytes) :
    Finished crypto (bobAfter out).store certificate (row out) (lastEntry out) := by
  rw [store_after short]
  exact finished_after ready_bob

theorem authorized_bob {out : Bytes} (short : out.length ≤ Limits.outputStreamBytes) :
    Mesh.Node.authorized crypto (bobAfter out).store alice certificate = .ok () := by
  rw [store_after short]
  exact authorized_after ready_bob bob_seen.2.2.2.2

theorem sized_bob {out : Bytes} (short : out.length ≤ Limits.outputStreamBytes) :
    (lastEntry out).record.Sized (2 ^ 64) := sized_last (stopped bob.store out) short

/-- Four mebibytes of the same byte. -/
def output : Bytes := List.replicate Limits.outputStreamBytes 255

theorem payload_output : Storage.jobPayload (row output) = 33554430 := by
  have stream : Storage.payloadJsonBytes output = 4 * 4194304 - 1 := Storage.payloadJsonBytes_replicate (by decide) _
  have stdout : (row output).stdout = output := rfl
  have stderr : (row output).stderr = output := rfl
  rw [Storage.jobPayload, stdout, stderr, stream]

theorem text_output : Limits.meshFrameBytes <
    replyText crypto (bobAfter output).store (invocationHash crypto certificate) (row output) (lastEntry output) := by
  have short : output.length ≤ Limits.outputStreamBytes := le_of_eq List.length_replicate
  have outgoing : outputText crypto (bobAfter output).store key (row output) (lastEntry output) = 33554430 + 25 := by
    rw [store_after short, lastEntry, outputText_after ready_bob, payload_output]
  have frame : Limits.meshFrameBytes = 67108864 := rfl
  change _ < replyText crypto (bobAfter output).store key (row output) (lastEntry output)
  rw [replyText, outgoing, payload_output]
  omega

/-- A machine without pinned files. -/
def node (d : Daemon) : Mesh.Node := ⟨d, "", ⟨Pin.Live.empty, ∅⟩⟩

theorem store_node (d : Daemon) : (node d).daemon.store = d.store := rfl

theorem result_row {out : Bytes} (short : out.length ≤ Limits.outputStreamBytes) : Limits.result (row out) = .ok () := by
  have admissible : Limits.invocation (row out).id (row out).argv = .ok () := by
    change Limits.invocation run.id run.argv = .ok ()
    decide
  have fits : ¬(Limits.outputStreamBytes < (row out).stdout.length ∨ Limits.outputStreamBytes < (row out).stderr.length) :=
    fun long => long.elim (not_lt.mpr short) (not_lt.mpr short)
  have plain : Limits.status (row out).status = .ok () := rfl
  rw [Limits.result, admissible, ok_bind, plain, ok_bind]
  exact refuseIf_neg fits

/-- The result is within every limit and is saved, and no answer about it reaches alice. -/
theorem full_undelivered : Limits.result (row output) = .ok () ∧ ∃ published,
    executionReply crypto (node (bobAfter output)).daemon.store certificate = .ok (some (row output, published)) ∧
    (∀ env : Mesh.Surroundings,
      (node (bobAfter output)).dispatch crypto env alice (.jobGetV2 certificate) =
        (node (bobAfter output), .ok (.certified (some (row output, published)))) ∧
      (node (bobAfter output)).submitCertified crypto env alice certificate =
        (node (bobAfter output), .ok (.certified (some (row output, published))))) ∧
    Mesh.carryReply (2 ^ 64) (row output) published ≠ some published := by
  have short : output.length ≤ Limits.outputStreamBytes := le_of_eq List.length_replicate
  have finished := finished_bob short
  have allowed := authorized_bob short
  have long := text_output
  rw [← store_node (bobAfter output)] at finished allowed long
  obtain ⟨reply, answers, delivered⟩ := Mesh.Node.finished_delivered_iff crypto (node (bobAfter output)) alice
    certificate (row output) (lastEntry output) finished allowed (2 ^ 64) (sized_bob short)
  exact ⟨result_row short, _, reply, answers, fun arrives => not_le.mpr long (delivered.mp arrives)⟩

end ReplyExample

end Clix
