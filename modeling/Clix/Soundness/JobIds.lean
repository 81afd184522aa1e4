import Clix.Proofs.Reachable
import Clix.Proofs.Records

/-! # Who may use a job ID

A runner looks a job up by its ID alone, whoever asks. Hence a peer whose request was admitted under an ID keeps
every other machine from using it. Nothing else that a peer asks for changes what the runner decides about the
certified execution of another machine, single-use grants and room apart.
-/

namespace Clix

open Except

/-! ## What the runner decides -/

/-- What a machine decides about a certified execution, before it saves anything. -/
inductive Verdict where
  | refused (error : ClixError)
  /-- The ID is known: its job is the answer. -/
  | known (row : Row)
  | granted (grant : Grant)
  | denied (reason : ClixError)
  deriving DecidableEq

namespace Exec

variable (c : Crypto)

/-- The checks of a certified execution, up to its ID. -/
def admissible (s : Store) (peer : Peer) (cert : Certificate) : Result (Option Job) := do
  History.authorizeExecution c s peer cert
  match ← precheck c s cert.invocation.origin cert.invocation.argv cert.invocation.id (some cert) with
  | some job => return some job
  | none => do
    History.checkBinding s cert.invocation.id (History.invocationHash c cert)
    return none

def verdict (s : Store) (peer : Peer) (cert : Certificate) (now : Clock) : Verdict :=
  match admissible c s peer cert with
  | .error e => .refused e
  | .ok (some job) => .known job.row
  | .ok none =>
    match authorize s cert.invocation.origin cert.invocation.argv now with
    | .ok grant => .granted grant
    | .error e => .denied e

/-- What a machine answers when it is asked about a certified execution. -/
def jobGet (s : Store) (peer : Peer) (cert : Certificate) : Result (Option (Job × Published)) := do
  History.authorizeExecution c s peer cert
  History.executionReply c s cert

/-- The answers that follow from a verdict. An admission or a denial may fail to be saved. -/
inductive Answers (row : JobStatus → Row) : Verdict → Result Job → Prop
  | refused (e : ClixError) : Answers row (.refused e) (.error e)
  | known (job : Job) : Answers row (.known job.row) (.ok job)
  | granted (grant : Grant) (job : Job) (same : job.row = row .running) : Answers row (.granted grant) (.ok job)
  | denied (e : ClixError) (job : Job) (same : job.row = row (.denied e.text)) : Answers row (.denied e) (.ok job)
  | unsaved (v : Verdict) (e : ClixError) (decided : ∀ e', v ≠ .refused e') : Answers row v (.error e)

end Exec

/-- A runner in one state decides about a certified execution as in another: it is asked about its job with the same
answer, it refuses the execution for the same reason or not at all, and single-use grants apart it decides the same. -/
structure Undisturbed (c : Crypto) (now : Clock) (peer : Peer) (cert : Certificate) (s t : Store) : Prop where
  status : Exec.jobGet c t peer cert = Exec.jobGet c s peer cert
  refusal : ∀ e, Exec.verdict c t peer cert now = .refused e ↔ Exec.verdict c s peer cert now = .refused e
  decision : (∀ g, s.grant? (cert.invocation.argv.headD "") = some g → g.once = false) →
    Exec.verdict c t peer cert now = Exec.verdict c s peer cert now

/-- The requests of a peer, and what happens to the runs that were admitted since some state. -/
def Event.Of (d : Daemon) (peer : Peer) : Event → Prop
  | .accept _ => True
  | .exec p _ _ | .authorize p _ | .execCertified p _ | .request p _ _ => p = peer
  | .launch id _ | .exited id _ | .collect id _ _ | .finish id | .giveUp id | .release id => d.task? id = none
  | _ => False

/-! ## The same trust -/

namespace Store.SameTrust

variable {c : Crypto} {s t : Store}

theorem checkCertificate (same : s.SameTrust t) (cert : Certificate) :
    Exec.checkCertificate c t cert = Exec.checkCertificate c s cert := by
  rw [Exec.checkCertificate, Exec.checkCertificate, same.validateInvocation, same.bodyName]

end Store.SameTrust

namespace Exec

variable {c : Crypto} {s t : Store} {peer : Peer} {cert : Certificate} {now : Clock}

theorem existing_of_other {origin : BodyId} {argv : List String} {id : String} {bound : Option Certificate} {job : Job}
    (found : s.job? id = some job) (other : job.origin ≠ origin) :
    existing c s origin argv id bound = .error (.protocol "job ID belongs to a different invocation") := by
  rw [existing, found]
  dsimp only
  rw [refuseIf, if_pos (.inl other)]
  rfl

theorem executionReply_of_other {job : Job} (found : s.job? cert.invocation.id = some job)
    (other : job.origin ≠ cert.invocation.origin) : History.executionReply c s cert =
      .error (.protocol "job ID is bound to a different admitted invocation") := by
  have unmatched : History.matchesJob cert job = false := by
    simp [History.matchesJob, Ne.symm other]
  rw [History.executionReply, found]
  dsimp only
  rw [refuseIf, if_pos (.inl unmatched)]
  rfl

theorem verdict_eq_refused {e : ClixError} : verdict c s peer cert now = .refused e ↔
    admissible c s peer cert = .error e := by
  rw [verdict]
  cases admissible c s peer cert with
  | error e' => simp
  | ok known =>
    cases known with
    | some job => simp
    | none => cases authorize s cert.invocation.origin cert.invocation.argv now <;> simp

theorem authorize_of_grant {origin : BodyId} {argv : List String} (name : t.bodyName = s.bodyName)
    (same : t.grant? (argv.headD "") = s.grant? (argv.headD "")) :
    authorize t origin argv now = authorize s origin argv now := by
  rw [authorize, authorize, Grant.checkAt, Grant.checkAt, same, name]

end Exec

/-! ## What a request changes -/

/-- What is left as it was of what a verdict reads: names and keys, the binding of an ID without a job, and the grant
for a tool unless that is for a single run. -/
structure Kept (id tool : String) (single : Prop) (s t : Store) : Prop where
  trust : s.SameTrust t
  bound : t.job? id = none → t.jobCertificates.get? id = s.jobCertificates.get? id
  grant : t.grant? tool = s.grant? tool ∨ single

namespace Kept

variable {c : Crypto} {id tool : String} {single : Prop} {s t u : Store}

theorem refl (id tool : String) (single : Prop) (s : Store) : Kept id tool single s s :=
  ⟨.refl s, fun _ => rfl, .inl rfl⟩

theorem trans (first : Kept id tool single s t) (second : Kept id tool single t u)
    (rows : u.job? id = none → t.job? id = none) : Kept id tool single s u where
  trust := first.trust.trans second.trust
  bound absent := (second.bound absent).trans (first.bound (rows absent))
  grant := by
    rcases first.grant, second.grant with ⟨one | one, two | two⟩
    · exact .inl (two.trans one)
    · exact .inr two
    · exact .inr one
    · exact .inr one

/-- Neither the jobs, the bindings nor the grants differ. -/
theorem of_eq (trust : s.SameTrust t) (bindings : t.jobCertificates = s.jobCertificates) (grants : t.grants = s.grants) :
    Kept id tool single s t :=
  ⟨trust, fun _ => by rw [bindings], .inl (by rw [Store.grant?, grants]; rfl)⟩

end Kept

namespace History

variable {c : Crypto} {s t : Store} {id : String} {old : List Job} {job : Job}

theorem bindOwned_binds {key : String} (success : bindOwned c old s job = .ok (t, key)) (other : job.id ≠ id) :
    t.jobCertificates.get? id = s.jobCertificates.get? id := by
  rw [bindOwned] at success
  split at success
  · cases success
    rfl
  · dsimp only at success
    rw [bind_eq_ok] at success
    obtain ⟨cert, -, success⟩ := success
    rw [bind_eq_ok] at success
    obtain ⟨⟨change, u⟩, stamped, success⟩ := success
    cases success
    obtain ⟨-, -, rfl⟩ := nextChange_eq_ok stamped
    refine (OrdMap.get?_insert_of_ne _ _ (Ne.symm other)).trans ?_
    split_ifs <;> rfl

theorem publishFact_binds {key : String} {entry : Entry} {role : Role}
    (success : publishFact c s key entry job role = .ok t) : t.jobCertificates = s.jobCertificates := by
  rw [publishFact] at success
  dsimp only at success
  rw [bind_eq_ok] at success
  obtain ⟨⟨stdout, stderr⟩, -, success⟩ := success
  dsimp only at success
  split_ifs at success
  · cases success
    rfl
  · rw [bind_eq_ok] at success
    obtain ⟨revision, -, success⟩ := success
    rw [bind_eq_ok] at success
    obtain ⟨seed, -, success⟩ := success
    rw [bind_eq_ok] at success
    obtain ⟨⟨change, u⟩, stamped, success⟩ := success
    cases success
    obtain ⟨-, -, rfl⟩ := nextChange_eq_ok stamped
    rfl

theorem publishOwned_binds (success : publishOwned c old s job = .ok t) (other : job.id ≠ id) :
    t.jobCertificates.get? id = s.jobCertificates.get? id := by
  rw [publishOwned] at success
  split_ifs at success
  · cases success
    rfl
  · rw [bind_eq_ok] at success
    obtain ⟨⟨u, key⟩, bound, success⟩ := success
    have first := bindOwned_binds bound other
    dsimp only at success
    split at success
    · cases success
    · rw [refuseIf_bind_eq_ok] at success
      obtain ⟨-, success⟩ := success
      split at success
      · cases success
        exact first
      · rw [publishFact_binds success, first]

/-- Publication binds no ID without a job. -/
theorem refreshOwned_binds {newId : Result String} {previous : Option Store}
    (success : refreshOwned c newId s previous = .ok t) (absent : s.job? id = none) :
    t.jobCertificates.get? id = s.jobCertificates.get? id := by
  rw [refreshOwned] at success
  dsimp only at success
  rw [bind_eq_ok] at success
  obtain ⟨u, named, success⟩ := success
  rw [bind_eq_ok] at success
  obtain ⟨v, published, success⟩ := success
  cases success
  have marked : (markLegacy s).jobCertificates = s.jobCertificates ∧ (markLegacy s).jobs = s.jobs := by
    rw [markLegacy]
    split_ifs <;> exact ⟨rfl, rfl⟩
  have epoch : u.jobCertificates = (markLegacy s).jobCertificates ∧ u.jobs = (markLegacy s).jobs := by
    rw [ensureEpoch] at named
    split_ifs at named
    · rw [bind_eq_ok] at named
      obtain ⟨id, -, named⟩ := named
      cases named
      exact ⟨rfl, rfl⟩
    · cases named
      exact ⟨rfl, rfl⟩
  have trust : (refreshTrust c u).jobCertificates = u.jobCertificates ∧ (refreshTrust c u).jobs = u.jobs := by
    rw [refreshTrust]
    split_ifs <;> exact ⟨rfl, rfl⟩
  have others : ∀ j ∈ (refreshTrust c u).jobs, j.id ≠ id := by
    rw [trust.2, epoch.2, marked.2]
    intro j member same
    have := List.find?_eq_none.mp absent j member
    exact this (by simp [same])
  have kept := List.foldlM_except_rel (R := fun x y : Store => y.jobCertificates.get? id = x.jobCertificates.get? id)
    (fun _ => rfl) (fun _ _ _ first second => second.trans first)
    (fun j member x y done => publishOwned_binds done (others j (List.mem_of_mem_filter member))) published
  rw [← marked.1, ← epoch.1, ← trust.1]
  exact kept

end History

section Updates

variable {c : Crypto} {id tool : String} {single : Prop} {s next : Store} {d : Daemon} {α : Type}
  {edit : Store → Result (Store × α)}

/-- What the edit of an update keeps, the update keeps. -/
theorem Kept.of_stage {epochId : Result String} {value : α}
    (staged : Store.stage c epochId s edit = .ok (next, value))
    (edited : ∀ t v, edit s = .ok (t, v) → Kept id tool single s t) : Kept id tool single s next := by
  obtain ⟨-, t, refreshed, ran, published, fits, -, -⟩ := Store.stage_eq_ok staged
  obtain ⟨t', again, desk, key, -⟩ := Store.stage_desk staged
  rw [ran] at again
  cases again
  have kept := edited t value ran
  have pruned := History.normalizeOutput_samePruned { refreshed with formatVersion := Store.formatVersionNow }
  have evicted := Storage.evict_samePruned (Storage.prepare_eq_ok fits).2.1
  refine ⟨kept.trust.trans ⟨congrArg Desk.name desk, key, congrArg Desk.peers desk⟩, fun absent => ?_, ?_⟩
  · have gone : t.job? id = none := by
      have row : t.desk.row? id = none := by rw [← desk, Store.row?_desk, absent]; rfl
      rw [Store.row?_desk, Option.map_eq_none_iff] at row
      exact row
    rw [evicted.jobCertificates, pruned.jobCertificates]
    exact (History.refreshOwned_binds published gone).trans (kept.bound gone)
  · have grants : next.grants = t.grants := congrArg Desk.grants desk
    rw [Store.grant?, grants]
    exact kept.grant

namespace Daemon

theorem store_commit (d : Daemon) (saved : Image) (fault : Option Fault) :
    (d.commit saved fault).mem.store = saved.store ∨
      (d.commit saved fault).mem.store = d.store.stoppedBy fault := by
  cases fault with
  | none => exact .inl rfl
  | some fault => exact .inr (by rw [mem_commit_some])

theorem kept_update (epochId : Result String) (fault : Option Fault) (acts : α → List Act)
    (edited : ∀ t v, edit d.store = .ok (t, v) → Kept id tool single d.store t) :
    Kept id tool single d.store (d.update c epochId fault edit acts).1.store := by
  rcases update_cases (d := d) (c := c) epochId fault edit acts with ⟨e, same⟩ | ⟨next, value, staged, same⟩
  · rw [same]
    exact .refl _ _ _ _
  · rw [same]
    change Kept id tool single d.store (d.commit ⟨next, acts value ++ d.acts⟩ fault).mem.store
    rcases store_commit d ⟨next, acts value ++ d.acts⟩ fault with saved | stopped
    · rw [saved]
      exact .of_stage staged edited
    · rw [stopped]
      cases fault <;> exact .of_eq ⟨rfl, rfl, rfl⟩ rfl rfl

end Daemon

end Updates

section Requests

variable {c : Crypto} {id tool : String} {single : Prop} {s t : Store} {d : Daemon}

theorem Request.upsert_kept {newId : Result String} {origin : BodyId} {asked : String} {r : Request}
    (success : Request.upsert newId s origin asked = .ok (t, r)) : Kept id tool single s t := by
  unfold Request.upsert at success
  rw [bind_eq_ok] at success
  obtain ⟨⟨⟩, -, success⟩ := success
  dsimp only at success
  split at success
  · cases success
    exact .of_eq ⟨rfl, rfl, rfl⟩ rfl rfl
  · rw [bind_eq_ok] at success
    obtain ⟨new, -, success⟩ := success
    cases success
    exact .of_eq ⟨rfl, rfl, rfl⟩ rfl rfl

theorem Request.receive_kept {newId : Result String} {origin : BodyId} {asked : String} {delivery : Option String}
    {r : Request} (success : Request.receive newId s origin asked delivery = .ok (t, r)) :
    Kept id tool single s t := by
  unfold Request.receive at success
  rw [bind_eq_ok] at success
  obtain ⟨⟨⟩, -, success⟩ := success
  dsimp only at success
  split at success
  · exact Request.upsert_kept success
  · rw [bind_eq_ok] at success
    obtain ⟨⟨⟩, -, success⟩ := success
    split at success
    · rw [refuseIf_bind_eq_ok] at success
      cases success.2
      exact .refl _ _ _ _
    · rw [bind_eq_ok] at success
      obtain ⟨⟨u, made⟩, recorded, success⟩ := success
      cases success
      have kept : Kept id tool single s u := Request.upsert_kept recorded
      exact ⟨⟨kept.trust.bodyName, kept.trust.ownerSk, kept.trust.peers⟩, kept.bound, kept.grant⟩

/-- An admission binds its own ID, and reserves the grant that it uses. -/
theorem Exec.admitEdit_kept {env : Surroundings} {origin : BodyId} {argv : List String} {own : String}
    {cert : Option Certificate} {value : Job × Option Grant}
    (covers : ∀ g, s.grant? tool = some g → g.once = true → single)
    (named : ∀ b, cert = some b → b.invocation.id = own)
    (success : Exec.admitEdit c env origin argv own cert s = .ok (t, value)) : Kept id tool single s t := by
  rw [Exec.admitEdit, bind_eq_ok] at success
  obtain ⟨u, bound, success⟩ := success
  have frame := Exec.bind?_frame bound
  have trust : s.SameTrust u := by
    rw [frame]
    exact ⟨rfl, rfl, rfl⟩
  have grants : u.grants = s.grants := by rw [frame]
  have binds (other : own ≠ id) : u.jobCertificates.get? id = s.jobCertificates.get? id := by
    cases cert with
    | none =>
      cases bound
      rfl
    | some b =>
      change History.bindAdmission c s b = .ok u at bound
      rw [History.bindAdmission, bind_eq_ok] at bound
      obtain ⟨⟨⟩, -, bound⟩ := bound
      rw [bind_eq_ok] at bound
      obtain ⟨v, added, bound⟩ := bound
      cases bound
      rw [History.linkRetry_frame]
      dsimp only
      rw [OrdMap.get?_insert_of_ne _ _ (by rw [named b rfl]; exact Ne.symm other)]
      rw [History.ensureEntry] at added
      split_ifs at added
      · cases added
        rfl
      · rw [bind_eq_ok] at added
        obtain ⟨⟨change, w⟩, stamped, added⟩ := added
        cases added
        obtain ⟨-, -, rfl⟩ := History.nextChange_eq_ok stamped
        rfl
  -- The job is saved under the ID of the admission, so that ID is not one without a job.
  have saved (w : Store) (job : Job) (same : job.id = own) (absent : (w.setJob job).job? id = none) : own ≠ id := by
    rintro rfl
    have found : (w.setJob job).job? job.id = some job := List.find?_put _ _ _ (by simp)
    rw [same, absent] at found
    cases found
  dsimp only at success
  split at success
  · next g checked =>
    rw [refuseIf_bind_eq_ok] at success
    obtain ⟨-, success⟩ := success
    cases success
    refine ⟨⟨trust.bodyName, trust.ownerSk, trust.peers⟩, fun absent => binds (saved _ _ rfl absent), ?_⟩
    obtain ⟨held, -⟩ := Exec.authorize_eq_ok checked
    have first := (Grant.checkAt_eq_ok held).1
    rw [← Grant.checkAt_tool held] at first
    change List.find? _ (if g.once then Exec.reserveGrant u.grants g.tool own else u.grants) = _ ∨ _
    split_ifs with once
    · by_cases same : g.tool = tool
      · refine .inr (covers g ?_ once)
        rw [← same, Store.grant?, ← grants]
        exact first
      · left
        rw [Exec.reserveGrant, List.find?_modifyFirst_of_ne _ _ _ _ (fun a here => by
          rw [beq_iff_eq] at here
          rw [here]
          exact beq_false_of_ne same) (fun a here => by
          rw [beq_iff_eq] at here
          dsimp only
          rw [here]
          exact beq_false_of_ne same), grants]
        rfl
    · rw [grants]
      exact .inl rfl
  · next e refused =>
    rw [bind_eq_ok] at success
    obtain ⟨v, asked, success⟩ := success
    cases success
    have kept : Kept id tool single u v := by
      rw [Exec.askOwner] at asked
      split_ifs at asked
      · rw [bind_eq_ok] at asked
        obtain ⟨⟨w, request⟩, made, asked⟩ := asked
        cases asked
        exact Request.upsert_kept made
      · cases asked
        exact .refl _ _ _ _
    refine ⟨⟨?_, ?_, ?_⟩, fun absent => ?_, ?_⟩
    · exact kept.trust.bodyName.trans trust.bodyName
    · exact kept.trust.ownerSk.trans trust.ownerSk
    · exact kept.trust.peers.trans trust.peers
    · have other := saved _ _ rfl absent
      refine (kept.bound (absent.symm.trans ?_).symm).trans (binds other)
      exact List.find?_put_of_ne _ _ _ _ (fun b here => by
        rw [beq_iff_eq] at here
        rw [here]
        exact beq_false_of_ne other) (beq_false_of_ne other)
    · rcases kept.grant with same | once
      · left
        change v.grant? tool = _
        rw [same, Store.grant?, grants]
        rfl
      · exact .inr once

namespace Daemon

variable {env : Env} {requester : Requester} {origin : BodyId} {argv : List String} {own : String}
  {cert : Option Certificate}

theorem submit_kept (covers : ∀ g, d.store.grant? tool = some g → g.once = true → single)
    (named : ∀ b, cert = some b → b.invocation.id = own) :
    Kept id tool single d.store (d.submit c env requester origin argv own cert).1.store := by
  have kept : Kept id tool single d.store (d.update c env.epochId env.fault
      (Exec.admitEdit c (d.surroundings env) origin argv own cert)
      (fun admitted => (admitted.2.map (Act.admitted own)).toList)).1.store :=
    kept_update _ _ _ (fun t v done => Exec.admitEdit_kept covers named done)
  unfold submit
  split
  · exact .refl _ _ _ _
  · exact .refl _ _ _ _
  · generalize d.update c env.epochId env.fault _ _ = done at kept
    obtain ⟨after, e | ⟨job, _ | grant⟩⟩ := done <;> exact kept

/-- A completion changes a grant of the run's own tool, if that is for a single run. -/
theorem finish_kept (covers : ∀ task, d.task? own = some task → task.grant.once = true → task.grant.tool = tool → single) :
    Kept id tool single d.store (d.finish c env own).store := by
  unfold finish
  split
  · next run grant outcome admission found =>
    have kept : Kept id tool single d.store (d.update c env.epochId env.fault
        (Exec.finishEdit grant run outcome) (fun _ => [])).1.store := by
      refine kept_update _ _ _ (fun t v done => ?_)
      rw [Exec.finishEdit] at done
      split at done
      · cases done
      · cases done
        refine ⟨⟨rfl, rfl, rfl⟩, fun _ => rfl, ?_⟩
        change List.find? _ (Exec.settleGrant d.store.grants grant run.id outcome.success) = _ ∨ _
        unfold Exec.settleGrant
        dsimp only
        split_ifs with once
        · by_cases same : grant.tool = tool
          · exact .inr (covers _ found once same)
          · have differs (g : Grant) (held : (g.tool == grant.tool && g.reservation == some run.id) = true) :
                (g.tool == tool) = false := by
              rw [Bool.and_eq_true, beq_iff_eq] at held
              rw [held.1]
              exact beq_false_of_ne same
            left
            split
            · exact List.find?_eraseP_of_ne _ _ _ differs
            · exact List.find?_modifyFirst_of_ne _ _ _ _ differs differs
            · rfl
        · exact .inl rfl
    unfold quietUpdate
    generalize d.update c env.epochId env.fault _ _ = done at kept
    obtain ⟨after, e | ⟨⟩⟩ := done <;> exact kept
  · exact .refl _ _ _ _

theorem step_kept {start : Daemon} {sender : Peer} {e : Env × Event} (of : e.2.Of start sender)
    (covers : ∀ g, d.store.grant? tool = some g → g.once = true → single)
    (runs : ∀ own task, d.task? own = some task → start.task? own = none → task.grant.once = true →
      task.grant.tool = tool → single) : Kept id tool single d.store (d.step c e).store := by
  obtain ⟨env, e⟩ := e
  have same : Kept id tool single d.store d.store := .refl _ _ _ _
  unfold step
  split
  · cases e with
    | accept key =>
      unfold liveStep accept
      dsimp only
      split_ifs
      · exact same
      · split <;> exact same
    | exec p own argv =>
      unfold liveStep exec
      dsimp only
      split_ifs
      · exact same
      · exact submit_kept covers nofun
    | authorize p cert =>
      unfold liveStep authorize
      dsimp only
      split
      · exact same
      · split <;> exact same
    | execCertified p cert =>
      unfold liveStep execCertified
      dsimp only
      split_ifs
      · exact same
      · exact submit_kept covers (fun b here => by rw [Option.some.inj here])
    | request p asked delivery =>
      unfold liveStep
      dsimp only
      split
      · exact same
      · exact kept_update _ _ _ (fun t v done => Request.receive_kept done)
    | launch own spawnError =>
      unfold liveStep launch
      dsimp only
      split
      · split <;> exact same
      · exact same
    | exited own status =>
      unfold liveStep exited
      dsimp only
      split_ifs <;> exact same
    | collect own streams waitError =>
      unfold liveStep collect
      dsimp only
      split
      · split <;> exact same
      · exact same
    | finish own => exact finish_kept (fun task found => runs own task found of)
    | giveUp own =>
      unfold liveStep giveUp
      dsimp only
      split
      · exact .of_eq ⟨rfl, rfl, rfl⟩ rfl rfl
      · exact same
    | release own =>
      unfold liveStep release
      dsimp only
      split <;> exact same
    | _ => cases of
  · cases e with
    | exited own status =>
      unfold exited
      dsimp only
      split_ifs <;> exact same
    | restart boot => cases of
    | _ => exact same

/-- A step other than a restart, of a machine that runs or not. -/
theorem step_going {e : Env × Event} (inv : Inv c d) (going : ∀ boot, e.2 ≠ .restart boot) :
    (Sound c d ∧ Core c e.1 d (d.step c e)) ∨
      ((d.step c e).store = d.store ∧ (d.step c e).tasks = d.tasks) := by
  cases live : d.live with
  | true =>
    rw [step, live, if_pos rfl]
    exact .inl ⟨inv.live live, core_liveStep (inv.live live) e.1 e.2 going⟩
  | false =>
    rw [step, live, if_neg Bool.false_ne_true]
    right
    split
    · unfold exited
      split_ifs <;> exact ⟨rfl, rfl⟩
    · next boot same => exact absurd same (going boot)
    · exact ⟨rfl, rfl⟩

/-- A row keeps its requester. -/
theorem row?_step {e : Env × Event} (inv : Inv c d) (going : ∀ boot, e.2 ≠ .restart boot) {own : String} {row : Row}
    (found : d.store.desk.row? own = some row) :
    ∃ after, (d.step c e).store.desk.row? own = some after ∧ after.origin = row.origin := by
  rcases step_going inv going with ⟨sound, core⟩ | ⟨same, -⟩
  · obtain ⟨deed, allowed, desk⟩ := desk_core sound core
    obtain ⟨after, present, -, origin, -⟩ := Desk.row?_apply allowed found
    exact ⟨after, desk ▸ present, origin⟩
  · rw [same]
    exact ⟨row, found, rfl⟩

/-- A task is an earlier one, or uses the first grant for its tool. -/
theorem task?_step {e : Env × Event} (inv : Inv c d) (going : ∀ boot, e.2 ≠ .restart boot) {own : String} {task : Task}
    (found : (d.step c e).task? own = some task) :
    (∃ old, d.task? own = some old ∧ old.grant = task.grant) ∨ d.store.grant? task.grant.tool = some task.grant := by
  rcases step_going inv going with ⟨-, core⟩ | ⟨-, same⟩
  · rcases (flow_core core).task? inv.tasks found with ⟨old, there, -, grant, -⟩ | ⟨-, admits⟩
    · exact .inl ⟨old, there, grant⟩
    · exact .inr admits.does.1.2.2.2.1
  · exact .inl ⟨task, task?_congr same own ▸ found, rfl⟩

/-- What the requests of a peer leave of what the machine decides about an ID and a tool. -/
theorem run_kept {start : Daemon} {sender : Peer} (inv : Inv c start) (id tool : String)
    (events : List (Env × Event)) (of : ∀ e ∈ events, e.2.Of start sender) :
    let single := ∃ g, start.store.grant? tool = some g ∧ g.once = true
    Kept id tool single start.store (start.run c events).store ∧
      (∀ row, start.store.desk.row? id = some row →
        ∃ after, (start.run c events).store.desk.row? id = some after ∧ after.origin = row.origin) ∧
      ∀ own task, (start.run c events).task? own = some task → start.task? own = none → task.grant.once = true →
        task.grant.tool = tool → single := by
  intro single
  induction events using List.reverseRecOn with
  | nil => exact ⟨.refl _ _ _ _, fun row found => ⟨row, found, rfl⟩, fun own task found absent => by
      rw [run, List.foldl_nil, absent] at found
      cases found⟩
  | append_singleton events e ih =>
    obtain ⟨kept, rows, runs⟩ := ih (fun x member => of x (List.mem_append_left _ member))
    have here := of e (List.mem_append_right _ List.mem_cons_self)
    have going (boot : Boot) : e.2 ≠ .restart boot := fun same => by
      rw [same] at here
      cases here
    have before := inv_run inv events
    have covers (g : Grant) (found : (start.run c events).store.grant? tool = some g) (once : g.once = true) :
        single := by
      rcases kept.grant with same | already
      · exact ⟨g, same ▸ found, once⟩
      · exact already
    rw [run_concat]
    refine ⟨kept.trans (step_kept here covers runs) (fun absent => ?_), fun row found => ?_,
      fun own task found absent once same => ?_⟩
    · by_contra present
      obtain ⟨job, found⟩ := Option.ne_none_iff_exists'.mp present
      have row : (start.run c events).store.desk.row? id = some job.row := by
        rw [Store.row?_desk, found]
        rfl
      obtain ⟨after, kept, -⟩ := row?_step before going row
      rw [Store.row?_desk, absent] at kept
      cases kept
    · obtain ⟨middle, there, origin⟩ := rows row found
      obtain ⟨after, kept, same⟩ := row?_step before going there
      exact ⟨after, kept, same.trans origin⟩
    · rcases task?_step before going found with ⟨old, there, grant⟩ | first
      · rw [← grant] at once same
        exact runs own old there absent once same
      · rw [same] at first
        exact covers _ first once

end Daemon

end Requests

/-! ## The decision -/

namespace Exec

variable {c : Crypto} {s t : Store} {peer : Peer} {cert : Certificate} {now : Clock} {single : Prop}

/-- Whoever has a job under an ID keeps other machines from it. -/
theorem undisturbed_of_other (trust : s.SameTrust t) {job job' : Job} (found : s.job? cert.invocation.id = some job)
    (other : job.origin ≠ cert.invocation.origin) (found' : t.job? cert.invocation.id = some job')
    (other' : job'.origin ≠ cert.invocation.origin) : Undisturbed c now peer cert s t := by
  have refused : ∃ e, admissible c s peer cert = .error e ∧ admissible c t peer cert = .error e := by
    simp only [admissible, precheck, trust.authorizeExecution, trust.checkCertificate, existing_of_other found other,
      existing_of_other found' other']
    cases History.authorizeExecution c s peer cert with
    | error e => exact ⟨e, rfl, rfl⟩
    | ok =>
      cases Limits.invocation cert.invocation.id cert.invocation.argv with
      | error e => exact ⟨e, rfl, rfl⟩
      | ok => cases checkCertificate c s cert <;> exact ⟨_, rfl, rfl⟩
  obtain ⟨e, before, after⟩ := refused
  have same : verdict c t peer cert now = verdict c s peer cert now :=
    (verdict_eq_refused.mpr after).trans (verdict_eq_refused.mpr before).symm
  refine ⟨?_, fun e => by rw [same], fun _ => same⟩
  rw [jobGet, jobGet, trust.authorizeExecution, executionReply_of_other found other,
    executionReply_of_other found' other']

theorem existing_of_absent {origin : BodyId} {argv : List String} {id : String} {bound : Option Certificate}
    (absent : s.job? id = none) : existing c s origin argv id bound = .ok none := by
  rw [existing, absent]

theorem executionReply_of_absent (absent : s.job? cert.invocation.id = none) :
    History.executionReply c s cert = .ok none := by
  rw [History.executionReply, absent]

theorem checkBinding_of_absent {id key : String} (before : s.job? id = none) (after : t.job? id = none)
    (same : t.jobCertificates.get? id = s.jobCertificates.get? id) :
    History.checkBinding t id key = History.checkBinding s id key := by
  have none' {u : Store} (absent : u.job? id = none) : u.jobs.any (fun j => j.id == id) = false := by
    rw [List.any_eq_isSome_find?]
    exact Option.isSome_eq_false_iff.mpr (Option.isNone_iff_eq_none.mpr absent)
  rw [History.checkBinding, History.checkBinding, same, none' before, none' after]

/-- While nobody has a job under an ID, what is kept decides. -/
theorem undisturbed_of_absent (kept : Kept cert.invocation.id (cert.invocation.argv.headD "") single s t)
    (before : s.job? cert.invocation.id = none) (after : t.job? cert.invocation.id = none)
    (shared : single → ∃ g, s.grant? (cert.invocation.argv.headD "") = some g ∧ g.once = true) :
    Undisturbed c now peer cert s t := by
  have trust := kept.trust
  have same : admissible c t peer cert = admissible c s peer cert := by
    simp only [admissible, precheck, trust.authorizeExecution, trust.checkCertificate, existing_of_absent before,
      existing_of_absent after, checkBinding_of_absent before after (kept.bound after)]
  refine ⟨?_, fun e => ?_, fun lasting => ?_⟩
  · rw [jobGet, jobGet, trust.authorizeExecution, executionReply_of_absent before, executionReply_of_absent after]
  · rw [verdict_eq_refused, verdict_eq_refused, same]
  · have grant : t.grant? (cert.invocation.argv.headD "") = s.grant? (cert.invocation.argv.headD "") := by
      rcases kept.grant with grant | taken
      · exact grant
      · obtain ⟨g, found, once⟩ := shared taken
        rw [lasting g found] at once
        cases once
    rw [verdict, verdict, same, authorize_of_grant trust.bodyName grant]

end Exec

namespace Daemon

variable {c : Crypto} {epoch hostname : String} {seed : Bytes}

/-- What a machine answers to a certified execution follows from its verdict. -/
theorem submit_answers (d : Daemon) (env : Env) (requester : Requester) (peer : Peer) (cert : Certificate)
    (writable : d.store.writeError = none)
    (certified : History.authorizeExecution c d.store peer cert = .ok ()) :
    Exec.Answers (fun status => ⟨cert.invocation.id, ⟨d.store.bodyName⟩, cert.invocation.origin, cert.invocation.argv,
        status⟩) (Exec.verdict c d.store peer cert env.now)
      (d.submit c env requester cert.invocation.origin cert.invocation.argv cert.invocation.id (some cert)).2 := by
  unfold submit Exec.verdict Exec.admissible
  rw [certified]
  cases checked : Exec.precheck c d.store cert.invocation.origin cert.invocation.argv cert.invocation.id (some cert) with
  | error e => exact .refused e
  | ok known =>
  cases known with
  | some job => exact .known job
  | none =>
  simp only [ok_bind]
  cases binding : History.checkBinding d.store cert.invocation.id (History.invocationHash c cert) with
  | error e =>
    have stopped : Store.stage c env.epochId d.store (Exec.admitEdit c (d.surroundings env) cert.invocation.origin
        cert.invocation.argv cert.invocation.id (some cert)) = .error e := by
      rw [Store.stage, Store.ensureWritable, writable, Exec.admitEdit, Exec.bind?]
      simp only [ok_bind, History.bindAdmission, binding, error_bind]
    rw [update, stopped]
    exact .refused e
  | ok =>
    simp only [ok_bind, pure_eq_ok]
    rcases update_cases (d := d) (c := c) env.epochId env.fault (Exec.admitEdit c (d.surroundings env)
        cert.invocation.origin cert.invocation.argv cert.invocation.id (some cert))
        (fun admitted => (admitted.2.map (Act.admitted cert.invocation.id)).toList) with
      ⟨e, same⟩ | ⟨next, ⟨job, granted⟩, staged, same⟩
    · rw [same]
      refine .unsaved _ e (fun e' same => ?_)
      split at same <;> cases same
    · rw [same]
      obtain ⟨-, edited, -, ran, -⟩ := Store.stage_eq_ok staged
      rw [Exec.admitEdit, bind_eq_ok] at ran
      obtain ⟨u, bound, ran⟩ := ran
      have frame := Exec.bind?_frame bound
      have desk : u.desk = d.store.desk := by rw [frame]; rfl
      have name : u.bodyName = d.store.bodyName := by rw [frame]
      dsimp only at ran
      rw [name, Exec.authorize_congr desk, show (d.surroundings env).now = env.now from rfl] at ran
      cases authorized : Exec.authorize d.store cert.invocation.origin cert.invocation.argv env.now with
      | ok grant =>
        rw [authorized] at ran
        dsimp only at ran
        rw [refuseIf_bind_eq_ok] at ran
        cases ran.2
        cases env.fault with
        | none => exact .granted grant _ rfl
        | some fault => exact .unsaved _ _ (by intro e same; cases same)
      | error e =>
        rw [authorized] at ran
        dsimp only at ran
        rw [bind_eq_ok] at ran
        obtain ⟨v, -, ran⟩ := ran
        cases ran
        cases env.fault with
        | none => exact .denied e _ rfl
        | some fault => exact .unsaved _ _ (by intro e same; cases same)

/-- The requests of a peer leave what the machine decides about a certified execution of another machine as it was,
exactly when none of them was admitted under its ID. -/
theorem ids_unoccupied_iff (before after : List (Env × Event)) (sender peer : Peer) (cert : Certificate) (now : Clock)
    (of : ∀ e ∈ after, e.2.Of (reach c epoch hostname seed before) sender)
    (unused : ∀ job, (reach c epoch hostname seed before).store.job? cert.invocation.id = some job →
      job.origin ≠ cert.invocation.origin)
    (certified : History.authorizeExecution c (reach c epoch hostname seed before).store peer cert = .ok ()) :
    Undisturbed c now peer cert (reach c epoch hostname seed before).store
        (reach c epoch hostname seed (before ++ after)).store ↔
      ((reach c epoch hostname seed before).store.job? cert.invocation.id = none →
        (reach c epoch hostname seed (before ++ after)).store.job? cert.invocation.id = none) := by
  rw [reach_append]
  have inv := inv_run (inv_fresh (c := c) epoch hostname seed) before
  obtain ⟨kept, rows, -⟩ := run_kept inv cert.invocation.id (cert.invocation.argv.headD "") after of
  constructor
  · intro undisturbed absent
    have status := undisturbed.status
    rw [Exec.jobGet, Exec.jobGet, kept.trust.authorizeExecution, certified, Exec.executionReply_of_absent absent] at status
    change History.executionReply c _ cert = .ok none at status
    rw [History.executionReply] at status
    split at status
    · assumption
    · rw [refuseIf_bind_eq_ok] at status
      obtain ⟨-, status⟩ := status
      split at status <;> cases status
  · intro unoccupied
    cases found : (reach c epoch hostname seed before).store.job? cert.invocation.id with
    | none => exact Exec.undisturbed_of_absent kept found (unoccupied found) id
    | some job =>
      obtain ⟨row, present, origin⟩ := rows job.row (by rw [Store.row?_desk, found]; rfl)
      rw [Store.row?_desk, Option.map_eq_some_iff] at present
      obtain ⟨job', found', rfl⟩ := present
      have other := unused job found
      exact Exec.undisturbed_of_other kept.trust found other found' (fun same => other (origin.symm.trans same))

end Daemon

namespace SquatExample

set_option maxRecDepth 40000

def crypto : Crypto := Crypto.transparent

def aliceKey : Bytes := List.replicate 32 1

def bobKey : Bytes := List.replicate 32 2

def carolKey : Bytes := List.replicate 32 3

def alice : Peer := ⟨⟨"alice"⟩, aliceKey, none⟩

def carol : Peer := ⟨⟨"carol"⟩, carolKey, none⟩

def env : Env where
  now := ⟨0, .mon, 0, 0⟩
  newId := .ok "request"
  epochId := .ok "epoch"
  fs := ⟨fun _ => .error .unreachable, fun _ => .error .unreachable⟩
  fault := none
  meshBusy := false

/-- Carol asks for a tool under the ID "job". -/
def invocation : Invocation := ⟨"job", ⟨"carol"⟩, carolKey, ⟨"bob"⟩, bobKey, ["tool"], none, none⟩

def certificate : Certificate :=
  ⟨invocation, crypto.sign carolKey (History.bytes "invocation" invocation)⟩

/-- Bob pairs alice and carol, and alice connects. -/
def paired : List (Env × Event) := [
  (env, .restart ⟨false, "bob", bobKey, none, none, none⟩),
  (env, .pair "bob" bobKey alice),
  (env, .pair "bob" bobKey carol),
  (env, .accept aliceKey)]

abbrev bob (events : List (Env × Event)) : Daemon := Daemon.reach crypto "bobs" "bob" bobKey events

/-- Alice asks for the tool under some ID. -/
def asks (id : String) : List (Env × Event) := [(env, .exec alice id ["tool"])]

theorem asks_of (id : String) : ∀ e ∈ asks id, e.2.Of (bob paired) alice := by
  intro e member
  rw [List.mem_singleton.mp member]
  rfl

theorem carol_certified : (bob paired).store.job? "job" = none ∧
    History.authorizeExecution crypto (bob paired).store carol certificate = .ok () := by decide

/-- A request under another ID leaves carol's alone. -/
theorem other_undisturbed :
    Undisturbed crypto env.now carol certificate (bob paired).store (bob (paired ++ asks "other")).store :=
  (Daemon.ids_unoccupied_iff paired (asks "other") alice carol certificate env.now (asks_of "other")
    (fun job found => by
      change (bob paired).store.job? "job" = some job at found
      rw [carol_certified.1] at found
      cases found) carol_certified.2).mpr (fun _ => by decide)

/-- A denied request of alice under carol's ID makes bob refuse carol's execution. -/
theorem squatted_refused : (bob paired).store.job? "job" = none ∧
    History.authorizeExecution crypto (bob paired).store carol certificate = .ok () ∧
    Exec.verdict crypto (bob paired).store carol certificate env.now = .denied (.notAdded "tool" "bob") ∧
    Exec.verdict crypto (bob (paired ++ asks "job")).store carol certificate env.now =
      .refused (.protocol "job ID belongs to a different invocation") ∧
    ¬Undisturbed crypto env.now carol certificate (bob paired).store (bob (paired ++ asks "job")).store := by
  have before : Exec.verdict crypto (bob paired).store carol certificate env.now =
      .denied (.notAdded "tool" "bob") := by decide
  have after : Exec.verdict crypto (bob (paired ++ asks "job")).store carol certificate env.now =
      .refused (.protocol "job ID belongs to a different invocation") := by decide
  refine ⟨carol_certified.1, carol_certified.2, before, after, fun undisturbed => ?_⟩
  have refused := (undisturbed.refusal _).mp after
  rw [before] at refused
  cases refused

end SquatExample

end Clix
