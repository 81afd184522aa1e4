import Clix.Proofs.Labels

/-! # The life of a job

A job that is over stays as it was recorded, in every later state. A job with a modern certificate that its runner
accepted is not waiting again, and a reply changes one job: as long as no answer to a query for a job from before the
history names a job that was signed for. Such an answer is checked against the job it names, but not against the job
that was asked about.
-/

namespace Clix

open Except DurableCell

/-! ## Rows, deed by deed -/

/-- How a row may be followed: once over it stays, and once accepted it waits again only if `Back`. -/
structure Row.Follows (Back : Prop) (row after : Row) : Prop where
  finished : row.status.isTerminal = true → after = row
  onward : History.isUnaccepted row.status = false → History.isUnaccepted after.status = true → Back

theorem Row.Follows.refl (Back : Prop) (row : Row) : row.Follows Back row :=
  ⟨fun _ => rfl, fun accepted waiting => absurd (accepted.symm.trans waiting) Bool.false_ne_true⟩

theorem JobStatus.isUnaccepted_of_isLocalQueue {status : JobStatus} (queued : status.isLocalQueue = true) :
    History.isUnaccepted status = true := by
  cases status <;> first | rfl | cases queued

theorem JobStatus.accepted_of_isTerminal {status : JobStatus} (terminal : status.isTerminal = true) :
    History.isUnaccepted status = false := by
  cases status <;> first | rfl | cases terminal

/-- Only a note makes an accepted row wait again. -/
theorem Desk.row?_apply_of_accepted {d : Desk} {deed : Deed} (allowed : d.Allows deed) {id : String} {row : Row}
    (found : d.row? id = some row) (accepted : History.isUnaccepted row.status = false) :
    ∃ after, (d.apply deed).row? id = some after ∧
      (History.isUnaccepted after.status = true → deed = .note id after.status) := by
  have same : History.isUnaccepted row.status = true → deed = .note id row.status :=
    fun waiting => absurd (accepted.symm.trans waiting) Bool.false_ne_true
  have notQueued : ∀ old, d.row? id = some old → old.status.isLocalQueue = true → False := by
    intro old present queued
    obtain rfl : row = old := Option.some.inj (found.symm.trans present)
    exact absurd (accepted.symm.trans (JobStatus.isUnaccepted_of_isLocalQueue queued)) Bool.false_ne_true
  have put : ∀ new : Row, History.isUnaccepted new.status = false →
      ∃ after, (d.putRow new).row? id = some after ∧
        (History.isUnaccepted after.status = true → deed = .note id after.status) := by
    intro new ran
    by_cases equal : new.id = id
    · subst equal
      exact ⟨new, row?_putRow_self d new, fun waiting => absurd (ran.symm.trans waiting) Bool.false_ne_true⟩
    · exact ⟨row, (row?_putRow_of_ne d new equal).trans found, same⟩
  have set : ∀ (other : String) (status : JobStatus),
      (History.isUnaccepted status = true → other = id → deed = .note id status) →
      ∃ after, (d.setStatus other status).row? id = some after ∧
        (History.isUnaccepted after.status = true → deed = .note id after.status) := by
    intro other status noted
    by_cases equal : other = id
    · subst equal
      exact ⟨{ row with status := status }, (row?_setStatus_self d other status).trans (by rw [found]; rfl),
        fun waiting => noted waiting rfl⟩
    · exact ⟨row, (row?_setStatus_of_ne d status equal).trans found, same⟩
  cases deed with
  | quiet | rename _ | pair _ | owner _ _ _ => exact ⟨row, found, same⟩
  | enqueue new => exact ⟨row, row?_enqueue d new found, same⟩
  | accept new grant => exact put new (by rw [allowed.2.1]; rfl)
  | deny new =>
    obtain ⟨-, reason, denied⟩ := allowed
    exact put new (by rw [denied]; rfl)
  | finish new grant success =>
    exact put new (JobStatus.accepted_of_isTerminal (isTerminal_of_isOutcome allowed.2.2))
  | note other status => exact set other status (fun _ equal => by rw [equal])
  | requeue other status =>
    obtain ⟨old, present, queued, -⟩ := allowed
    exact set other status (fun _ equal => (notQueued old (equal ▸ present) queued).elim)
  | lose other reason => exact set other _ nofun
  | recover reason =>
    refine ⟨_, (row?_interrupt d reason id).trans (by rw [found]; rfl), ?_⟩
    dsimp only
    split_ifs
    · exact nofun
    · exact fun waiting => nomatch same waiting

namespace Store

variable {c : Crypto} {Allowed : Store → Event → Prop} {s t next : Store} {id : String} {row : Row}

/-- The row of a job is followed by one that it may be followed by. -/
def Leads (s t : Store) (id : String) (Back : Prop) : Prop :=
  ∀ row, s.desk.row? id = some row → ∃ after, t.desk.row? id = some after ∧ row.Follows Back after

theorem leads_of_desk {Back : Prop} (same : t.desk = s.desk) : s.Leads t id Back :=
  fun row found => ⟨row, same ▸ found, .refl Back row⟩

theorem leads_of_jobs {Back : Prop} (same : t.jobs = s.jobs) : s.Leads t id Back := by
  intro row found
  refine ⟨row, ?_, .refl Back row⟩
  rw [row?_desk, job?, same]
  rw [row?_desk] at found
  exact found

theorem Does.leads {deed : Deed} {Back : Prop} (does : s.Does deed t)
    (noted : ∀ status, deed = .note id status → History.isUnaccepted status = true →
      (∀ row, s.desk.row? id = some row → History.isUnaccepted row.status = false) → Back) : s.Leads t id Back := by
  intro row found
  rw [does.2]
  by_cases accepted : History.isUnaccepted row.status = false
  · obtain ⟨after, present, back⟩ := Desk.row?_apply_of_accepted does.1 found accepted
    refine ⟨after, present, fun terminal => ?_, fun _ waiting => noted _ (back waiting) waiting (fun other here => ?_)⟩
    · exact Option.some.inj (present.symm.trans (Desk.row?_apply_of_terminal does.1 found terminal))
    · obtain rfl : row = other := Option.some.inj (found.symm.trans here)
      exact accepted
  · obtain ⟨after, present, -⟩ := Desk.row?_apply does.1 found
    refine ⟨after, present, fun terminal => absurd (JobStatus.accepted_of_isTerminal terminal) accepted,
      fun ran => absurd ran accepted⟩

/-- A failed delivery does not make a job wait again. -/
theorem isUnaccepted_failedDelivery {status : JobStatus} {e : ClixError} (active : status.isTerminal = false)
    (waiting : History.isUnaccepted (Dispatch.failedDelivery status e) = true) : History.isUnaccepted status = true := by
  cases status with
  | queued | waitingBody | waitingCapacity => rfl
  | running => cases e <;> cases waiting
  | done | denied | failed | uncertain => cases active

/-- What a runner reports about a job is that it accepted it. -/
theorem accepted_of_reported {record : Record} {signed : SignedFact}
    (valid : History.validateRecord c s record = .ok ()) (reported : record.runner = some signed) :
    History.isUnaccepted signed.fact.status = false :=
  ((History.validateRecord_eq_ok.mp valid).1.runner signed reported).may.2

/-- After an edit a job waits again only when an unsigned answer says so. -/
theorem Edits.leads (edits : s.Edits c Allowed t) (id : String) :
    s.Leads t id (∃ dispatch incoming, incoming.id = id ∧ Allowed s (.answer dispatch incoming)) := by
  cases edits with
  | settings work trust => exact leads_of_jobs work.jobs
  | renamed work key alone left named idle => exact leads_of_jobs work.jobs
  | paired peer ran => exact leads_of_jobs (by rw [(Pair.updatePeer_eq_ok ran).2.1])
  | admitted env origin argv other cert v begun named permitted checked ran =>
    obtain ⟨admissible, -, startable⟩ := Exec.precheck_eq_none checked
    have nonempty := (Limits.invocation_eq_ok admissible).2.1
    obtain ⟨⟨deed, does, kind⟩, -⟩ := Exec.admit_does ran startable nonempty
    refine does.leads (fun status noted => ?_)
    rcases kind with ⟨g, -, rfl, -⟩ | ⟨-, rfl⟩ <;> cases noted
  | enqueued job retryOf queued silent fresh ran =>
    exact (Dispatch.appendEdit_does queued fresh ran).1.leads (fun status noted => by cases noted)
  | answered peer incoming job dispatch permitted ran other =>
    obtain ⟨rfl, -, old, found, addressed, active, same⟩ := Dispatch.peerResult_eq_some ran
    have does := (Dispatch.putJobEdit_does found active (addressed ▸ other) same rfl).1
    refine does.leads (fun status noted _ _ => ?_)
    cases noted
    exact ⟨dispatch, job, rfl, permitted⟩
  | undelivered other e job ran foreign =>
    obtain ⟨old, found, rfl, active, same⟩ := Dispatch.undelivered_eq_some ran
    have elsewhere : old.body.name ≠ s.bodyName := by
      obtain ⟨row, present, other⟩ := foreign
      rw [row?_desk, found] at present
      cases present
      exact other
    have does := (Dispatch.putJobEdit_does found active elsewhere (by rw [same]; rfl) rfl).1
    refine does.leads (fun status noted waiting accepted => ?_)
    cases noted
    have ran := accepted old.row (by rw [row?_desk, found]; rfl)
    rw [same] at waiting
    exact absurd (ran.symm.trans (isUnaccepted_failedDelivery active waiting)) Bool.false_ne_true
  | replied peer published v ran other =>
    obtain ⟨⟨signed, reported, valid, -, addressed, quiet | ⟨existing, found, -, agrees, active, desk⟩⟩, -⟩ :=
      History.acceptRunnerReply_eq_ok ran
    · exact leads_of_desk quiet
    · obtain ⟨-, -, body, -⟩ := History.matchesJob_eq_true agrees
      have does : s.Does (.note published.record.certificate.invocation.id signed.fact.status) t := by
        refine ⟨⟨existing.row, by rw [row?_desk, found]; rfl, active, ?_⟩, desk⟩
        change existing.body.name ≠ s.bodyName
        rw [← body, addressed]
        exact other
      refine does.leads (fun status noted waiting _ => ?_)
      cases noted
      exact absurd ((accepted_of_reported valid reported).symm.trans waiting) Bool.false_ne_true
  | merged peer progress page known ran => exact leads_of_desk (History.mergePage_samePublished ran).desk
  | pruned keep removed ran => exact leads_of_desk (Storage.prune_samePruned ran).desk
  | refusedLocally other e ran =>
    obtain ⟨⟨deed, does, quiet | ⟨status, requeued⟩⟩, -⟩ := Dispatch.localError_does ran
    · exact does.leads (fun status noted => by rw [quiet] at noted; cases noted)
    · exact does.leads (fun status noted => by rw [requeued] at noted; cases noted)
  | finished grant run outcome going tool ran =>
    exact (Exec.finishEdit_does going tool ran).1.leads (fun status noted => by cases noted)
  | recovered =>
    have does : s.Does (.recover recoveryReason) (markInterrupted recoveryReason s) :=
      ⟨trivial, desk_markInterrupted s recoveryReason⟩
    exact does.leads (fun status noted => by cases noted)

/-- What is saved has the rows of the edit. -/
theorem Writes.desk (writes : s.Writes c Allowed next) :
    ∃ edited, s.Edits c Allowed edited ∧ next.desk = edited.desk := by
  obtain ⟨-, edited, refreshed, epochId, edits, published, fits⟩ := writes
  have one := History.refreshOwned_samePublished published
  have two := History.normalizeOutput_samePruned { refreshed with formatVersion := formatVersionNow }
  have three := Storage.evict_samePruned (Storage.prepare_eq_ok fits).2.1
  exact ⟨edited, edits, (three.desk.trans two.desk).trans one.desk⟩

theorem Writes.leads (writes : s.Writes c Allowed next) (id : String) :
    s.Leads next id (∃ dispatch incoming, incoming.id = id ∧ Allowed s (.answer dispatch incoming)) := by
  obtain ⟨edited, edits, same⟩ := writes.desk
  intro row found
  rw [same]
  exact edits.leads id row found

theorem Notes.leads (notes : s.Notes t) (id : String) : s.Leads t id False := by
  cases notes with
  | contact peer p => exact leads_of_jobs rfl
  | gaveUp other e allowed =>
    have does : s.Does (.lose other (Exec.unsavedReason e)) (Exec.setStatus s other (Exec.unsavedStatus e)) :=
      ⟨allowed, desk_setStatus s other _⟩
    exact does.leads (fun status noted => by cases noted)
  | recoveryFailed e =>
    have does : s.Does (.recover unsavedRecoveryReason) (s.recoveryFailed e) :=
      ⟨trivial, desk_markInterrupted _ unsavedRecoveryReason⟩
    exact does.leads (fun status noted => by cases noted)

/-- A job that is over, with its status. -/
def Over (s : Store) (id : String) (status : JobStatus) : Prop :=
  ∃ job, s.job? id = some job ∧ job.status = status

/-- A job that was signed for and that its runner accepted. -/
def Underway (s : Store) (id : String) : Prop :=
  s.SignedJob id ∧ ∃ job, s.job? id = some job ∧ History.isUnaccepted job.status = false

theorem Over.leads {status : JobStatus} {Back : Prop} (held : s.Over id status) (terminal : status.isTerminal = true)
    (leads : s.Leads t id Back) : t.Over id status := by
  obtain ⟨job, found, same⟩ := held
  obtain ⟨after, present, follows⟩ := leads job.row (by rw [row?_desk, found]; rfl)
  have equal : after = job.row := follows.finished (by rw [Job.row, same]; exact terminal)
  rw [row?_desk, Option.map_eq_some_iff] at present
  obtain ⟨job', there, row⟩ := present
  exact ⟨job', there, (congrArg Row.status (row.trans equal)).trans same⟩

theorem accepted_leads {Back : Prop} {job : Job} (found : s.job? id = some job)
    (accepted : History.isUnaccepted job.status = false) (leads : s.Leads t id Back) (never : ¬Back) :
    ∃ job', t.job? id = some job' ∧ History.isUnaccepted job'.status = false := by
  obtain ⟨after, present, follows⟩ := leads job.row (by rw [row?_desk, found]; rfl)
  rw [row?_desk, Option.map_eq_some_iff] at present
  obtain ⟨job', there, rfl⟩ := present
  refine ⟨job', there, ?_⟩
  by_contra waiting
  exact never (follows.onward accepted (by rw [Bool.not_eq_false] at waiting; exact waiting))

end Store

/-- A job that is over is over in every later state. -/
theorem sustained_over {c : Crypto} {Allowed : Store → Event → Prop} {id : String} {status : JobStatus}
    (terminal : status.isTerminal = true) : Sustained c Allowed (fun s => s.Over id status) where
  write _ _ writes held := held.leads terminal (writes.leads id)
  note _ _ notes held := held.leads terminal (notes.leads id)
  complete s t completes held := by
    have same : s.Leads t id False := Store.leads_of_jobs completes.frame.2.2.2
    exact held.leads terminal same
  reload _ held := held
  stop _ _ held := held

/-- An unsigned answer names no job that was signed for. -/
def Store.AsksApart (s : Store) (e : Event) : Prop :=
  ∀ dispatch incoming, e = .answer dispatch incoming → ¬s.SignedJob incoming.id

/-- While no unsigned answer names a job that was signed for, an accepted one does not wait again. -/
theorem sustained_underway {c : Crypto} {id : String} :
    Sustained c Store.AsksApart (fun s => s.Begun ∧ s.Underway id) where
  write s next writes holds := by
    obtain ⟨begun, signed, job, found, accepted⟩ := holds
    refine ⟨writes.begun begun, signed.touches (writes.touches begun), ?_⟩
    refine Store.accepted_leads found accepted (writes.leads id) (fun back => ?_)
    obtain ⟨dispatch, incoming, rfl, apart⟩ := back
    exact apart dispatch incoming rfl signed
  note s t notes holds := by
    obtain ⟨begun, signed, job, found, accepted⟩ := holds
    exact ⟨notes.thinned.begun begun, @Store.SignedJob.touch c (fun _ _ => True) _ _ _ signed (.thin notes.thinned),
      Store.accepted_leads found accepted (notes.leads id) (fun never => never)⟩
  complete s t completes holds := by
    obtain ⟨begun, signed, job, found, accepted⟩ := holds
    obtain ⟨history, bindings, labels, jobs⟩ := completes.frame
    refine ⟨completes.begun begun, ⟨bindings ▸ signed.1, labels ▸ signed.2⟩, ?_⟩
    have same : s.Leads t id False := Store.leads_of_jobs jobs
    exact Store.accepted_leads found accepted same (fun never => never)
  reload s holds := ⟨(Store.thinned_reloaded s).begun holds.1, holds.2⟩
  stop s e holds := ⟨(Store.thinned_stopped s e).begun holds.1, holds.2⟩

/-! ## Replies -/

/-- The status of a job differs. -/
def Store.Changes (s t : Store) (id : String) (row : Row) : Prop :=
  s.desk.row? id = some row ∧ ∃ after, t.desk.row? id = some after ∧ after.status ≠ row.status

theorem Store.changes_of_job {s t : Store} {id : String} {job job' : Job} (found : s.job? id = some job)
    (there : t.job? id = some job') (differs : job'.status ≠ job.status) : s.Changes t id job.row :=
  ⟨by rw [row?_desk, found]; rfl, job'.row, by rw [row?_desk, there]; rfl, differs⟩

/-- Setting one status changes that of no other job. -/
theorem Store.Changes.of_setStatus {s t : Store} {id other : String} {status : JobStatus} {row : Row}
    (changes : s.Changes t id row) (same : t.desk = s.desk.setStatus other status) : id = other := by
  obtain ⟨found, after, present, differs⟩ := changes
  by_contra distinct
  rw [same, Desk.row?_setStatus_of_ne _ _ (Ne.symm distinct), found] at present
  cases present
  exact differs rfl

theorem Store.Changes.of_desk {s t : Store} {id : String} {row : Row} (changes : s.Changes t id row)
    (same : t.desk = s.desk) : False := by
  obtain ⟨found, after, present, differs⟩ := changes
  rw [same, found] at present
  cases present
  exact differs rfl

namespace Daemon

variable {c : Crypto} {d : Daemon} {env : Env} {t : Store} {id : String} {row : Row}

/-- What a step leaves: the state in memory, and the one it saved. -/
def Leaves (cell cell' : DurableCell Image) (t : Store) : Prop :=
  t = cell'.mem.store ∨ (t = cell'.file.store ∧ cell'.file ≠ cell.file)

theorem not_changes_of_same (leaves : Leaves d.cell d.cell t) (changes : d.store.Changes t id row) : False := by
  rcases leaves with rfl | ⟨-, differs⟩
  · exact changes.of_desk rfl
  · exact differs rfl

theorem leaves_update {α : Type} {edit : Store → Result (Store × α)}
    (leaves : Leaves d.cell (d.quietUpdate c env edit).1.cell t) :
    t.desk = d.store.desk ∨ ∃ edited value, edit d.store = .ok (edited, value) ∧ t.desk = edited.desk := by
  unfold quietUpdate at leaves
  rcases update_cases (d := d) (c := c) env.epochId env.fault edit (fun _ => []) with
    ⟨e, same⟩ | ⟨next, value, staged, same⟩
  · rw [same] at leaves
    rcases leaves with rfl | ⟨-, differs⟩
    · exact .inl rfl
    · exact absurd rfl differs
  · rw [same] at leaves
    obtain ⟨edited, ran, desk, -⟩ := Store.stage_desk staged
    have saved : t = next → ∃ edited value, edit d.store = .ok (edited, value) ∧ t.desk = edited.desk := by
      rintro rfl
      exact ⟨edited, value, ran, desk⟩
    rcases fault : env.fault with _ | ⟨call, e⟩
    · rw [fault] at leaves
      rcases leaves with here | ⟨here, -⟩ <;> exact .inr (saved here)
    · rw [fault] at leaves
      rcases leaves with rfl | ⟨here, differs⟩
      · refine .inl ?_
        cases call <;> rfl
      · cases call with
        | privateDir | createTemp | write | flush | rename => exact absurd rfl differs
        | syncDirectory => exact .inr (saved here)

theorem cell_attempt {α : Type} (dispatch : Dispatch) (done : Daemon × Result α) :
    (attempt dispatch done).cell = done.1.cell := by
  obtain ⟨after, e | value⟩ := done <;> rfl

/-- A signed reply changes the job that its invocation was bound to, of the peer that was asked. -/
theorem changes_answerCertified {dispatch : Dispatch} {published : Published}
    (leaves : Leaves d.cell (d.answerCertified c env dispatch published).cell t)
    (changes : d.store.Changes t id row) :
    id = published.record.certificate.invocation.id ∧ dispatch.peer.map (·.name) = some row.body ∧
      d.store.jobCertificates.get? id = some (History.invocationHash c published.record.certificate) := by
  unfold answerCertified at leaves
  cases snapshot : dispatch.peer with
  | none =>
    rw [snapshot] at leaves
    exact (not_changes_of_same leaves changes).elim
  | some peer =>
  rw [snapshot] at leaves
  dsimp only at leaves
  split_ifs at leaves
  · exact (not_changes_of_same leaves changes).elim
  rw [cell_attempt] at leaves
  rcases leaves_update leaves with same | ⟨edited, value, ran, same⟩
  · exact (changes.of_desk same).elim
  obtain ⟨⟨signed, -, -, -, addressed, quiet | ⟨existing, found, bound, agrees, -, desk⟩⟩, -⟩ :=
    History.acceptRunnerReply_eq_ok ran
  · exact (changes.of_desk (same.trans quiet)).elim
  · obtain rfl := changes.of_setStatus (same.trans desk)
    refine ⟨rfl, ?_, bound⟩
    obtain ⟨-, -, body, -⟩ := History.matchesJob_eq_true agrees
    have present := changes.1
    rw [Store.row?_desk, found] at present
    cases present
    exact congrArg some (addressed.symm.trans body)

/-- An unsigned reply changes the job it names, if that was this command and asked of this peer. -/
theorem changes_answer {dispatch : Dispatch} {incoming : Job}
    (leaves : Leaves d.cell (d.answer c env dispatch incoming).cell t) (changes : d.store.Changes t id row) :
    id = incoming.id ∧ dispatch.peer.map (·.name) = some row.body ∧ row.body = incoming.body ∧
      row.origin = incoming.origin ∧ row.argv = incoming.argv := by
  unfold answer at leaves
  cases snapshot : dispatch.peer with
  | none =>
    rw [snapshot] at leaves
    exact (not_changes_of_same leaves changes).elim
  | some peer =>
  rw [snapshot] at leaves
  dsimp only at leaves
  split_ifs at leaves
  · exact (not_changes_of_same leaves changes).elim
  cases checked : Dispatch.peerResult d.store peer.name incoming with
  | error e =>
    rw [checked] at leaves
    exact (not_changes_of_same leaves changes).elim
  | ok found =>
  rw [checked] at leaves
  cases found with
  | none => exact (not_changes_of_same leaves changes).elim
  | some job =>
  dsimp only at leaves
  rw [cell_attempt] at leaves
  rcases leaves_update leaves with same | ⟨edited, value, ran, same⟩
  · exact (changes.of_desk same).elim
  obtain ⟨rfl, -, old, found, addressed, -, row'⟩ := Dispatch.peerResult_eq_some checked
  have present : d.store.desk.row? job.row.id = some old.row := by
    rw [Store.row?_desk]
    exact congrArg (Option.map Job.row) found
  cases ran
  rw [Store.desk_setJob, Desk.putRow_eq_setStatus present row'] at same
  obtain rfl := changes.of_setStatus same
  have equal : old.row = row := Option.some.inj (present.symm.trans changes.1)
  rw [← equal]
  have fields : job.row.body = old.row.body ∧ job.row.origin = old.row.origin ∧ job.row.argv = old.row.argv := by
    rw [row']
    exact ⟨rfl, rfl, rfl⟩
  exact ⟨rfl, congrArg some addressed.symm, fields.1.symm, fields.2.1.symm, fields.2.2.symm⟩

theorem leaves_step {e : Event} (waits : ∀ id status, e ≠ .exited id status) (running : ∀ boot, e ≠ .restart boot)
    (leaves : Leaves d.cell (d.step c (env, e)).cell t) :
    Leaves d.cell d.cell t ∨ Leaves d.cell (d.liveStep c env e).cell t := by
  rw [step] at leaves
  split_ifs at leaves
  · exact .inr leaves
  · dsimp only at leaves
    split at leaves
    · next id status => exact absurd rfl (waits id status)
    · next boot => exact absurd rfl (running boot)
    · exact .inl leaves

/-- While no unsigned answer names a job that was signed for: a job that is over keeps its status, a running one with a
modern certificate does not wait again, and a reply changes the status of the one job that it is about. -/
theorem lifecycle (c : Crypto) (file : Store) (initial : file.Initial) (before after : List (Env × Event))
    (permits : (installed file).PermitsAll c Store.AsksApart (before ++ after)) :
    let now := (installed file).run c before
    let later := (installed file).run c (before ++ after)
    (∀ id job, now.cell.certain.store.job? id = some job →
      (job.status.isTerminal = true → Everywhere (fun image => image.store.Over id job.status) later.cell) ∧
      (job.status = .running → ∀ e, History.forJob now.cell.certain.store job = some e →
        Everywhere (fun image => ∃ job', image.store.job? id = some job' ∧
          History.isUnaccepted job'.status = false) later.cell)) ∧
    (∀ env dispatch published t id row,
      Leaves now.cell (now.step c (env, .answerCertified dispatch published)).cell t → now.store.Changes t id row →
      id = published.record.certificate.invocation.id ∧ dispatch.peer.map (·.name) = some row.body ∧
        now.store.jobCertificates.get? id = some (History.invocationHash c published.record.certificate)) ∧
    (∀ env dispatch incoming t id row, ¬now.store.SignedJob incoming.id →
      Leaves now.cell (now.step c (env, .answer dispatch incoming)).cell t → now.store.Changes t id row →
      id = incoming.id ∧ dispatch.peer.map (·.name) = some row.body ∧ row.body = incoming.body ∧
        row.origin = incoming.origin ∧ row.argv = incoming.argv ∧
        ∀ job, now.store.job? id = some job → History.forJob now.store job = none) := by
  dsimp only
  have labelled : Everywhere (Image.Being (fun s => s.Begun ∧ s.Labelled)) ((installed file).run c before).cell :=
    everywhere_run sustained_labelled initial.inv (ready_installed file) before ((permitsAll_append _ _ _).mp permits).1
      (everywhere_installed ⟨initial.begun, initial.labelled⟩)
  refine ⟨fun id job found => ⟨fun terminal => ?_, fun going e modern => ?_⟩, ?_, ?_⟩
  · exact everywhere_of_certain (sustained_over terminal) initial.inv permits ⟨job, found, rfl⟩
  · obtain ⟨begun, here⟩ := Everywhere.certain labelled
    have named : job.id = id := by simpa using List.find?_some found
    have signed := here.signedJob modern
    rw [named] at signed
    have holds := everywhere_of_certain sustained_underway initial.inv permits
      ⟨begun, signed, job, found, by rw [going]; rfl⟩
    exact Everywhere.mono (fun image here => here.2.2) holds
  · intro env dispatch published t id row leaves changes
    rcases leaves_step (fun _ _ same => by cases same) (fun _ same => by cases same) leaves with same | live
    · exact (not_changes_of_same same changes).elim
    · exact changes_answerCertified live changes
  · intro env dispatch incoming t id row unsigned leaves changes
    rcases leaves_step (fun _ _ same => by cases same) (fun _ same => by cases same) leaves with same | live
    · exact (not_changes_of_same same changes).elim
    · obtain ⟨rfl, addressed, body, origin, argv⟩ := changes_answer live changes
      refine ⟨rfl, addressed, body, origin, argv, fun job found => ?_⟩
      by_contra bound
      obtain ⟨e, modern⟩ := Option.ne_none_iff_exists'.mp bound
      have named : job.id = incoming.id := by simpa using List.find?_some found
      exact unsigned (named ▸ labelled.1.2.signedJob modern)

end Daemon

/-! ## An answer that names another job

Alice has a job for bob from before the history, and a certified one that is still queued. She asks him about the first,
and his unsigned answer says that the second is done. -/

namespace UnsignedExample

set_option maxRecDepth 40000

def crypto : Crypto := Crypto.transparent

def aliceKey : Bytes := List.replicate 32 1

def bobKey : Bytes := List.replicate 32 2

def bob : Peer := ⟨⟨"bob"⟩, bobKey, none⟩

def old : Job := ⟨"old", ⟨"bob"⟩, ["tool"], ⟨"alice"⟩, .queued, [], []⟩

def new : Job := { old with id := "new" }

def file : Store := { Store.blank "alice" aliceKey with
  peers := [bob]
  jobs := [old] }

def env : Env where
  now := ⟨0, .mon, 0, 0⟩
  newId := .ok "new"
  epochId := .ok "epoch"
  fs := ⟨fun _ => .error .unreachable, fun _ => .error .unreachable⟩
  fault := none
  meshBusy := false

def started : List (Env × Event) := [(env, .restart ⟨false, "alice", aliceKey, none, none, none⟩)]

def submitted : List (Env × Event) :=
  [(env, .compose "bob" ["tool"]), (env, .submit ⟨⟨"alice"⟩, ⟨"bob"⟩, ["tool"], none⟩)]

/-- Bob is asked about the old job. -/
def asked : List (Env × Event) := [(env, .selectJob "old")]

def dispatch : Dispatch := ⟨old, some bob, none⟩

/-- Bob answers that some job is done. -/
def answers (job : Job) : List (Env × Event) := [(env, .answer dispatch { job with status := .done 0 })]

def alice (events : List (Env × Event)) : Daemon := (Daemon.installed file).run crypto events

theorem asks_apart : ∀ e ∈ started ++ submitted ++ asked, ∀ s : Store, s.AsksApart e.2 := by
  intro e member s dispatch incoming same
  simp only [started, submitted, asked, List.cons_append, List.nil_append, List.mem_cons, List.not_mem_nil,
    or_false] at member
  rcases member with rfl | rfl | rfl | rfl <;> cases same

/-- A job of an earlier version that is still asked about. -/
def elder : Job := { old with id := "elder" }

def pending : Store := { file with jobs := [elder, { old with status := .done 0 }] }

/-- Bob is asked about the earlier job, and answers that it is done. -/
def answered : List (Env × Event) :=
  [(env, .selectJob "elder"), (env, .answer ⟨elder, some bob, none⟩ { elder with status := .done 0 })]

theorem pending_initial : pending.Initial where
  named := by decide
  unique := by
    rw [Desk.Unique]
    decide
  unbound := rfl
  unlabelled := rfl
  unrecorded := rfl

theorem elder_unsigned : ¬((Daemon.installed pending).run crypto (started ++ submitted ++
    [(env, .selectJob "elder")])).store.SignedJob "elder" := by
  decide

/-- No answer about the earlier job names one that was signed for. -/
theorem answers_apart : (Daemon.installed pending).PermitsAll crypto Store.AsksApart
    ([] ++ (started ++ submitted ++ answered)) := by
  have split : started ++ submitted ++ answered = (started ++ submitted ++ [(env, .selectJob "elder")]) ++
      [(env, .answer ⟨elder, some bob, none⟩ { elder with status := .done 0 })] := rfl
  rw [List.nil_append, split, Daemon.permitsAll_append, Daemon.permitsAll_append]
  refine ⟨⟨Daemon.permitsAll_of_forall _ _ (fun e member => asks_apart e (List.mem_append_left _ member)), ?_, trivial⟩,
    ?_, trivial⟩
  · intro dispatch incoming same
    cases same
  · intro dispatch incoming same
    cases same
    exact elder_unsigned

/-- A job that was over before stays so while alice starts, submits another one and is told of a third. -/
theorem old_stays : Everywhere (fun image => image.store.Over "old" (.done 0))
    ((Daemon.installed pending).run crypto ([] ++ (started ++ submitted ++ answered))).cell :=
  ((Daemon.lifecycle crypto pending pending_initial [] (started ++ submitted ++ answered) answers_apart).1 "old"
    { old with status := .done 0 } rfl).1 rfl

theorem settled :
    ((alice (started ++ submitted ++ asked)).store.job? "new" = some new ∧
      (History.forJob (alice (started ++ submitted ++ asked)).store new).isSome = true) ∧
    ((alice (started ++ submitted ++ asked)).run crypto (answers new)).store.job? "new" =
      some { new with status := .done 0 } := by
  decide

/-- An unsigned answer to a query for the old job changes the status of the certified one. -/
theorem certified_changes : ∃ row e, (alice (started ++ submitted ++ asked)).store.Changes
      (alice (started ++ submitted ++ asked ++ answers new)).store "new" row ∧
    (alice (started ++ submitted ++ asked)).store.job? "new" = some new ∧
    History.forJob (alice (started ++ submitted ++ asked)).store new = some e := by
  obtain ⟨⟨found, modern⟩, done⟩ := settled
  rw [alice, ← Daemon.run_append] at done
  obtain ⟨e, certified⟩ := Option.isSome_iff_exists.mp modern
  exact ⟨new.row, e, Store.changes_of_job found done (by decide), found, certified⟩

end UnsignedExample

end Clix
