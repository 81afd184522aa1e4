import Clix.Proofs.Frame

/-! # Every edit is a deed

One lemma for each edit that an update runs: the desk it makes is one deed applied to the desk it was
given, and the deed was allowed there.
-/

namespace Clix

open Except

/-- The desk after an edit is a deed of the desk before. -/
def Store.Does (s : Store) (deed : Deed) (t : Store) : Prop :=
  s.desk.Allows deed ∧ t.desk = s.desk.apply deed

theorem Store.does_quiet {s t : Store} (same : t.desk = s.desk) : s.Does .quiet t := ⟨trivial, same⟩

theorem Store.row?_desk (s : Store) (id : String) : s.desk.row? id = (s.job? id).map Job.row := by
  rw [Desk.row?, Store.desk, Store.job?, List.find?_map]
  rfl

theorem Store.desk_setJob (s : Store) (job : Job) : (s.setJob job).desk = s.desk.putRow job.row := by
  have rows : (s.jobs.put (fun j => j.id == job.id) job).map Job.row =
      (s.jobs.map Job.row).put (fun r => r.id == job.row.id) job.row := by
    cases found : s.job? job.id with
    | none =>
      have absent : (s.jobs.map Job.row).find? (fun r => r.id == job.row.id) = none := by
        rw [List.find?_map]
        exact congrArg (Option.map Job.row) found
      rw [List.put_of_find?_none found, List.put_of_find?_none absent, List.map_append]
      rfl
    | some old =>
      have present : (s.jobs.map Job.row).find? (fun r => r.id == job.row.id) = some old.row := by
        rw [List.find?_map]
        exact congrArg (Option.map Job.row) found
      rw [List.put_of_find? found, List.put_of_find? present]
      exact List.map_modifyFirst _ _ _ _ _ _ (fun _ _ => rfl) (fun _ _ _ => rfl)
  rw [Store.setJob, Store.desk, rows]
  rfl

theorem Store.desk_setStatus (s : Store) (id : String) (status : JobStatus) :
    ({ s with
      jobs := s.jobs.modifyFirst (fun j => j.id == id) (fun j => { j with status := status }) }).desk =
      s.desk.setStatus id status := by
  have rows : (s.jobs.modifyFirst (fun j => j.id == id) (fun j => { j with status := status })).map
      Job.row = (s.jobs.map Job.row).modifyFirst (fun r => r.id == id)
        (fun r => { r with status := status }) :=
    List.map_modifyFirst _ _ _ _ _ _ (fun _ _ => rfl) (fun _ _ _ => rfl)
  rw [Store.desk, rows]
  rfl

theorem Store.desk_markInterrupted (s : Store) (reason : String) :
    (s.markInterrupted reason).desk = s.desk.interrupt reason := by
  simp only [Store.desk, Store.markInterrupted, Desk.interrupt, List.map_map]
  congr 1
  apply List.map_congr_left
  intro j _
  by_cases interrupted : j.body.name = s.bodyName ∧ j.status = .running <;>
    simp [Job.row, interrupted]

/-- Putting back a row with another status is changing its status. -/
theorem Desk.putRow_eq_setStatus {d : Desk} {old row : Row} (found : d.row? row.id = some old)
    (same : row = { old with status := row.status }) : d.putRow row = d.setStatus row.id row.status := by
  rw [Desk.putRow, Desk.setStatus, List.put_of_find? found]
  have changed : d.rows.modifyFirst (fun r => r.id == row.id) (fun _ => row) =
      d.rows.modifyFirst (fun r => r.id == row.id) (fun r => { r with status := row.status }) :=
    List.modifyFirst_congr found same
  rw [changed]

namespace History

variable {c : Crypto} {s t : Store}

theorem ensureEntry_samePublished {cert : Certificate} (success : ensureEntry c s cert = .ok t) :
    s.SamePublished t := by
  rw [ensureEntry] at success
  split_ifs at success
  · cases success
    exact .refl _
  · rw [bind_eq_ok] at success
    obtain ⟨⟨change, u⟩, stamped, success⟩ := success
    cases success
    exact (nextChange_samePublished stamped).trans (setEntry_samePublished u _ _)

theorem linkRetry_frame (s : Store) (id : String) (retryOf : Option String) :
    linkRetry s id retryOf = { s with retryLinks := (linkRetry s id retryOf).retryLinks } := by
  cases retryOf <;> rfl

/-- Binding an admission changes history, bindings and retry links only. -/
theorem bindAdmission_frame {cert : Certificate} (success : bindAdmission c s cert = .ok t) :
    t = { s with
      history := t.history
      jobCertificates := t.jobCertificates
      legacyJobs := t.legacyJobs
      retryLinks := t.retryLinks } := by
  rw [bindAdmission, bind_eq_ok] at success
  obtain ⟨⟨⟩, -, success⟩ := success
  rw [bind_eq_ok] at success
  obtain ⟨u, added, success⟩ := success
  cases success
  rw [linkRetry_frame]
  dsimp only
  rw [ensureEntry_samePublished added]

theorem ingest_samePublished {published : Published} {changed : Bool}
    (success : ingest c s published = .ok (t, changed)) : s.SamePublished t := by
  unfold ingest at success
  rw [bind_eq_ok] at success
  obtain ⟨⟨⟩, -, success⟩ := success
  rw [bind_eq_ok] at success
  obtain ⟨⟨⟩, -, success⟩ := success
  dsimp only at success
  rw [refuseIf_bind_eq_ok] at success
  obtain ⟨-, success⟩ := success
  rw [bind_eq_ok] at success
  obtain ⟨⟨origin, originChanged⟩, -, success⟩ := success
  rw [bind_eq_ok] at success
  obtain ⟨⟨runner, runnerChanged⟩, -, success⟩ := success
  dsimp only at success
  split_ifs at success
  · rw [bind_eq_ok] at success
    obtain ⟨⟨change, u⟩, stamped, success⟩ := success
    cases success
    exact (nextChange_samePublished stamped).trans (setEntry_samePublished u _ _)
  · cases success
    exact .refl _

theorem mergeRows_samePublished {unknown flagged : Bool} {rows : List Published}
    (success : mergeRows c s unknown rows = .ok (t, flagged)) : s.SamePublished t := by
  induction rows generalizing s unknown with
  | nil =>
    cases success
    exact .refl _
  | cons entry rest ih =>
    rw [mergeRows] at success
    split_ifs at success
    · rw [bind_eq_ok] at success
      obtain ⟨⟨u, changed⟩, merged, success⟩ := success
      exact (ingest_samePublished merged).trans (ih success)
    · exact ih success

theorem mergePage_samePublished {peer : BodyId} {progress : Progress} {page : Page}
    (success : mergePage c s peer progress page = .ok t) : s.SamePublished t := by
  rw [mergePage, bind_eq_ok] at success
  obtain ⟨⟨u, flagged⟩, merged, success⟩ := success
  cases success
  exact (mergeRows_samePublished merged).trans rfl

theorem matchesJob_eq_true {cert : Certificate} {job : Job} (agrees : matchesJob cert job = true) :
    cert.invocation.id = job.id ∧ cert.invocation.origin = job.origin ∧ cert.invocation.body = job.body ∧
      cert.invocation.argv = job.argv := by
  simpa [matchesJob, and_assoc] using agrees

/-- A validated runner response is about the job it is bound to, whose status it sets if that was still open. -/
theorem acceptRunnerReply_eq_ok {peer : BodyId} {published : Published} {job : Option Job}
    (success : acceptRunnerReply c s peer published = .ok (t, job)) :
    (∃ signed, published.record.runner = some signed ∧ validateRecord c s published.record = .ok () ∧
      published.record.certificate.invocation.legacyObserver = none ∧
      published.record.certificate.invocation.body = peer ∧
      (t.desk = s.desk ∨ ∃ existing, s.job? published.record.certificate.invocation.id = some existing ∧
        s.jobCertificates.get? published.record.certificate.invocation.id =
          some (invocationHash c published.record.certificate) ∧
        matchesJob published.record.certificate existing = true ∧ existing.status.isTerminal = false ∧
        t.desk = s.desk.setStatus published.record.certificate.invocation.id signed.fact.status)) ∧
      t.ownerSk = s.ownerSk ∧ t.writeError = s.writeError := by
  unfold acceptRunnerReply at success
  rw [bind_eq_ok] at success
  obtain ⟨⟨⟩, valid, success⟩ := success
  dsimp only at success
  rw [refuseIf_bind_eq_ok] at success
  obtain ⟨addressed, success⟩ := success
  rw [not_or, not_not, Bool.not_eq_true, Option.isSome_eq_false_iff, Option.isNone_iff_eq_none] at addressed
  split at success
  · cases success
  next signed reported =>
  split at success
  · cases success
    exact ⟨⟨signed, reported, valid, addressed.1, addressed.2, .inl rfl⟩, rfl, rfl⟩
  next existing found =>
  rw [refuseIf_bind_eq_ok] at success
  obtain ⟨bound, success⟩ := success
  rw [not_or, not_not, Bool.not_eq_false] at bound
  rw [bind_eq_ok] at success
  obtain ⟨⟨u, changed⟩, merged, success⟩ := success
  have same := ingest_samePublished merged
  dsimp only at success
  split_ifs at success with terminal missing
  · cases success
    exact ⟨⟨signed, reported, valid, addressed.1, addressed.2, .inl same.desk⟩, same.ownerSk, same.writeError⟩
  all_goals
    cases success
    refine ⟨⟨signed, reported, valid, addressed.1, addressed.2, .inr ⟨existing, found, bound.1, bound.2,
      Bool.eq_false_iff.mpr terminal, ?_⟩⟩, same.ownerSk, same.writeError⟩
    have agrees := matchesJob_eq_true bound.2
    have present : s.desk.row? published.record.certificate.invocation.id = some existing.row := by
      rw [Store.row?_desk, found]
      rfl
    rw [Store.desk_setJob]
    change u.desk.putRow _ = _
    rw [same.desk, @Desk.putRow_eq_setStatus _ existing.row]
    · rfl
    · exact present
    · simp only [Job.row, agrees]

/-- A validated runner response changes one row of another machine, or none. -/
theorem acceptRunnerReply_does {peer : BodyId} {published : Published} {job : Option Job}
    (other : peer.name ≠ s.bodyName)
    (success : acceptRunnerReply c s peer published = .ok (t, job)) :
    (∃ deed, (deed = .quiet ∨ ∃ id status, deed = .note id status) ∧ s.Does deed t) ∧
      t.ownerSk = s.ownerSk ∧ t.writeError = s.writeError := by
  obtain ⟨⟨signed, -, -, -, addressed, quiet | ⟨existing, found, -, agrees, active, desk⟩⟩, frame⟩ :=
    acceptRunnerReply_eq_ok success
  · exact ⟨⟨.quiet, .inl rfl, Store.does_quiet quiet⟩, frame⟩
  · obtain ⟨-, -, body, -⟩ := matchesJob_eq_true agrees
    refine ⟨⟨.note _ signed.fact.status, .inr ⟨_, _, rfl⟩, ⟨⟨existing.row, ?_, active, ?_⟩, desk⟩⟩, frame⟩
    · rw [Store.row?_desk, found]
      rfl
    · change existing.body.name ≠ s.bodyName
      rw [← body, addressed]
      exact other

end History

namespace Grant

variable {fs : FileSystem} {s t : Store}

theorem commit_does (s : Store) (g : Grant) (free : g.reservation = none) :
    s.Does (.owner g.tool (some g) (s.grants.filter (fun h => h.tool != g.tool) ++ [g])) (commit s g) := by
  refine ⟨⟨?_, fun h same => Option.some.inj same ▸ ⟨rfl, free, by simp⟩, fun distinct => ⟨?_, ?_⟩⟩, rfl⟩
  · rw [List.filter_append, List.filter_filter]
    simp [Store.desk]
  · rw [List.map_append, List.nodup_append]
    refine ⟨(distinct.sublist (List.filter_sublist.map _)), List.nodup_singleton _, ?_⟩
    rintro tool member other single rfl
    obtain ⟨h, kept, rfl⟩ := List.mem_map.mp member
    have differs := (List.mem_filter.mp kept).2
    rw [List.map_singleton, List.mem_singleton] at single
    simp [single] at differs
  · intro h member same
    rcases List.mem_append.mp member with kept | single
    · have differs := (List.mem_filter.mp kept).2
      simp [same] at differs
    · rw [List.mem_singleton.mp single]

theorem build_reservation {tool : String} {allow : List String} {once : Bool}
    {expiry : Option SystemTime} {schedule : Option Schedule} {args : Option (List (List String))}
    {g : Grant} (success : build fs s tool allow once expiry schedule args = .ok g) :
    g.reservation = none := by
  unfold build at success
  rw [bind_eq_ok] at success
  obtain ⟨⟨⟩, -, success⟩ := success
  rw [refuseIf_bind_eq_ok] at success
  obtain ⟨-, success⟩ := success
  rw [bind_eq_ok] at success
  obtain ⟨⟨⟩, -, success⟩ := success
  rw [bind_eq_ok] at success
  obtain ⟨binary, -, success⟩ := success
  rw [bind_eq_ok] at success
  obtain ⟨⟨⟩, -, success⟩ := success
  cases success
  rfl

theorem addWithArgs_does {tool : String} {allow : List String} {once : Bool}
    {expiry : Option SystemTime} {schedule : Option Schedule} {args : Option (List (List String))}
    {g : Grant} (success : addWithArgs fs s tool allow once expiry schedule args = .ok (t, g)) :
    ∃ grants, s.Does (.owner g.tool (some g) grants) t ∧ t.ownerSk = s.ownerSk ∧
      t.writeError = s.writeError := by
  rw [addWithArgs, bind_eq_ok] at success
  obtain ⟨built, made, success⟩ := success
  cases success
  exact ⟨_, commit_does s g (build_reservation made), rfl, rfl⟩

theorem remove_does {tool : String} {g : Grant} (success : remove fs s tool = .ok (t, g)) :
    ∃ grants, s.Does (.owner g.tool none grants) t ∧ t.ownerSk = s.ownerSk ∧
      t.writeError = s.writeError := by
  rw [remove, bind_eq_ok] at success
  obtain ⟨target, -, success⟩ := success
  split at success
  · cases success
  next removed found =>
  cases success
  obtain ⟨before, after, split, erased⟩ := List.eraseP_of_find? found
  refine ⟨_, ⟨⟨?_, nofun, fun distinct => ⟨?_, ?_⟩⟩, rfl⟩, rfl, rfl⟩
  · change (s.grants.eraseP _).filter _ = s.grants.filter _
    rw [erased, split]
    simp
  · exact distinct.sublist (List.eraseP_sublist.map _)
  · intro h member same
    exfalso
    change h ∈ s.grants.eraseP _ at member
    change (s.grants.map (·.tool)).Nodup at distinct
    rw [erased] at member
    rw [split, List.map_append, List.map_cons, List.nodup_middle, ← List.map_append] at distinct
    exact (List.nodup_cons.mp distinct).1 (same ▸ List.mem_map_of_mem member)

end Grant

namespace Request

variable {fs : FileSystem} {s t : Store} {newId : Result String}

theorem upsert_desk {origin : BodyId} {tool : String} {r : Request}
    (success : upsert newId s origin tool = .ok (t, r)) :
    t.desk = s.desk ∧ t.ownerSk = s.ownerSk ∧ t.writeError = s.writeError := by
  unfold upsert at success
  rw [bind_eq_ok] at success
  obtain ⟨⟨⟩, -, success⟩ := success
  dsimp only at success
  split at success
  · cases success
    exact ⟨rfl, rfl, rfl⟩
  · rw [bind_eq_ok] at success
    obtain ⟨id, -, success⟩ := success
    cases success
    exact ⟨rfl, rfl, rfl⟩

theorem receive_desk {origin : BodyId} {tool : String} {deliveryId : Option String} {r : Request}
    (success : receive newId s origin tool deliveryId = .ok (t, r)) :
    t.desk = s.desk ∧ t.ownerSk = s.ownerSk ∧ t.writeError = s.writeError := by
  unfold receive at success
  rw [bind_eq_ok] at success
  obtain ⟨⟨⟩, -, success⟩ := success
  dsimp only at success
  split at success
  · exact upsert_desk success
  · rw [bind_eq_ok] at success
    obtain ⟨⟨⟩, -, success⟩ := success
    split at success
    · rw [refuseIf_bind_eq_ok] at success
      cases success.2
      exact ⟨rfl, rfl, rfl⟩
    · rw [bind_eq_ok] at success
      obtain ⟨⟨u, made⟩, recorded, success⟩ := success
      cases success
      have same := upsert_desk recorded
      exact same

theorem decide_does {id : String} {decision : Decision} {g : Option Grant}
    (success : decide fs s id decision = .ok (t, g)) :
    ((g = none ∧ s.Does .quiet t) ∨
      ∃ granted grants, g = some granted ∧ s.Does (.owner granted.tool (some granted) grants) t) ∧
      t.ownerSk = s.ownerSk ∧ t.writeError = s.writeError := by
  unfold decide at success
  split at success
  · cases success
  next request _ =>
  split at success
  · rw [bind_eq_ok] at success
    obtain ⟨allow, -, success⟩ := success
    rw [bind_eq_ok] at success
    obtain ⟨built, made, success⟩ := success
    rw [refuseIf_bind_eq_ok] at success
    cases success.2
    exact ⟨.inr ⟨built, _, rfl, Grant.commit_does s built (Grant.build_reservation made)⟩, rfl, rfl⟩
  · cases success
    exact ⟨.inl ⟨rfl, Store.does_quiet rfl⟩, rfl, rfl⟩

end Request

namespace Exec

variable {c : Crypto} {s t : Store} {env : Surroundings} {origin : BodyId} {argv : List String}
  {id : String} {cert : Option Certificate}

theorem existing_eq_none (success : existing c s origin argv id cert = .ok none) (job : Job)
    (found : s.job? id = some job) :
    job.status.isLocalQueue = true ∧ job.origin = origin ∧ job.body.name = s.bodyName ∧
      job.argv = argv ∧ origin.name = s.bodyName := by
  rw [existing, found] at success
  dsimp only at success
  rw [refuseIf_bind_eq_ok] at success
  obtain ⟨same, success⟩ := success
  rw [refuseIf_bind_eq_ok] at success
  obtain ⟨-, success⟩ := success
  simp only [not_or, not_not] at same
  split_ifs at success with queued
  · exact ⟨queued.2, same.1, same.2.1, same.2.2, queued.1⟩
  · cases success

/-- A submission passes its checks only for an ID that may be started. -/
theorem precheck_eq_none (success : precheck c s origin argv id cert = .ok none) :
    Limits.invocation id argv = .ok () ∧ (∀ bound, cert = some bound → checkCertificate c s bound = .ok ()) ∧
      ∀ status, s.desk.Startable ⟨id, ⟨s.bodyName⟩, origin, argv, status⟩ := by
  rw [precheck, bind_eq_ok] at success
  obtain ⟨⟨⟩, admissible, success⟩ := success
  have rest : (∀ bound, cert = some bound → checkCertificate c s bound = .ok ()) ∧
      existing c s origin argv id cert = .ok none := by
    cases cert with
    | none => exact ⟨fun _ absent => absurd absent (by simp), success⟩
    | some bound =>
      dsimp only at success
      rw [bind_eq_ok] at success
      obtain ⟨⟨⟩, checked, success⟩ := success
      exact ⟨fun _ same => Option.some.inj same ▸ checked, success⟩
  refine ⟨admissible, rest.1, fun status => ⟨rfl, fun old present => ?_⟩⟩
  rw [Store.row?_desk] at present
  obtain ⟨job, found, rfl⟩ := Option.map_eq_some_iff.mp present
  obtain ⟨queued, sender, body, args, -⟩ := existing_eq_none rest.2 job found
  refine ⟨queued, ?_, sender, args⟩
  exact congrArg BodyId.mk body

theorem bind?_frame (success : bind? c s cert = .ok t) :
    t = { s with
      history := t.history
      jobCertificates := t.jobCertificates
      legacyJobs := t.legacyJobs
      retryLinks := t.retryLinks } := by
  cases cert with
  | none =>
    cases success
    rfl
  | some bound => exact History.bindAdmission_frame success

theorem authorize_eq_ok {now : Clock} {g : Grant} (success : authorize s origin argv now = .ok g) :
    Grant.checkAt s (argv.headD "") origin now = .ok g ∧ Grant.checkArgs g argv = .ok () := by
  rw [authorize, bind_eq_ok] at success
  obtain ⟨grant, checked, success⟩ := success
  rw [bind_eq_ok] at success
  obtain ⟨⟨⟩, listed, success⟩ := success
  cases success
  exact ⟨checked, listed⟩

theorem authorize_congr {now : Clock} (same : t.desk = s.desk) :
    authorize t origin argv now = authorize s origin argv now := by
  have name : t.bodyName = s.bodyName := congrArg Desk.name same
  have grants : t.grants = s.grants := congrArg Desk.grants same
  simp only [authorize, Grant.checkAt, Store.grant?, name, grants]

/-- What an admission update records: a run under a checked grant, or a denial. -/
theorem admit_does {job : Job} {granted : Option Grant}
    (success : admitEdit c env origin argv id cert s = .ok (t, (job, granted)))
    (startable : ∀ status, s.desk.Startable ⟨id, ⟨s.bodyName⟩, origin, argv, status⟩) (nonempty : argv ≠ []) :
    (∃ deed, s.Does deed t ∧
      ((∃ g, granted = some g ∧ deed = .accept job.row g ∧ authorize s origin argv env.now = .ok g ∧
          job = ⟨id, ⟨s.bodyName⟩, argv, origin, .running, [], []⟩ ∧ env.busy = false) ∨
        (granted = none ∧ deed = .deny job.row))) ∧
      t.ownerSk = s.ownerSk ∧ t.writeError = s.writeError := by
  rw [admitEdit, bind_eq_ok] at success
  obtain ⟨u, bound, success⟩ := success
  have frame := bind?_frame bound
  have same : u.desk = s.desk := by rw [frame]; rfl
  have name : u.bodyName = s.bodyName := by rw [frame]
  dsimp only at success
  rw [name] at success
  split at success
  · next g checked =>
    rw [refuseIf_bind_eq_ok] at success
    obtain ⟨free, success⟩ := success
    cases success
    rw [authorize_congr same] at checked
    obtain ⟨granted, listed⟩ := authorize_eq_ok checked
    obtain ⟨first, unreserved, -⟩ := Grant.checkAt_eq_ok granted
    have tool : g.tool = argv.headD "" := Grant.checkAt_tool granted
    refine ⟨⟨.accept _ g, ⟨⟨startable _, rfl, ?_, ?_, unreserved⟩, ?_⟩, .inl ⟨g, rfl, rfl, checked, rfl,
      Bool.eq_false_iff.mpr free⟩⟩, ?_, ?_⟩
    · cases argv with
      | nil => exact absurd rfl nonempty
      | cons head rest => exact congrArg some tool.symm
    · rw [tool]
      exact first
    · rw [Store.desk_setJob]
      have grants : u.grants = s.grants := congrArg Desk.grants same
      change Desk.putRow { u.desk with
        grants := if g.once then reserveGrant u.grants g.tool id else u.grants } _ = _
      rw [same, grants]
      rfl
    · change u.ownerSk = _
      rw [frame]
    · change u.writeError = _
      rw [frame]
  · next e refused =>
    rw [bind_eq_ok] at success
    obtain ⟨v, asked, success⟩ := success
    cases success
    have kept : v.desk = u.desk ∧ v.ownerSk = u.ownerSk ∧ v.writeError = u.writeError := by
      rw [askOwner] at asked
      split_ifs at asked
      · rw [bind_eq_ok] at asked
        obtain ⟨⟨w, request⟩, made, asked⟩ := asked
        cases asked
        exact Request.upsert_desk made
      · cases asked
        exact ⟨rfl, rfl, rfl⟩
    refine ⟨⟨.deny _, ⟨⟨startable _, _, rfl⟩, ?_⟩, .inr ⟨rfl, rfl⟩⟩, ?_, ?_⟩
    · rw [Store.desk_setJob, kept.1, same]
      rfl
    · change v.ownerSk = _
      rw [kept.2.1, frame]
    · change v.writeError = _
      rw [kept.2.2, frame]

theorem isOutcome_finished (tool : String) (run : Job) (outcome : RunOutcome) :
    Desk.isOutcome outcome.success (finished tool run outcome).status = true := by
  cases outcome with
  | exited status stdout stderr captureError => cases captureError <;> rfl
  | notStarted e => rfl
  | uncertain e => rfl

theorem finished_row (tool : String) (run : Job) (outcome : RunOutcome) :
    (finished tool run outcome).row = { run.row with status := (finished tool run outcome).status } := by
  cases outcome with
  | exited status stdout stderr captureError => cases captureError <;> rfl
  | notStarted e => rfl
  | uncertain e => rfl

/-- Completing a run that is going on. -/
theorem finishEdit_does {grant : Grant} {run : Job} {outcome : RunOutcome} {u : Unit}
    (running : s.desk.Running run.row) (tool : run.argv.head? = some grant.tool)
    (success : finishEdit grant run outcome s = .ok (t, u)) :
    s.Does (.finish (finished grant.tool run outcome).row grant outcome.success) t ∧
      t.ownerSk = s.ownerSk ∧ t.writeError = s.writeError := by
  rw [finishEdit] at success
  split at success
  · cases success
  · cases success
    refine ⟨⟨⟨?_, ?_, isOutcome_finished _ _ _⟩, ?_⟩, rfl, rfl⟩
    · rw [finished_row]
      exact running
    · rw [finished_row]
      exact tool
    · rw [Store.desk_setJob]
      rw [finished_row]
      rfl

end Exec

namespace Dispatch

variable {s t : Store}

theorem appendEdit_does {job : Job} {retryOf : Option String} {u : Unit} (queued : job.status = .queued)
    (fresh : s.job? job.id = none) (success : appendEdit job retryOf s = .ok (t, u)) :
    s.Does (.enqueue job.row) t ∧ t.ownerSk = s.ownerSk ∧ t.writeError = s.writeError := by
  cases success
  rw [History.linkRetry_frame]
  have absent : s.desk.row? job.row.id = none := by
    rw [Store.row?_desk]
    exact congrArg (Option.map Job.row) fresh
  refine ⟨⟨⟨queued, absent⟩, ?_⟩, rfl, rfl⟩
  simp only [Store.desk, Desk.apply, List.map_append, List.map_cons, List.map_nil]

/-- Saving a row with another status notes it. -/
theorem putJobEdit_does {job old : Job} {u : Unit} (found : s.job? job.id = some old)
    (active : old.status.isTerminal = false) (other : old.body.name ≠ s.bodyName)
    (same : job.row = { old.row with status := job.status })
    (success : putJobEdit job s = .ok (t, u)) :
    s.Does (.note job.id job.status) t ∧ t.ownerSk = s.ownerSk ∧ t.writeError = s.writeError := by
  cases success
  have present : s.desk.row? job.row.id = some old.row := by
    rw [Store.row?_desk]
    exact congrArg (Option.map Job.row) found
  refine ⟨⟨⟨old.row, present, active, other⟩, ?_⟩, rfl, rfl⟩
  rw [Store.desk_setJob, Desk.putRow_eq_setStatus present same]
  rfl

theorem peerResult_eq_some {peer : BodyId} {incoming job : Job}
    (success : peerResult s peer incoming = .ok (some job)) :
    job = incoming ∧ Limits.result job = .ok () ∧ ∃ old, s.job? job.id = some old ∧ old.body = peer ∧
      old.status.isTerminal = false ∧ job.row = { old.row with status := job.status } := by
  rw [peerResult, bind_eq_ok] at success
  obtain ⟨⟨⟩, admissible, success⟩ := success
  split at success
  · cases success
  next old found =>
  split_ifs at success with unrelated unchanged
  · cases success
  · rw [refuseIf_bind_eq_ok] at success
    cases success.2
  rw [refuseIf_bind_eq_ok] at success
  obtain ⟨same, success⟩ := success
  cases success
  simp only [not_or, not_not] at unrelated same
  refine ⟨rfl, admissible, old, found, unrelated.1, Bool.eq_false_iff.mpr unrelated.2, ?_⟩
  have id : old.id = incoming.id := by simpa using List.find?_some found
  simp only [Job.row, id, same, unrelated.1]

theorem undelivered_eq_some {id : String} {e : ClixError} {job : Job}
    (success : undelivered s id e = some job) :
    ∃ old, s.job? job.id = some old ∧ job.id = id ∧ old.status.isTerminal = false ∧
      job = { old with status := failedDelivery old.status e } := by
  rw [undelivered] at success
  split at success
  · cases success
  next old found =>
  have same : old.id = id := by simpa using List.find?_some found
  split_ifs at success with terminal
  cases success
  exact ⟨old, same ▸ found, same, Bool.eq_false_iff.mpr terminal, rfl⟩

theorem localError_does {id : String} {e : ClixError} {u : Unit}
    (success : localError id e s = .ok (t, u)) :
    (∃ deed, s.Does deed t ∧ (deed = .quiet ∨ ∃ status, deed = .requeue id status)) ∧
      t.ownerSk = s.ownerSk ∧ t.writeError = s.writeError := by
  rw [localError] at success
  split at success
  · cases success
  next job found =>
  split_ifs at success with settled
  · cases success
    exact ⟨⟨.quiet, Store.does_quiet rfl, .inl rfl⟩, rfl, rfl⟩
  · cases success
    have queued : job.status.isLocalQueue = true := by simpa using settled
    refine ⟨⟨.requeue id (failedSubmission e), ⟨⟨job.row, ?_, queued, ?_⟩, Store.desk_setStatus s id _⟩,
      .inr ⟨_, rfl⟩⟩, rfl, rfl⟩
    · rw [Store.row?_desk, found]
      rfl
    · rw [failedSubmission]
      split_ifs
      · exact .inl rfl
      · exact .inr ⟨_, rfl⟩

end Dispatch

end Clix
