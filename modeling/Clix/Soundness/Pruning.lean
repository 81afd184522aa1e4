import Clix.Soundness.Growth
import Clix.Soundness.Projection
import Clix.Soundness.Startup

/-! # Pruned output stays gone

Once an invocation is pruned, no state of the machine holds a replica of its output or output in its finished row again,
and no page and no answer carries any, whatever runners answer and pages bring.
-/

namespace Clix

open Except DurableCell Storage

/-- The rows that this machine is running hold no output yet. -/
def Store.Quiet (s : Store) : Prop :=
  ∀ job ∈ s.jobs, job.status = .running → job.body.name = s.bodyName → jobBytes job = 0

/-- No replica is held under a pruned key. -/
def Store.Bare (s : Store) : Prop :=
  ∀ key e, s.historyPruned.contains key = true → s.history.entries.get? key = some e → e.output = none

namespace Store

variable {c : Crypto} {Allowed : Store → Event → Prop} {s t u next : Store}

namespace Quiet

/-- Every row is one from before, or is not both running here and holding output. -/
theorem rows (quiet : s.Quiet) (name : t.bodyName = s.bodyName) (rows : ∀ job ∈ t.jobs,
    job ∈ s.jobs ∨ (job.status = .running → job.body.name = s.bodyName → jobBytes job = 0)) : t.Quiet := by
  intro job member running here
  rw [name] at here
  rcases rows job member with old | new
  · exact quiet job old running here
  · exact new running here

theorem of_jobs (quiet : s.Quiet) (name : t.bodyName = s.bodyName) (jobs : t.jobs = s.jobs) : t.Quiet :=
  quiet.rows name (fun _ member => .inl (jobs ▸ member))

/-- A row is put in the place of one, or added. -/
theorem put (quiet : s.Quiet) {job : Job} (name : t.bodyName = s.bodyName)
    (jobs : t.jobs = s.jobs.put (fun j => j.id == job.id) job)
    (silent : job.status = .running → job.body.name = s.bodyName → jobBytes job = 0) : t.Quiet := by
  refine quiet.rows name (fun other member => ?_)
  rw [jobs, List.put] at member
  split_ifs at member
  · rcases List.mem_modifyFirst member with old | ⟨_, -, -, rfl⟩
    · exact .inl old
    · exact .inr silent
  · rcases List.mem_append.mp member with old | new
    · exact .inl old
    · exact .inr (List.mem_singleton.mp new ▸ silent)

/-- The first of some rows is given another status. -/
theorem modify (quiet : s.Quiet) {p : Job → Bool} {status : JobStatus} (ended : status ≠ .running)
    (name : t.bodyName = s.bodyName) (jobs : t.jobs = s.jobs.modifyFirst p (fun j => { j with status := status })) :
    t.Quiet := by
  refine quiet.rows name (fun job member => ?_)
  rw [jobs] at member
  rcases List.mem_modifyFirst member with old | ⟨old, -, -, rfl⟩
  · exact .inl old
  · exact .inr (fun running => absurd running ended)

theorem markInterrupted (quiet : s.Quiet) (reason : String) : (s.markInterrupted reason).Quiet := by
  refine quiet.rows rfl (fun job member => ?_)
  obtain ⟨old, there, rfl⟩ := List.mem_map.mp member
  split_ifs
  · exact .inr (fun running => by cases running)
  · exact .inl there

theorem normalizeOutput (quiet : s.Quiet) : (History.normalizeOutput s).Quiet := by
  refine quiet.rows (History.normalizeOutput_samePruned s).bodyName (fun job member => ?_)
  rw [History.normalizeOutput_jobs] at member
  obtain ⟨old, there, rfl⟩ := List.mem_map.mp member
  split_ifs
  · exact .inr (fun _ _ => rfl)
  · exact .inl there

theorem removedFrom (quiet : s.Quiet) (payload : Payload) (key : String) : (payload.removedFrom s key).Quiet := by
  refine quiet.rows rfl (fun job member => ?_)
  change job ∈ payload.rows s.jobs at member
  cases payload with
  | replica key => exact .inl member
  | «local» id =>
    rcases List.mem_modifyFirst member with old | ⟨old, -, -, rfl⟩
    · exact .inl old
    · exact .inr (fun _ _ => rfl)

theorem removeAll (quiet : s.Quiet) {gone : List Candidate} (success : removeAll s gone = .ok t) : t.Quiet := by
  induction gone generalizing s with
  | nil =>
    cases success
    exact quiet
  | cons candidate rest ih =>
    rw [removeAll_cons, bind_eq_ok] at success
    obtain ⟨u, removed, success⟩ := success
    obtain ⟨key, -, -, -, rfl⟩ := removePayload_eq_ok_iff.mp removed
    exact ih (quiet.removedFrom candidate.payload key) success

/-- An answer of another machine is about a row of that machine. -/
theorem acceptRunnerReply (quiet : s.Quiet) {peer : BodyId} {published : Published} {v : Option Job}
    (success : History.acceptRunnerReply c s peer published = .ok (t, v)) (other : peer.name ≠ s.bodyName) :
    t.Quiet := by
  unfold History.acceptRunnerReply at success
  rw [bind_eq_ok] at success
  obtain ⟨⟨⟩, -, success⟩ := success
  dsimp only at success
  rw [refuseIf_bind_eq_ok] at success
  obtain ⟨addressed, success⟩ := success
  rw [not_or, not_not] at addressed
  split at success
  · cases success
  split at success
  · cases success
    exact quiet
  rw [refuseIf_bind_eq_ok] at success
  obtain ⟨-, success⟩ := success
  rw [bind_eq_ok] at success
  obtain ⟨⟨u, changed⟩, ingested, success⟩ := success
  have frame := History.ingest_samePublished ingested
  have first : u.Quiet := quiet.of_jobs frame.bodyName frame.jobs
  have elsewhere {P : Prop} (here : published.record.certificate.invocation.body.name = u.bodyName) : P :=
    absurd (addressed.2 ▸ here.trans frame.bodyName) other
  dsimp only at success
  split_ifs at success
  · cases success
    exact first
  · cases success
    exact first.put rfl rfl (fun _ here => elsewhere here)
  · cases success
    exact first.put rfl rfl (fun _ here => elsewhere here)

end Quiet

/-- An edit starts no row with output. -/
theorem Edits.quiet (edits : s.Edits c Allowed t) (named : Pair.isName s.bodyName = true) (quiet : s.Quiet) :
    t.Quiet := by
  cases edits with
  | settings work trust => exact quiet.of_jobs trust.bodyName work.jobs
  | renamed work key alone left named' idle =>
    have none : s.jobs = [] := by
      rcases idle with unnamed | none
      · exact absurd (named.symm.trans unnamed) (by decide)
      · exact none
    intro job member
    rw [work.jobs, none] at member
    cases member
  | paired peer ran =>
    have frame := (Pair.updatePeer_eq_ok ran).2.1
    exact quiet.of_jobs (by rw [frame]) (by rw [frame])
  | admitted env origin argv id cert v begun named' permitted checked ran =>
    rw [Exec.admitEdit, bind_eq_ok] at ran
    obtain ⟨u, bound, ran⟩ := ran
    have frame := Exec.bind?_frame bound
    have first : u.Quiet := quiet.of_jobs (by rw [frame]) (by rw [frame])
    dsimp only at ran
    split at ran
    · rw [refuseIf_bind_eq_ok] at ran
      obtain ⟨-, ran⟩ := ran
      cases ran
      exact first.put rfl rfl (fun _ _ => rfl)
    · rw [bind_eq_ok] at ran
      obtain ⟨w, asked, ran⟩ := ran
      cases ran
      obtain ⟨work, trust⟩ := Exec.askOwner_settings asked
      exact (first.of_jobs trust.bodyName work.jobs).put rfl rfl (fun _ _ => rfl)
  | enqueued job retryOf queued silent fresh ran =>
    cases ran
    rw [History.linkRetry_frame]
    refine quiet.rows rfl (fun other member => ?_)
    rcases List.mem_append.mp member with old | new
    · exact .inl old
    · refine .inr (fun running => ?_)
      rw [List.mem_singleton.mp new, queued] at running
      cases running
  | answered peer incoming job dispatch permitted ran other =>
    obtain ⟨rfl, -, old, -, addressed, -, same⟩ := Dispatch.peerResult_eq_some ran
    have body : job.body = peer := (congrArg Row.body same).trans addressed
    exact quiet.put rfl rfl (fun _ here => absurd (body ▸ here) other)
  | undelivered id e job ran foreign =>
    obtain ⟨old, found, rfl, -, same⟩ := Dispatch.undelivered_eq_some ran
    obtain ⟨row, present, elsewhere⟩ := foreign
    rw [row?_desk, found] at present
    cases present
    have body : old.body = job.body := by rw [same]
    exact quiet.put rfl rfl (fun _ here => absurd ((congrArg BodyId.name body).trans here) elsewhere)
  | replied peer published v ran other => exact quiet.acceptRunnerReply ran other
  | merged peer progress page known ran =>
    have frame := History.mergePage_samePublished ran
    exact quiet.of_jobs frame.bodyName frame.jobs
  | pruned keep removed ran => exact quiet.removeAll (prune_eq_ok_iff.mp ran).1
  | refusedLocally id e ran =>
    rw [Dispatch.localError] at ran
    split at ran
    · cases ran
    · split_ifs at ran
      · cases ran
        exact quiet
      · cases ran
        have ended : Dispatch.failedSubmission e ≠ .running := by
          rw [Dispatch.failedSubmission]
          split_ifs <;> exact fun same => by cases same
        exact quiet.modify ended rfl rfl
  | finished grant run outcome going tool ran =>
    have ended : (Exec.finished grant.tool run outcome).status ≠ .running := fun running => by
      have terminal := Desk.isTerminal_of_isOutcome (Exec.isOutcome_finished grant.tool run outcome)
      rw [running] at terminal
      cases terminal
    rw [Exec.finishEdit] at ran
    split at ran
    · cases ran
    · cases ran
      exact quiet.put rfl rfl (fun running => absurd running ended)
  | recovered => exact quiet.markInterrupted recoveryReason

theorem Writes.quiet (writes : s.Writes c Allowed next) (named : Pair.isName s.bodyName = true) (quiet : s.Quiet) :
    next.Quiet := by
  obtain ⟨-, edited, refreshed, epochId, edits, published, fits⟩ := writes
  have frame := History.refreshOwned_samePublished published
  obtain ⟨gone, rest, -, removed⟩ := evict_eq_ok (prepare_eq_ok fits).2.1
  have versioned : { refreshed with formatVersion := formatVersionNow }.Quiet :=
    (edits.quiet named quiet).of_jobs frame.bodyName frame.jobs
  exact versioned.normalizeOutput.removeAll removed

theorem Notes.quiet (notes : s.Notes t) (quiet : s.Quiet) : t.Quiet := by
  cases notes with
  | contact peer p same => exact quiet
  | gaveUp id e allowed => exact quiet.modify (by rw [Exec.unsavedStatus]; exact fun same => by cases same) rfl rfl
  | recoveryFailed e =>
    have stopped : { s with writeError := some (s.writeError.getD e.text) }.Quiet := quiet
    exact stopped.markInterrupted unsavedRecoveryReason

/-! ### Replicas -/

namespace Bare

theorem congr (bare : s.Bare) (receipts : t.historyPruned = s.historyPruned)
    (entries : t.history.entries = s.history.entries) : t.Bare := by
  intro key e pruned found
  rw [receipts] at pruned
  rw [entries] at found
  exact bare key e pruned found

theorem normalizeJob (bare : s.Bare) (job : Job) : (History.normalizeJob s job).1.Bare := by
  unfold History.normalizeJob
  split
  · exact bare
  next key bound =>
  split
  · exact bare
  next entry held =>
  split_ifs with differs pruned kept
  · exact bare
  · dsimp only
    split_ifs <;> exact bare
  · intro other e receipt found
    change (s.history.entries.insert key { entry with output := none }).get? other = some e at found
    rw [OrdMap.get?_insert] at found
    split_ifs at found
    · cases found
      rfl
    · exact bare other e receipt found
  · exact bare

theorem normalizeJobs (bare : s.Bare) (jobs : List Job) : (History.normalizeJobs s jobs).1.Bare := by
  induction jobs generalizing s with
  | nil => exact bare
  | cons job rest ih => exact ih (bare.normalizeJob job)

theorem removedFrom (bare : s.Bare) (payload : Payload) (key : String) : (payload.removedFrom s key).Bare := by
  intro other e pruned found
  change (s.history.entries.adjust key (restamped (s.history.clock + 1))).get? other = some e at found
  change (s.historyPruned.insert key ()).contains other = true at pruned
  by_cases same : other = key
  · rw [same, OrdMap.get?_adjust_self, Option.map_eq_some_iff] at found
    obtain ⟨old, -, rfl⟩ := found
    rfl
  · rw [OrdMap.get?_adjust_of_ne _ _ same] at found
    rw [OrdMap.contains_insert, decide_eq_false same, Bool.false_or] at pruned
    exact bare other e pruned found

theorem removeAll (bare : s.Bare) {gone : List Candidate} (success : Storage.removeAll s gone = .ok t) : t.Bare := by
  induction gone generalizing s with
  | nil =>
    cases success
    exact bare
  | cons candidate rest ih =>
    rw [removeAll_cons, bind_eq_ok] at success
    obtain ⟨u, removed, success⟩ := success
    obtain ⟨key, -, -, -, rfl⟩ := removePayload_eq_ok_iff.mp removed
    exact ih (bare.removedFrom candidate.payload key) success

end Bare

theorem bare_normalizeOutput (s : Store) : (History.normalizeOutput s).Bare := by
  have mapped : Bare { s with history := { s.history with entries := s.history.entries.mapValues (fun key entry =>
      if s.historyPruned.contains key then { entry with output := none } else entry) } } := by
    intro key e pruned found
    change OrdMap.get? (s.history.entries.mapValues _) key = some e at found
    rw [OrdMap.get?_mapValues, Option.map_eq_some_iff] at found
    obtain ⟨old, -, rfl⟩ := found
    rw [if_pos pruned]
  exact (mapped.normalizeJobs s.jobs).congr rfl rfl

theorem Writes.bare (writes : s.Writes c Allowed next) : next.Bare := by
  obtain ⟨-, edited, refreshed, epochId, edits, published, fits⟩ := writes
  obtain ⟨gone, rest, -, removed⟩ := evict_eq_ok (prepare_eq_ok fits).2.1
  exact (bare_normalizeOutput _).removeAll removed

/-! ### Finished rows -/

/-- What an update saves, when no two rows have one ID and no two IDs are bound to one record. -/
theorem Writes.cleared (writes : s.Writes c Allowed next) (apart : next.Apart) : next.Cleared := by
  obtain ⟨-, edited, refreshed, epochId, edits, published, fits⟩ := writes
  have cleared := cleared_normalizeOutput { refreshed with formatVersion := formatVersionNow }
  have evicted := (prepare_eq_ok fits).2.1
  generalize History.normalizeOutput { refreshed with formatVersion := formatVersionNow } = w at evicted cleared
  have kept := evict_samePruned evicted
  have before : w.Apart := by
    refine ⟨(unique_iff w).mp ?_, fun id id' key bound also => apart.bindings id id' key ?_ ?_⟩
    · rw [Desk.Unique, ← kept.desk]
      exact (unique_iff next).mpr apart.ids
    · rw [kept.jobCertificates, bound]
    · rw [kept.jobCertificates, also]
  obtain ⟨keys, nodup, retained, listed⟩ := exists_keys w
  rw [listed] at evicted
  obtain ⟨gone, rfl⟩ := evict_drops before nodup
    (fun key member => candidate?_isSome_iff.mpr ((retained key).mp member)) evicted
  exact cleared.dropAll gone

/-- A row is given up, which held no output yet. -/
theorem Cleared.restatus (cleared : s.Cleared) (bindings : t.jobCertificates = s.jobCertificates)
    (receipts : t.historyPruned = s.historyPruned) (entries : t.history.entries = s.history.entries)
    (rows : ∀ job ∈ t.jobs, job ∈ s.jobs ∨ jobBytes job = 0) : t.Cleared := by
  intro job member finished pruned
  rcases rows job member with old | empty
  · refine cleared job old finished ?_
    rw [← prunedRow_congr bindings receipts (fun key => by rw [entries])]
    exact pruned
  · exact empty

theorem Notes.cleared (notes : s.Notes t) (quiet : s.Quiet) (unique : s.desk.Unique) (cleared : s.Cleared) : t.Cleared := by
  cases notes with
  | contact peer p same => exact cleared.restatus rfl rfl rfl (fun _ member => .inl member)
  | gaveUp id e allowed =>
    refine cleared.restatus rfl rfl rfl (fun job member => ?_)
    rcases List.mem_modifyFirst member with old | ⟨old, there, named, rfl⟩
    · exact .inl old
    · obtain ⟨row, found, running, here⟩ := allowed
      rw [row?_desk, Option.map_eq_some_iff] at found
      obtain ⟨job, found, rfl⟩ := found
      have same : job.id = id := by simpa using List.find?_some found
      have only : old = job := List.inj_on_of_nodup_map ((unique_iff s).mp unique) there (List.mem_of_find?_eq_some found)
        ((beq_iff_eq.mp named).trans same.symm)
      rw [only] at there
      exact .inr (only ▸ quiet job there running here)
  | recoveryFailed e =>
    refine cleared.restatus rfl rfl rfl (fun job member => ?_)
    obtain ⟨old, there, rfl⟩ := List.mem_map.mp member
    split_ifs with going
    · exact .inr (quiet old there going.2 going.1)
    · exact .inl there

/-! ### Runs -/

/-- A state that keeps no output of what was pruned. -/
structure Pruned (c : Crypto) (s : Store) : Prop where
  base : s.Begun ∧ s.Filed c ∧ s.Digested c
  quiet : s.Quiet
  bare : s.Bare
  cleared : s.desk.Unique → s.DigestsApart c → s.Cleared

theorem sustained_base (c : Crypto) (Allowed : Store → Event → Prop) :
    Sustained c Allowed (fun s => s.Begun ∧ s.Filed c ∧ s.Digested c) :=
  Sustained.of_touch (fun _ _ touch held => ⟨held.1.touch touch, held.2.touch touch⟩)
    (fun _ _ completes held => ⟨held.1.complete completes, held.2.complete completes⟩)

theorem sustained_pruned (c : Crypto) (Allowed : Store → Event → Prop) : Sustained c Allowed (Pruned c) where
  write s next writes held := by
    have base := (sustained_base c Allowed).write s next writes held.base
    refine ⟨base, writes.quiet held.base.2.1.named held.quiet, writes.bare, fun unique apart => writes.cleared ?_⟩
    exact ⟨(unique_iff next).mp unique, fun id id' key bound also => base.2.2.bindings apart bound also⟩
  note s t notes held := by
    have base := (sustained_base c Allowed).note s t notes held.base
    have kept : t.jobCertificates = s.jobCertificates ∧ t.historyPruned = s.historyPruned ∧
        t.history.entries = s.history.entries ∧ t.jobs.map (·.id) = s.jobs.map (·.id) := by
      cases notes with
      | contact peer p same => exact ⟨rfl, rfl, rfl, rfl⟩
      | gaveUp id e allowed => exact ⟨rfl, rfl, rfl, List.map_modifyFirst_of_eq _ _ _ _ (fun _ _ _ => rfl)⟩
      | recoveryFailed e =>
        refine ⟨rfl, rfl, rfl, ?_⟩
        change (s.jobs.map _).map _ = _
        rw [List.map_map]
        refine List.map_congr_left (fun job _ => ?_)
        dsimp only [Function.comp]
        split_ifs <;> rfl
    obtain ⟨bindings, receipts, entries, ids⟩ := kept
    refine ⟨base, notes.quiet held.quiet, held.bare.congr receipts entries, fun unique apart => ?_⟩
    have before : s.desk.Unique := (unique_iff s).mpr (ids ▸ (unique_iff t).mp unique)
    exact notes.cleared held.quiet before (held.cleared before (fun i j first second =>
      apart i j (bindings ▸ first) (bindings ▸ second)))
  complete s t completes held := by
    have base := (sustained_base c Allowed).complete s t completes held.base
    cases completes with
    | name hostname unnamed =>
      have empty := held.base.2.1.named
      simp only [Daemon.isUnnamed, Bool.and_eq_true, beq_iff_eq] at unnamed
      rw [unnamed.1.1.1] at empty
      exact absurd empty (by decide)
    | key seed keyless => exact ⟨base, held.quiet, held.bare, held.cleared⟩
  reload s held := ⟨(sustained_base c Allowed).reload s held.base, held.quiet, held.bare, held.cleared⟩
  stop s e held := ⟨(sustained_base c Allowed).stop s e held.base, held.quiet, held.bare, held.cleared⟩

/-- What a machine does not hold or give away of an invocation. -/
structure Withholds (c : Crypto) (s : Store) (key : String) : Prop where
  receipt : s.historyPruned.contains key = true
  replica : ∀ e, s.history.entries.get? key = some e → e.output = none
  row : s.DigestsApart c → ∀ job ∈ s.jobs, job.status.isTerminal = true →
    s.jobCertificates.get? job.id = some key → s.prunedRow job = true → job.stdout = [] ∧ job.stderr = []
  page : ∀ epoch after high p, History.page c s epoch after high = .ok p →
    ∀ row ∈ p.entries, History.invocationHash c row.record.certificate = key → row.output = none
  reply : ∀ cert job published, History.executionReply c s cert = .ok (some (job, published)) →
    History.invocationHash c cert = key → published.output = none

theorem selectedOutput_of_pruned {e : Entry} {job : Option Job}
    (pruned : s.historyPruned.contains (History.invocationHash c e.record.certificate) = true) :
    History.selectedOutput c s e job = none := by
  rw [History.selectedOutput]
  split
  · rfl
  · dsimp only
    rw [if_pos pruned]

theorem Pruned.withholds (held : s.Pruned c) (unique : s.desk.Unique) {key : String}
    (pruned : s.historyPruned.contains key = true) : s.Withholds c key where
  receipt := pruned
  replica e found := held.bare key e pruned found
  row apart job member finished _ gone := by
    have empty := held.cleared unique apart job member finished gone
    rw [jobBytes, Nat.add_eq_zero_iff, List.length_eq_zero_iff, List.length_eq_zero_iff] at empty
    exact empty
  page epoch after high p served row member named := by
    obtain ⟨_, e, -, rfl⟩ := (History.page_eq_ok served).mem member
    refine selectedOutput_of_pruned ?_
    change History.invocationHash c e.record.certificate = key at named
    rw [named, pruned]
  reply cert job published answered named := by
    rw [History.executionReply] at answered
    split at answered
    · cases answered
    next row there =>
    rw [refuseIf_bind_eq_ok] at answered
    obtain ⟨bound, answered⟩ := answered
    rw [not_or, not_not] at bound
    split at answered
    · cases answered
    next e found =>
    cases answered
    have keyed := (held.base.2.1.entries _ e found).keyed
    exact selectedOutput_of_pruned (by rw [keyed, named, pruned])

end Store

namespace Daemon

/-- From any point of a run on, whatever was pruned at that point stays pruned: no content of the machine holds a replica
of its output, or output in its finished row as long as no two bound invocations have one digest, and no page or answer
of the machine carries any. -/
theorem pruned_withheld (c : Crypto) (file : Store) (initial : file.Initial) (quiet : file.Quiet)
    (before after : List (Env × Event)) (key : String)
    (pruned : ((installed file).run c before).store.historyPruned.contains key = true) :
    Everywhere (fun image => image.store.Withholds c key) ((installed file).run c (before ++ after)).cell := by
  have start : file.Pruned c := by
    refine ⟨⟨initial.begun, ⟨initial.named, fun other e found => ?_⟩, fun id other bound => ?_⟩, quiet,
      fun other e _ found => ?_, fun _ _ job _ _ gone => ?_⟩
    · rw [initial.unrecorded] at found
      cases found
    · rw [initial.unbound] at bound
      cases bound
    · rw [initial.unrecorded] at found
      cases found
    · obtain ⟨other, e, bound, -⟩ := Store.prunedRow_eq_true.mp gone
      rw [initial.unbound] at bound
      cases bound
  have held := everywhere_run (Store.sustained_pruned c (fun _ _ => True)) initial.inv (ready_installed file)
    (before ++ after) (permitsAll_true _ _) (everywhere_installed start)
  have rows := everywhere_filed c file initial (before ++ after)
  obtain ⟨there, -⟩ := held_run (c := c) initial before
  obtain ⟨-, since⟩ := (forward_onward c (fun _ _ => True)).run there (permitsAll_true _ after)
  rw [run_append] at held rows ⊢
  refine ((held.and rows).and since).mono (fun image holds => ?_)
  obtain ⟨⟨pruned', ids, -⟩, onward⟩ := holds
  exact pruned'.withholds ((Store.unique_iff image.store).mpr ids) (onward.histories key pruned)

end Daemon

namespace ReplyExample

set_option maxRecDepth 40000

/-- The run ends with some output, and the owner prunes everything. -/
def pruning : List (Env × Event) := started ++ [
  (env, .collect "job" (.ok ([111], [])) none),
  (env, .finish "job"),
  (env, .prune 0)]

theorem bob_pruned : ((Daemon.installed file).run crypto pruning).store.historyPruned.contains key = true := by
  decide

theorem file_quiet : file.Quiet := by
  intro job member
  cases member

/-- The output that was pruned is not told after a restart. -/
theorem bob_withholds : Everywhere (fun image => image.store.Withholds crypto key)
    ((Daemon.installed file).run crypto (pruning ++ restarted)).cell :=
  Daemon.pruned_withheld crypto file file_initial file_quiet pruning restarted key bob_pruned

end ReplyExample

end Clix
