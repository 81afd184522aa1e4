import Clix.Soundness.Projection

/-! # When a retry agrees with what is shown

A retry looks at the local row, and an inspection at what is recorded of the job. They agree as long as no other
invocation is recorded under the ID, and what leads to its row is over.
-/

namespace Clix

open Except DurableCell

namespace History

variable {c : Crypto} {s : Store} {id : String} {v : View} {j : Job}

/-! ## The one view of a job -/

theorem views_nodup (c : Crypto) (s : Store) : (views c s).Nodup := (groups_nodup c s).of_map

theorem inspected_eq_ok : inspected c s id = .ok v ↔ viewsForJob c s id = [v] := by
  rw [inspected]
  split
  · next none => simp [none]
  · next view only => simp [only]
  · next many other => simp_all

/-- Everything that is recorded under the ID of a row is about its invocation. -/
def Alone (s : Store) (j : Job) : Prop :=
  ∀ key e, s.history.entries.get? key = some e → e.record.selected ≠ none →
    e.record.certificate.invocation.id = j.id → invocationAbout e.record.certificate.invocation = jobAbout s j

/-- A job is inspected when it has no rival, and then through the row of its invocation. -/
theorem inspected_of_job (ids : (s.jobs.map (·.id)).Nodup) (listed : j ∈ s.jobs) :
    inspected c s j.id = .ok v ↔ Alone s j ∧ v ∈ views c s ∧ v.about = jobAbout s j := by
  have shownOf {a : About} (there : (∃ j ∈ s.jobs, jobAbout s j = a) ∨ ∃ key e, s.history.entries.get? key = some e ∧
      e.record.selected ≠ none ∧ invocationAbout e.record.certificate.invocation = a) :
      ∃ v ∈ views c s, v.about = a := by
    obtain ⟨v, shown, group⟩ := (exists_view ids (c := c) (g := groupOf a)).mpr (there.imp jobOf_ne_none.mpr
      (fun ⟨key, e, found, told, about⟩ => groupRows_ne_nil.mpr ⟨key, e, found, told, by rw [invocationGroup_eq, about]⟩))
    exact ⟨v, shown, groupOf_injective ((group_eq v).symm.trans group)⟩
  have mem {v : View} : v ∈ viewsForJob c s j.id ↔ v ∈ views c s ∧ v.job.id = j.id := by
    rw [viewsForJob_eq, List.mem_filter, decide_eq_true_iff]
  rw [inspected_eq_ok]
  constructor
  · intro only
    have one {a : About} (there : (∃ j ∈ s.jobs, jobAbout s j = a) ∨ ∃ key e, s.history.entries.get? key = some e ∧
        e.record.selected ≠ none ∧ invocationAbout e.record.certificate.invocation = a) (named : a.1 = j.id) :
        v.about = a := by
      obtain ⟨v', shown, about⟩ := shownOf there
      have inside : v' ∈ viewsForJob c s j.id := mem.mpr ⟨shown, (congrArg Prod.fst about).trans named⟩
      rw [only, List.mem_singleton] at inside
      exact inside ▸ about
    have own := one (.inl ⟨j, listed, rfl⟩) rfl
    refine ⟨fun key e found told named => ?_, (mem.mp (only ▸ List.mem_singleton_self v)).1, own⟩
    exact (one (.inr ⟨key, e, found, told, rfl⟩) named).symm.trans own
  · rintro ⟨alone, shown, about⟩
    have all : ∀ v' ∈ viewsForJob c s j.id, v' = v := by
      intro v' inside
      obtain ⟨shown', named⟩ := mem.mp inside
      have about' : v'.about = jobAbout s j := by
        rcases (exists_view ids).mp ⟨v', shown', group_eq v'⟩ with row | told
        · obtain ⟨j', listed', same⟩ := jobOf_ne_none.mp row
          have equal : j' = j := List.inj_on_of_nodup_map ids listed' listed ((congrArg Prod.fst same).trans named)
          rw [← same, equal]
        · obtain ⟨key, e, found, told, group⟩ := groupRows_ne_nil.mp told
          rw [invocationGroup_eq] at group
          have same := groupOf_injective group
          rw [← same]
          exact alone key e found told ((congrArg Prod.fst same).trans named)
      refine List.inj_on_of_nodup_map (groups_nodup c s) shown' shown ?_
      rw [group_eq, group_eq, about', about]
    have nodup : (viewsForJob c s j.id).Nodup := by
      rw [viewsForJob_eq]
      exact (views_nodup c s).filter _
    have there : v ∈ viewsForJob c s j.id := mem.mpr ⟨shown, congrArg Prod.fst about⟩
    refine List.perm_singleton.mp ((List.perm_ext_iff_of_nodup nodup (List.nodup_singleton v)).mpr (fun v' => ?_))
    rw [List.mem_singleton]
    exact ⟨all v', fun same => same ▸ there⟩

/-! ## The status that is shown -/

/-- Whether a row tells of an outcome that this machine lost. -/
def HasLost (s : Store) (j : Job) : Prop := j.body.name = s.bodyName ∧ isUncertain j.status = true

/-- The row of a job shows it as saved when nothing is recorded, and what leads to it otherwise. -/
theorem view_of_job (ids : (s.jobs.map (·.id)).Nodup) (listed : j ∈ s.jobs) (shown : v ∈ views c s)
    (about : v.about = jobAbout s j) :
    (groupRows c s (jobGroup s j) = [] ∧ v = localView c s j) ∨
    ∃ key e fact observations, Leads s (jobGroup s j) key e ∧ e.record.selected = some fact ∧
      v = warned s { entryView c s (some j) e fact with observations := observations } := by
  have group : v.group = jobGroup s j := by rw [group_eq, about, jobGroup_eq]
  have row : jobOf s (jobGroup s j) = some j := by
    rw [← Option.mem_toList, ← filter_jobGroup ids, List.mem_filter]
    exact ⟨listed, decide_eq_true rfl⟩
  rcases view_cases ids shown with ⟨j', found, silent, same⟩ | ⟨key, e, fact, observations, leads, selected, -, same⟩
  · rw [group] at found silent
    rw [row] at found
    cases found
    exact .inl ⟨silent, same⟩
  · rw [group] at leads
    have named : e.record.certificate.invocation.id = j.id := by
      have same := leads.group
      rw [invocationGroup_eq, jobGroup_eq] at same
      exact congrArg Prod.fst (groupOf_injective same)
    have held : s.job? e.record.certificate.invocation.id = some j := by
      rw [named]
      exact List.find?_key_of_mem (fun j : Job => j.id) ids listed
    rw [held] at same
    exact .inr ⟨key, e, fact, observations, leads, selected, same⟩

/-- A row shows the status that a machine lost the outcome with, and what is recorded otherwise. -/
theorem status_warned (ids : (s.jobs.map (·.id)).Nodup) (listed : j ∈ s.jobs) (about : v.about = jobAbout s j) :
    (HasLost s j ∧ (warned s v).job.status = j.status) ∨ (¬HasLost s j ∧ (warned s v).job.status = v.job.status) := by
  by_cases lost : HasLost s j
  · refine .inl ⟨lost, ?_⟩
    rcases warned_cases ids v with ⟨j', loss, same⟩ | ⟨quiet, same⟩
    · have equal : j' = j := by
        have ids' := congrArg Prod.fst (loss.about.trans about)
        exact List.inj_on_of_nodup_map ids loss.listed listed ids'
      rw [same, equal]
    · rw [same]
      by_contra other
      exact quiet j ⟨listed, about.symm, lost.1, lost.2, other⟩
  · refine .inr ⟨lost, ?_⟩
    rcases warned_cases ids v with ⟨j', loss, -⟩ | ⟨-, same⟩
    · have equal : j' = j := by
        have ids' := congrArg Prod.fst (loss.about.trans about)
        exact List.inj_on_of_nodup_map ids loss.listed listed ids'
      exact absurd ⟨equal ▸ loss.own, equal ▸ loss.uncertain⟩ lost
    · rw [same]

/-! ## Retrying -/

/-- A retry that is not refused is of a job that is shown as over, and that no runner is recorded to be running. -/
def RetriesFinished (c : Crypto) (s : Store) (id : String) : Prop :=
  ∀ old, s.ensureWritable = .ok () → Dispatch.retryable s id = .ok old →
    (∃ text v, jobInspect c s id = .ok (text, v) ∧ v.job.status.isTerminal = true) ∧
    ∀ key e signed, s.history.entries.get? key = some e → e.record.certificate.invocation.id = id →
      e.record.runner = some signed → signed.fact.status ≠ .running

/-- The own row of an ID, if it is over, has no rival, and what leads to it is over or not a runner that still runs it
while the machine lost its outcome. -/
def LeadsFinished (s : Store) (id : String) : Prop :=
  ∀ old ∈ s.jobs, old.id = id → old.origin.name = s.bodyName → old.status.isTerminal = true →
    Alone s old ∧ ∀ key e fact, Leads s (jobGroup s old) key e → e.record.selected = some fact →
      fact.fact.status.isTerminal = true ∨ (HasLost s old ∧ (e.record.runner ≠ none → fact.fact.status ≠ .running))

theorem retryable_iff (ids : (s.jobs.map (·.id)).Nodup) : Dispatch.retryable s id = .ok j ↔
    Limits.identifier id = .ok () ∧ j ∈ s.jobs ∧ j.id = id ∧ j.origin.name = s.bodyName ∧ j.status.isTerminal = true := by
  have found : s.jobs.find? (fun j => j.id == id && j.origin.name == s.bodyName) = some j ↔
      j ∈ s.jobs ∧ j.id = id ∧ j.origin.name = s.bodyName := by
    have same : ∀ a ∈ s.jobs, a.id = id ∧ a.origin.name = s.bodyName → ∀ b ∈ s.jobs, b.id = id → b = a :=
      fun a listed own b listed' named => List.inj_on_of_nodup_map ids listed' listed (named.trans own.1.symm)
    constructor
    · intro found
      have holds := List.find?_some found
      rw [Bool.and_eq_true, beq_iff_eq, beq_iff_eq] at holds
      exact ⟨List.mem_of_find?_eq_some found, holds⟩
    · rintro ⟨listed, named, own⟩
      cases taken : s.jobs.find? (fun j => j.id == id && j.origin.name == s.bodyName) with
      | none =>
        have never := List.find?_eq_none.mp taken j listed
        rw [Bool.and_eq_true, beq_iff_eq, beq_iff_eq] at never
        exact absurd ⟨named, own⟩ never
      | some other =>
        have holds := List.find?_some taken
        rw [Bool.and_eq_true, beq_iff_eq, beq_iff_eq] at holds
        rw [same j listed ⟨named, own⟩ other (List.mem_of_find?_eq_some taken) holds.1]
  rw [Dispatch.retryable, bind_eq_ok]
  constructor
  · rintro ⟨_, valid, ran⟩
    split at ran
    · cases ran
    · next old taken =>
      obtain ⟨over', same⟩ := refuseIf_bind_eq_ok.mp ran
      cases same
      obtain ⟨listed, named, own⟩ := found.mp taken
      exact ⟨valid, listed, named, own, by simpa using over'⟩
  · rintro ⟨valid, listed, named, own, terminal⟩
    refine ⟨(), valid, ?_⟩
    rw [found.mpr ⟨listed, named, own⟩]
    exact refuseIf_bind_eq_ok.mpr ⟨by simp [terminal], rfl⟩

theorem jobInspect_eq_ok {text : String} : jobInspect c s id = .ok (text, v) ↔
    Limits.identifier id = .ok () ∧ inspected c s id = .ok v ∧ text = jobExplanation v.job.status := by
  rw [jobInspect, bind_eq_ok]
  constructor
  · rintro ⟨_, valid, ran⟩
    obtain ⟨v', shown, same⟩ := bind_eq_ok.mp ran
    cases same
    exact ⟨valid, shown, rfl⟩
  · rintro ⟨valid, shown, rfl⟩
    exact ⟨(), valid, bind_eq_ok.mpr ⟨v, shown, rfl⟩⟩

/-- The row of a finished job shows an end, if the machine lost its outcome or what leads to it is over. -/
theorem isTerminal_of_job (ids : (s.jobs.map (·.id)).Nodup) (listed : j ∈ s.jobs) (ended : j.status.isTerminal = true)
    (shown : v ∈ views c s) (about : v.about = jobAbout s j) : v.job.status.isTerminal = true ↔
      ∀ key e fact, Leads s (jobGroup s j) key e → e.record.selected = some fact →
        fact.fact.status.isTerminal = true ∨ HasLost s j := by
  rcases view_of_job ids listed shown about with ⟨silent, rfl⟩ | ⟨key, e, fact, observations, leads, selected, same⟩
  · refine iff_of_true ended (fun key e fact leads selected => ?_)
    exact absurd silent (groupRows_ne_nil.mpr ⟨key, e, leads.found, leads.told, leads.group⟩)
  · have shows : View.about { entryView c s (some j) e fact with observations := observations } = jobAbout s j := by
      rw [same, about_warned ids] at about
      exact about
    rcases status_warned ids listed shows with ⟨lost, status⟩ | ⟨kept, status⟩ <;> rw [← same] at status <;> rw [status]
    · exact iff_of_true ended (fun _ _ _ _ _ => .inr lost)
    · constructor
      · intro finished key' e' fact' leads' selected'
        obtain ⟨rfl, rfl⟩ := leads.unique leads'
        rw [selected] at selected'
        cases selected'
        exact .inl finished
      · intro finished
        exact (finished key e fact leads selected).resolve_right kept

/-- A job that has no rival is shown. -/
theorem exists_view_of_job (c : Crypto) (ids : (s.jobs.map (·.id)).Nodup) (listed : j ∈ s.jobs) :
    ∃ v ∈ views c s, v.about = jobAbout s j := by
  obtain ⟨v, shown, group⟩ := (exists_view ids (c := c) (g := groupOf (jobAbout s j))).mpr
    (.inl (jobOf_ne_none.mpr ⟨j, listed, rfl⟩))
  exact ⟨v, shown, groupOf_injective ((group_eq v).symm.trans group)⟩

/-- An entry with a runner fact about an ID that has no rival leads to its row. -/
theorem leads_of_runner (filed : s.Filed c) (alone : Alone s j) {key : String} {e : Entry}
    (found : s.history.entries.get? key = some e) (named : e.record.certificate.invocation.id = j.id)
    (ran : e.record.runner ≠ none) : Leads s (jobGroup s j) key e := by
  have told : e.record.selected ≠ none := by
    obtain ⟨signed, ran⟩ := Option.ne_none_iff_exists'.mp ran
    rw [selected_of_runner ran]
    simp
  have group : invocationGroup e.record.certificate.invocation = jobGroup s j := by
    rw [invocationGroup_eq, jobGroup_eq, alone key e found told named]
  obtain ⟨l₁, row, l₂, key', e', -, -, -, -, leads⟩ := exists_leads c (groupRows_ne_nil.mpr ⟨key, e, found, told, group⟩)
  obtain ⟨rfl, rfl⟩ := runner_leads filed found ran group leads
  exact leads

/-- A retry that is not refused is of finished work, exactly if what leads to the row of the job is over. -/
theorem retriesFinished_iff (ids : (s.jobs.map (·.id)).Nodup) (filed : s.Filed c) : RetriesFinished c s id ↔
    (s.ensureWritable = .ok () → Limits.identifier id = .ok () → LeadsFinished s id) := by
  constructor
  · rintro finished writable valid old listed rfl own ended
    obtain ⟨⟨text, v, asked, terminal⟩, still⟩ :=
      finished old writable ((retryable_iff ids).mpr ⟨valid, listed, rfl, own, ended⟩)
    obtain ⟨-, only, -⟩ := jobInspect_eq_ok.mp asked
    obtain ⟨alone, shown, about⟩ := (inspected_of_job ids listed).mp only
    refine ⟨alone, fun key e fact leads selected => ?_⟩
    refine ((isTerminal_of_job ids listed ended shown about).mp terminal key e fact leads selected).imp_right ?_
    intro lost
    refine ⟨lost, fun ran => ?_⟩
    obtain ⟨signed, ran⟩ := Option.ne_none_iff_exists'.mp ran
    rw [selected_of_runner ran] at selected
    cases selected
    have named : e.record.certificate.invocation.id = old.id := by
      have same := leads.group
      rw [invocationGroup_eq, jobGroup_eq] at same
      exact congrArg Prod.fst (groupOf_injective same)
    exact still key e _ leads.found named ran
  · intro finished old writable ran
    obtain ⟨valid, listed, rfl, own, ended⟩ := (retryable_iff ids).mp ran
    obtain ⟨alone, leads⟩ := finished writable valid old listed rfl own ended
    obtain ⟨v, shown, about⟩ := exists_view_of_job c ids listed
    refine ⟨⟨jobExplanation v.job.status, v, ?_, (isTerminal_of_job ids listed ended shown about).mpr ?_⟩, ?_⟩
    · exact jobInspect_eq_ok.mpr ⟨valid, (inspected_of_job ids listed).mpr ⟨alone, shown, about⟩, rfl⟩
    · intro key e fact here selected
      exact (leads key e fact here selected).imp_right And.left
    · intro key e signed found named ran still
      have first := leads_of_runner filed alone found named (by rw [ran]; simp)
      rcases leads key e signed first (selected_of_runner ran) with terminal | ⟨-, other⟩
      · rw [still] at terminal
        cases terminal
      · exact other (by rw [ran]; simp) still

end History

open History

/-- In every run, a retry that is not refused is of finished work, exactly if what leads to the row of the job is over. -/
theorem Daemon.retry_finished_iff (c : Crypto) (file : Store) (initial : file.Initial) (events : List (Env × Event)) :
    Everywhere (fun image => ∀ id, RetriesFinished c image.store id ↔ (image.store.ensureWritable = .ok () →
      Limits.identifier id = .ok () → LeadsFinished image.store id)) ((installed file).run c events).cell :=
  (everywhere_filed c file initial events).mono (fun _ stands _ => retriesFinished_iff stands.1 stands.2)

/-! ## A retry of a job that is seen to run -/

namespace RetryExample

set_option maxRecDepth 40000

def crypto : Crypto := Crypto.transparent

def aliceKey : Bytes := List.replicate 32 1

def bobKey : Bytes := List.replicate 32 2

def bob : Peer := ⟨⟨"bob"⟩, bobKey, none⟩

def env (newId : String) : Env where
  now := ⟨0, .mon, 0, 0⟩
  newId := .ok newId
  epochId := .ok "epoch"
  fs := ⟨fun _ => .error .unreachable, fun _ => .error .unreachable⟩
  fault := none
  meshBusy := false

def file : Store := { Store.first crypto "alices" "alice" aliceKey with peers := [bob] }

theorem initial : file.Initial where
  named := by rfl
  unique := List.nodup_nil
  unbound := by rfl
  unlabelled := by rfl
  unrecorded := by rfl

def draft : Draft := ⟨⟨"alice"⟩, ⟨"bob"⟩, ["tool"], none⟩

def invocation : Invocation := ⟨"job", ⟨"alice"⟩, aliceKey, ⟨"bob"⟩, bobKey, ["tool"], none, none⟩

def certificate : Certificate := ⟨invocation, crypto.sign aliceKey (bytes "invocation" invocation)⟩

def job : Job := ⟨"job", ⟨"bob"⟩, ["tool"], ⟨"alice"⟩, .queued, [], []⟩

def dispatch : Dispatch := ⟨job, some bob, some certificate⟩

/-- The answer of the runner was lost. -/
def failed : List (Env × Event) := [
  (env "job", .restart ⟨false, "alice", aliceKey, none, none, none⟩),
  (env "job", .compose "bob" ["tool"]),
  (env "job", .submit draft),
  (env "job", .selectJob "job"),
  (env "job", .fail dispatch (.protocol "closed")),
  (env "job", .settle dispatch (.protocol "closed"))]

def asking : Daemon := (Daemon.installed file).run crypto failed

def sync : Sync := ⟨⟨"bob"⟩, progress asking.store ⟨"bob"⟩, asking.store.history.trust⟩

def fact : Fact := ⟨invocationHash crypto certificate, .runner, 1, .running, OutputRef.of crypto [], OutputRef.of crypto []⟩

def page : Page := ⟨"bobs", true, 1, 1, true,
  [⟨⟨certificate, none, some ⟨fact, crypto.sign bobKey (bytes "fact" fact)⟩⟩, none, 1⟩]⟩

/-- The history of the runner says that it runs the job. -/
def seen : List (Env × Event) := failed ++ [(env "job", .startSync ⟨"bob"⟩), (env "job", .mergePage sync page)]

def retried : List (Env × Event) := seen ++ [
  (env "again", .retry "job"),
  (env "again", .submit { draft with retryOf := some "job" })]

def before : Daemon := (Daemon.installed file).run crypto seen

def after : Daemon := (Daemon.installed file).run crypto retried

def shown (d : Daemon) : Option JobStatus := (jobInspect crypto d.store "job").toOption.map (fun answer => answer.2.job.status)

theorem not_finished {d : Daemon} (writable : d.store.writeError = none)
    (offered : (Dispatch.retryable d.store "job").toOption.isSome = true) (running : shown d = some .running) :
    ¬RetriesFinished crypto d.store "job" := by
  intro finished
  obtain ⟨old, ran⟩ : ∃ old, Dispatch.retryable d.store "job" = .ok old := by
    cases ran : Dispatch.retryable d.store "job" with
    | error e => rw [ran] at offered; cases offered
    | ok old => exact ⟨old, rfl⟩
  obtain ⟨⟨text, v, asked, terminal⟩, -⟩ := finished old (by rw [Store.ensureWritable, writable]) ran
  have status : v.job.status = .running := by
    rw [shown, asked] at running
    exact Option.some.inj running
  rw [status] at terminal
  cases terminal

theorem retry_seen : (before.store.writeError = none ∧
    (Dispatch.retryable before.store "job").toOption.isSome = true ∧ shown before = some .running) ∧
    after.store.job? "again" = some { job with id := "again" } ∧ after.store.retryLinks.get? "again" = some "job" ∧
    shown after = some .running := by
  decide

/-- The second job is queued for the runner while the first is shown to run. -/
theorem retried_running : ¬RetriesFinished crypto before.store "job" ∧
    after.store.job? "again" = some { job with id := "again" } ∧ after.store.retryLinks.get? "again" = some "job" ∧
    shown after = some .running :=
  ⟨not_finished retry_seen.1.1 retry_seen.1.2.1 retry_seen.1.2.2, retry_seen.2⟩

theorem retried_iff : Everywhere (fun image => ∀ id, RetriesFinished crypto image.store id ↔
    (image.store.ensureWritable = .ok () → Limits.identifier id = .ok () → LeadsFinished image.store id))
    ((Daemon.installed file).run crypto retried).cell := Daemon.retry_finished_iff crypto file initial retried

end RetryExample

end Clix
