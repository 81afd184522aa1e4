import Clix.Proofs.Eviction
import Clix.Proofs.Retained
import Clix.Proofs.Images

/-! # Startup recovery

Startup repairs an invalid name, checks the identity, and gives up on every run that was going on. Under a valid name
nothing is stranded. Repairing a name asks only whether a machine is paired, where renaming also asks for jobs: what was
running or waiting under the old name is nobody's afterwards.
-/

namespace Clix

open Except Storage

/-- No finished row under a pruned key holds output. -/
def Store.Cleared (s : Store) : Prop :=
  ∀ job ∈ s.jobs, job.status.isTerminal = true → s.prunedRow job = true → jobBytes job = 0

/-- What every save leaves: one row for each ID, output within its budget, and no output of a pruned job. Before the
history begins nothing is pruned. -/
structure Store.Saved (s : Store) : Prop where
  unique : s.desk.Unique
  fits : outputBytes s ≤ outputBudget
  cleared : s.Cleared
  unpruned : s.history.initialized = false → s.historyPruned = ∅

namespace History

theorem lastJob?_of_mem {jobs : List Job} (unique : (jobs.map (·.id)).Nodup) {job : Job} (member : job ∈ jobs) :
    lastJob? jobs job.id = some job := by
  have distinct : (jobs.reverse.map (·.id)).Nodup := by
    rw [List.map_reverse]
    exact List.nodup_reverse.mpr unique
  exact List.find?_key_of_mem (fun j : Job => j.id) distinct (List.mem_reverse.mpr member)

end History

namespace Store

variable {c : Crypto} {α : Type} {epochId : Result String} {s t : Store} {value : α} {mark : Job → Job} {name : String}
  {edit : Store → Result (Store × α)}

theorem unique_iff (s : Store) : s.desk.Unique ↔ (s.jobs.map (·.id)).Nodup := by
  rw [Desk.Unique, desk, List.map_map]
  rfl

/-- A job whose row was not marked is not published. -/
theorem not_mem_changedJobs (unique : (s.jobs.map (·.id)).Nodup) (named : ∀ j, (mark j).id = j.id) {job : Job}
    (member : job ∈ s.jobs) (unmarked : mark job = job) :
    ∀ other ∈ History.changedJobs false s.jobs (s.jobs.map mark), other.id ≠ job.id := by
  intro other changed same
  rw [History.changedJobs, List.mem_filter, List.mem_map, Bool.false_or, decide_eq_true_eq] at changed
  obtain ⟨⟨before, present, rfl⟩, differs⟩ := changed
  rw [named] at same
  obtain rfl : before = job := List.eq_of_mem_of_key_eq (fun j : Job => j.id) unique present member same
  rw [unmarked] at differs
  exact differs (History.lastJob?_of_mem unique member)

theorem initialized_of_refreshOwned {u v : Store} {previous : Option Store}
    (published : History.refreshOwned c epochId u previous = .ok v) : v.history.initialized = true := by
  rw [History.refreshOwned] at published
  dsimp only at published
  rw [bind_eq_ok] at published
  obtain ⟨_, -, published⟩ := published
  rw [bind_eq_ok] at published
  obtain ⟨_, -, published⟩ := published
  cases published
  rfl

/-- A finished row that was not marked has no output to lose. -/
theorem Saved.unmarked (saved : s.Saved) {u v : Store} (jobs : u.jobs = s.jobs.map mark) (history : u.history = s.history)
    (bindings : u.jobCertificates = s.jobCertificates) (receipts : u.historyPruned = s.historyPruned)
    (named : ∀ j, (mark j).id = j.id) (published : History.refreshOwned c epochId u (some s) = .ok v) {job : Job}
    (member : job ∈ s.jobs) (finished : job.status.isTerminal = true) (unmarked : mark job = job)
    (pruned : v.prunedRow job = true) : jobBytes job = 0 := by
  cases done : s.history.initialized with
  | false =>
    obtain ⟨key, e, -, there, -⟩ := prunedRow_eq_true.mp pruned
    rw [(History.refreshOwned_samePublished published).historyPruned, receipts, saved.unpruned done] at there
    cases there
  | true =>
    have begun : (!u.history.initialized) = false := by rw [history, done]; rfl
    have others : ∀ other ∈ History.changedJobs (!u.history.initialized) (((some s).map (·.jobs)).getD []) u.jobs,
        other.id ≠ job.id := by
      rw [begun, jobs]
      exact not_mem_changedJobs ((unique_iff s).mp saved.unique) named member unmarked
    have republished : u.Republished (fun id => id ≠ job.id) v := History.refreshOwned_republished others published
    refine saved.cleared job member finished ?_
    rw [← prunedRow_congr bindings receipts (fun key => by rw [history])]
    exact republished.prunedRow (fun differs => differs rfl) pruned

theorem cleared_normalizeOutput (s : Store) : (History.normalizeOutput s).Cleared := by
  intro job member _ pruned
  rw [History.normalizeOutput_jobs, List.mem_map] at member
  obtain ⟨old, -, rfl⟩ := member
  rw [History.normalizeOutput_prunedRow] at pruned
  split_ifs at pruned ⊢ with gone
  · rfl
  · exact absurd pruned gone

theorem prunedRow_dropOutput {key : String} {job : Job} (pruned : (s.dropOutput key).prunedRow job = true) :
    s.prunedRow job = true ∨ s.jobCertificates.get? job.id = some key := by
  obtain ⟨bound, e, known, receipt, found, matched⟩ := prunedRow_eq_true.mp pruned
  change s.jobCertificates.get? job.id = some bound at known
  by_cases same : bound = key
  · exact .inr (same ▸ known)
  · change (s.historyPruned.insert key ()).contains bound = true at receipt
    rw [OrdMap.contains_insert, Bool.or_eq_true, decide_eq_true_eq] at receipt
    rw [get?_dropOutput_of_ne s same] at found
    exact .inl (prunedRow_eq_true.mpr ⟨bound, e, known, receipt.resolve_left same, found, matched⟩)

theorem Cleared.dropOutput (cleared : s.Cleared) (key : String) : (s.dropOutput key).Cleared := by
  intro job member finished pruned
  change job ∈ s.jobs.map (fun job => if s.holdsUnder key job then emptied job else job) at member
  obtain ⟨old, there, rfl⟩ := List.mem_map.mp member
  split_ifs at finished pruned ⊢ with held
  · rfl
  · rcases prunedRow_dropOutput pruned with before | bound
    · exact cleared old there finished before
    · by_contra some
      exact held (holdsUnder_iff.mpr ⟨bound, finished, some⟩)

theorem Cleared.dropAll (cleared : s.Cleared) (gone : List String) : (s.dropAll gone).Cleared := by
  induction gone generalizing s with
  | nil => exact cleared
  | cons key rest ih => exact ih (cleared.dropOutput key)

/-- Every update saves such a state, when no two rows have one ID and no two IDs are bound to one record. -/
theorem saved_of_stage (success : stage c epochId s edit = .ok (t, value)) (apart : t.Apart) : t.Saved := by
  obtain ⟨-, edited, v, -, published, prepared, -, -⟩ := stage_eq_ok success
  obtain ⟨-, evicted, fits⟩ := prepare_eq_ok prepared
  have thinned := History.normalizeOutput_thinned { v with formatVersion := formatVersionNow }
  have cleared := cleared_normalizeOutput { v with formatVersion := formatVersionNow }
  have initialized := initialized_of_refreshOwned published
  have begun := thinned.initialized initialized
  generalize History.normalizeOutput { v with formatVersion := formatVersionNow } = w at evicted cleared begun
  have kept := evict_samePruned evicted
  have before : w.Apart := by
    refine ⟨(unique_iff w).mp ?_, fun id id' key bound also => apart.bindings id id' key ?_ ?_⟩
    · rw [Desk.Unique, ← kept.desk]
      exact (unique_iff t).mpr apart.ids
    · rw [kept.jobCertificates, bound]
    · rw [kept.jobCertificates, also]
  obtain ⟨keys, nodup, retained, listed⟩ := exists_keys w
  rw [listed] at evicted
  obtain ⟨gone, rfl⟩ := evict_drops before nodup
    (fun key member => candidate?_isSome_iff.mpr ((retained key).mp member)) evicted
  refine ⟨(unique_iff _).mpr apart.ids, fits, cleared.dropAll gone, fun blank => ?_⟩
  have still := (evict_thinned evicted).initialized begun
  exact absurd (still.symm.trans blank) (by simp)

/-! ### What startup does -/

/-- How startup leaves a row. -/
structure Resumes (s t : Store) (j j' : Job) : Prop where
  same : j'.id = j.id ∧ j'.origin = j.origin ∧ j'.body = j.body ∧ j'.argv = j.argv
  interrupted : j.body.name = s.bodyName → j.status = .running → ∃ reason, j'.status = .uncertain reason
  waiting : Dispatch.isLocal s j = true → Dispatch.isLocal t j' = true
  finished : j.status.isTerminal = true → j' = j

/-- What startup does to a row, under the name it runs with: a run of this machine is given up, and no other status
changes. -/
structure Restores (name : String) (j j' : Job) : Prop where
  same : j'.id = j.id ∧ j'.origin = j.origin ∧ j'.body = j.body ∧ j'.argv = j.argv
  interrupted : j.body.name = name → j.status = .running → ∃ reason, j'.status = .uncertain reason
  kept : ¬(j.body.name = name ∧ j.status = .running) → j'.status = j.status
  finished : j.status.isTerminal = true → j' = j

/-- Nobody is stranded by a name: no row of its own is running or waits in its queue. -/
def Idle (s : Store) : Prop :=
  ∀ j ∈ s.jobs, ¬(j.body.name = s.bodyName ∧ j.status = .running) ∧ Dispatch.isLocal s j = false

end Store

namespace Daemon

variable {c : Crypto} {d : Daemon} {env : Env} {fault : Option Fault}

/-- What a restart does once the state is read. -/
def startup (c : Crypto) (env : Env) (fault : Option Fault) (d : Daemon) : Daemon :=
  let d := d.repairBodyName c env fault
  if d.live = false ∨ Pair.validateStore c d.store ≠ .ok () then { d with live := false } else d.recoverJobs c env

theorem restart_eq_startup (boot : Boot) (read : (d.openStore boot).live = true) :
    d.restart c env boot = (d.openStore boot).startup c env boot.repairFault := by
  have live : ¬(d.openStore boot).live = false := by simp [read]
  rw [restart]
  dsimp only
  rw [if_neg live]
  rfl

/-- What a startup that succeeded leaves. -/
structure Restored (c : Crypto) (s : Store) (d : Daemon) : Prop where
  named : d.store.bodyName = s.bodyName ∨
    Pair.validateName s.bodyName ≠ .ok () ∧ d.store.bodyName = Pair.sanitizeName s.bodyName
  valid : Pair.validateStore c d.store = .ok ()
  settled : d.store.needsRecovery = false
  rows : ∃ left : Job → Job, d.store.jobs = s.jobs.map left ∧ ∀ j ∈ s.jobs, Store.Restores d.store.bodyName j (left j)
  grants : d.store.grants = s.grants
  peers : d.store.peers = s.peers
  requests : d.store.requests = s.requests
  outboundRequests : d.store.outboundRequests = s.outboundRequests
  requestReceipts : d.store.requestReceipts = s.requestReceipts

end Daemon

/-! ## A machine that was named after its host -/

namespace RepairExample

set_option maxRecDepth 40000

def waiting : Job := ⟨"waiting", ⟨"my.host"⟩, ["tool"], ⟨"my.host"⟩, .queued, [], []⟩

def interrupted : Job := ⟨"interrupted", ⟨"my.host"⟩, ["tool"], ⟨"my.host"⟩, .running, [], []⟩

/-- The state of a machine that was never paired, under the name of its host. -/
def host (name : String) (jobs : List Job) : Store :=
  { Store.first Crypto.transparent "epoch" "host" (List.replicate 32 1) with bodyName := name, jobs := jobs }

def opened (name : String) (jobs : List Job) : Daemon := { Daemon.installed (host name jobs) with live := true }

def env : Env where
  now := ⟨0, .mon, 0, 0⟩
  newId := .ok "id"
  epochId := .ok "epoch"
  fs := ⟨fun _ => .error .unreachable, fun _ => .error .unreachable⟩
  fault := none
  meshBusy := false

abbrev started (name : String) (jobs : List Job) : Daemon := (opened name jobs).startup Crypto.transparent env none

/-- The rows of a machine under a valid name: one waits, one ran when the machine stopped, one is done. -/
def rows : List Job :=
  [⟨"later", ⟨"host"⟩, ["tool"], ⟨"host"⟩, .queued, [], []⟩, ⟨"cut", ⟨"host"⟩, ["tool"], ⟨"host"⟩, .running, [], []⟩,
    ⟨"old", ⟨"host"⟩, ["tool"], ⟨"host"⟩, .done 0, [], []⟩]

end RepairExample

end Clix
