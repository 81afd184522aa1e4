import Clix.Proofs.Touches
import Clix.Proofs.Charge

/-! # What an update keeps of the retained output

Publication adds no output, changes no row, and binds only the jobs that changed. Normalising clears exactly the rows
admitted under a pruned key. So an update whose edit fits the budget evicts nothing, and leaves every other row as the
edit made it.
-/

namespace Clix

open Except Storage

/-- Whether normalising clears a row: it was admitted under a pruned key. -/
def Store.prunedRow (s : Store) (job : Job) : Bool :=
  match s.jobCertificates.get? job.id with
  | none => false
  | some key => s.historyPruned.contains key &&
      ((s.history.entries.get? key).map (·.record)).any (fun r => History.matchesJob r.certificate job)

/-- The bytes of all replicas. -/
def Store.replicas (s : Store) : ℕ := (s.history.entries.values.map replicaBytes).sum

/-- What publication about some jobs leaves: no replica grows, and nothing is bound or certified but these jobs. -/
structure Store.Republished (Changed : String → Prop) (s t : Store) : Prop where
  frame : s.SamePublished t
  replicas : t.replicas ≤ s.replicas
  bindings : ∀ id, ¬Changed id → t.jobCertificates.get? id = s.jobCertificates.get? id
  certificates : ∀ key e, t.history.entries.get? key = some e → Changed e.record.certificate.invocation.id ∨
    ∃ e₀, s.history.entries.get? key = some e₀ ∧ e₀.record.certificate = e.record.certificate

namespace Store

variable {s t u : Store} {Changed : String → Prop}

theorem prunedRow_congr (bindings : t.jobCertificates = s.jobCertificates) (pruned : t.historyPruned = s.historyPruned)
    (records : ∀ key, (t.history.entries.get? key).map (·.record) = (s.history.entries.get? key).map (·.record))
    (job : Job) : t.prunedRow job = s.prunedRow job := by
  simp only [prunedRow, bindings, pruned, records]

theorem prunedRow_eq_true {job : Job} : s.prunedRow job = true ↔ ∃ key e, s.jobCertificates.get? job.id = some key ∧
    s.historyPruned.contains key = true ∧ s.history.entries.get? key = some e ∧
      History.matchesJob e.record.certificate job = true := by
  unfold prunedRow
  cases s.jobCertificates.get? job.id with
  | none => simp
  | some key => simp [Option.any_eq_true]

theorem replicas_congr (same : t.history.entries = s.history.entries) : t.replicas = s.replicas := by
  rw [replicas, replicas, same]

/-- Replacing an entry by one of no more output. -/
theorem replicas_setEntry_le {key : String} {new : Entry}
    (smaller : replicaBytes new ≤ (s.history.entries.get? key).elim 0 replicaBytes) :
    (s.setEntry key new).replicas ≤ s.replicas := by
  change ((s.history.entries.insert key new).values.map replicaBytes).sum ≤ (s.history.entries.values.map replicaBytes).sum
  simp only [OrdMap.values, List.map_map, Function.comp_def]
  cases found : s.history.entries.get? key with
  | none =>
    rw [found] at smaller
    have added := OrdMap.sum_insert_of_none (fun e => replicaBytes e.2) new found
    dsimp only [Option.elim_none] at added smaller
    omega
  | some old =>
    rw [found] at smaller
    have moved := OrdMap.sum_insert_of_some (fun e => replicaBytes e.2) new found
    dsimp only [Option.elim_some] at moved smaller
    omega

namespace Republished

theorem of_eq (frame : s.SamePublished t) (entries : t.history.entries = s.history.entries)
    (bindings : t.jobCertificates = s.jobCertificates) : s.Republished Changed t where
  frame := frame
  replicas := (replicas_congr entries).le
  bindings id _ := by rw [bindings]
  certificates key e found := .inr ⟨e, entries ▸ found, rfl⟩

theorem refl (s : Store) : s.Republished Changed s := of_eq (.refl s) rfl rfl

theorem trans (first : s.Republished Changed t) (second : t.Republished Changed u) : s.Republished Changed u where
  frame := first.frame.trans second.frame
  replicas := second.replicas.trans first.replicas
  bindings id other := (second.bindings id other).trans (first.bindings id other)
  certificates key e found := by
    rcases second.certificates key e found with changed | ⟨e₁, there, same⟩
    · exact .inl changed
    · rw [← same]
      exact first.certificates key e₁ there

/-- Replacing an entry by one of no more output, certified as before or about a job that changed. -/
theorem setEntry {key : String} {new : Entry}
    (smaller : replicaBytes new ≤ (s.history.entries.get? key).elim 0 replicaBytes)
    (certified : Changed new.record.certificate.invocation.id ∨
      ∃ e₀, s.history.entries.get? key = some e₀ ∧ e₀.record.certificate = new.record.certificate) :
    s.Republished Changed (s.setEntry key new) where
  frame := History.setEntry_samePublished s key new
  replicas := replicas_setEntry_le smaller
  bindings _ _ := rfl
  certificates other e found := by
    change (s.history.entries.insert key new).get? other = some e at found
    rw [OrdMap.get?_insert] at found
    split_ifs at found with equal
    · cases found
      rw [equal]
      exact certified
    · exact .inr ⟨e, found, rfl⟩

/-- A row whose job did not change is cleared only when it would have been. -/
theorem prunedRow {job : Job} (published : s.Republished Changed t) (unchanged : ¬Changed job.id)
    (cleared : t.prunedRow job = true) : s.prunedRow job = true := by
  obtain ⟨key, e, bound, pruned, found, matched⟩ := prunedRow_eq_true.mp cleared
  have named : e.record.certificate.invocation.id = job.id := by
    simp only [History.matchesJob, Bool.and_eq_true, beq_iff_eq] at matched
    exact matched.1.1.1
  rcases published.certificates key e found with changed | ⟨e₀, before, same⟩
  · exact absurd (named ▸ changed) unchanged
  · rw [published.bindings _ unchanged] at bound
    rw [published.frame.historyPruned] at pruned
    exact prunedRow_eq_true.mpr ⟨key, e₀, bound, pruned, before, same ▸ matched⟩

end Republished

end Store

namespace History

variable {c : Crypto} {s t : Store} {Changed : String → Prop}

theorem bindOwned_republished {old : List Job} {job : Job} {key : String} (changed : Changed job.id)
    (success : bindOwned c old s job = .ok (t, key)) : s.Republished Changed t := by
  rcases bindOwned_cases success with ⟨-, rfl⟩ | ⟨unbound, -⟩
  · exact .refl _
  · have frame := bindOwned_samePublished success
    obtain ⟨legacy, cert, -, made, -, -, rfl⟩ := bindOwned_eq_ok unbound success
    have named : Changed (Entry.unsigned cert (s.history.clock + 1)).record.certificate.invocation.id := by
      rw [← (certificate_eq_ok made).1] at changed
      exact changed
    have entered : s.Republished Changed (s.setEntry key (Entry.unsigned cert (s.history.clock + 1))) :=
      .setEntry (Nat.zero_le _) (.inl named)
    refine ⟨frame, entered.replicas, fun id other => OrdMap.get?_insert_of_ne _ _ ?_, entered.certificates⟩
    rintro rfl
    exact other changed

/-- The replica kept after a fact was published is no other than before. -/
theorem replicaBytes_keptOutput_le (s : Store) (entry : Entry) (job : Job) :
    replicaBytes { entry with output := keptOutput c s entry job } ≤ replicaBytes entry := by
  unfold replicaBytes keptOutput
  dsimp only
  split
  · exact le_rfl
  · split_ifs
    · exact Nat.zero_le _
    · cases entry.output with
      | none => exact le_rfl
      | some output =>
        rw [Option.filter_some]
        split_ifs
        · exact le_rfl
        · exact Nat.zero_le _

theorem setFact_certificate (record : Record) (role : Role) (signed : SignedFact) :
    (Record.setFact record role signed).certificate = record.certificate := by cases role <;> rfl

theorem publishFact_republished {key : String} {entry : Entry} {job : Job} {role : Role}
    (found : s.history.entries.get? key = some entry) (success : publishFact c s key entry job role = .ok t) :
    s.Republished Changed t := by
  have frame := publishFact_samePublished success
  obtain ⟨stdout, stderr, -, ⟨-, rfl⟩ | ⟨-, revision, signed, -, -, -, -, -, signedEntry, rfl, rfl⟩⟩ :=
    publishFact_eq_ok success
  · exact .refl _
  · have kept := replicaBytes_keptOutput_le (c := c) s { entry with
      record := Record.setFact entry.record role signed
      change := s.history.clock + 1 } job
    have replaced : s.Republished Changed (s.setEntry key _) := .setEntry (by rw [found]; exact kept)
      (.inr ⟨entry, found, (setFact_certificate _ _ _).symm⟩)
    exact ⟨frame, replaced.replicas, replaced.bindings, replaced.certificates⟩

theorem publishOwned_republished {old : List Job} {job : Job} (changed : Changed job.id)
    (success : publishOwned c old s job = .ok t) : s.Republished Changed t := by
  rw [publishOwned] at success
  split_ifs at success
  · cases success
    exact .refl _
  · rw [bind_eq_ok] at success
    obtain ⟨⟨u, key⟩, bound, success⟩ := success
    have first : s.Republished Changed u := bindOwned_republished changed bound
    dsimp only at success
    split at success
    · cases success
    next entry found =>
    rw [refuseIf_bind_eq_ok] at success
    obtain ⟨-, success⟩ := success
    split at success
    · cases success
      exact first
    · exact first.trans (publishFact_republished found success)

/-- Publication concerns the jobs that changed. -/
theorem refreshOwned_republished {newId : Result String} {previous : Option Store}
    (changed : ∀ job ∈ changedJobs (!s.history.initialized) ((previous.map (·.jobs)).getD []) s.jobs, Changed job.id)
    (success : refreshOwned c newId s previous = .ok t) : s.Republished Changed t := by
  rw [refreshOwned] at success
  dsimp only at success
  rw [bind_eq_ok] at success
  obtain ⟨u, named, success⟩ := success
  rw [bind_eq_ok] at success
  obtain ⟨v, published, success⟩ := success
  cases success
  have marked : s.Republished Changed (markLegacy s) := by
    refine .of_eq (markLegacy_samePublished s) ?_ ?_ <;>
    · rw [markLegacy]
      split_ifs <;> rfl
  have epoch : (markLegacy s).Republished Changed u := by
    refine .of_eq (ensureEpoch_samePublished named) ?_ ?_ <;>
    · rw [ensureEpoch] at named
      split_ifs at named
      · rw [bind_eq_ok] at named
        obtain ⟨new, -, named⟩ := named
        cases named
        rfl
      · cases named
        rfl
  have trust : u.Republished Changed (refreshTrust c u) := by
    refine .of_eq (refreshTrust_samePublished c u) ?_ ?_ <;>
    · rw [refreshTrust]
      split_ifs <;> rfl
  have begun := (marked.trans epoch).trans trust
  rw [begun.frame.jobs] at published
  have folded : (refreshTrust c u).Republished Changed v :=
    List.foldlM_except_rel (R := Store.Republished Changed) .refl (fun _ _ _ => .trans)
      (fun job member _ _ ran => publishOwned_republished (changed job member) ran) published
  have whole := begun.trans folded
  refine ⟨?_, whole.replicas, whole.bindings, whole.certificates⟩
  have same := whole.frame
  unfold Store.SamePublished at same ⊢
  rw [same]

/-! ### Normalising -/

theorem normalizeJob_historyPruned (s : Store) (job : Job) :
    (normalizeJob s job).1.historyPruned = s.historyPruned := by
  unfold normalizeJob
  split
  · rfl
  split
  · rfl
  split_ifs
  · rfl
  · dsimp only
    split_ifs <;> rfl
  · rfl
  · rfl

/-- Which rows are cleared does not change while rows are normalised. -/
theorem normalizeJob_prunedRow (s : Store) (job other : Job) :
    (normalizeJob s job).1.prunedRow other = s.prunedRow other := by
  have thinned := normalizeJob_thinned s job
  exact Store.prunedRow_congr thinned.bindings (normalizeJob_historyPruned s job) thinned.records other

/-- A pruned row is cleared, and any other row stays. -/
theorem normalizeJob_row_eq (s : Store) (job : Job) :
    (normalizeJob s job).2 = if s.prunedRow job then emptied job else job := by
  unfold normalizeJob Store.prunedRow
  cases s.jobCertificates.get? job.id with
  | none => rfl
  | some key =>
    cases found : s.history.entries.get? key with
    | none => simp [found]
    | some entry =>
      simp only [found, Option.map_some, Option.any_some]
      split_ifs with differs pruned held cleared cleared cleared <;> simp_all [emptied]

theorem normalizeJobs_eq (s : Store) (jobs : List Job) :
    (normalizeJobs s jobs).2 = jobs.map (fun j => if s.prunedRow j then emptied j else j) := by
  induction jobs generalizing s with
  | nil => rfl
  | cons job rest ih =>
    rw [normalizeJobs]
    dsimp only
    rw [ih, List.map_cons, normalizeJob_row_eq]
    simp only [normalizeJob_prunedRow]

/-- Normalising empties exactly the pruned rows. -/
theorem normalizeOutput_jobs (s : Store) :
    (normalizeOutput s).jobs = s.jobs.map (fun j => if s.prunedRow j then emptied j else j) := by
  unfold normalizeOutput
  dsimp only
  rw [normalizeJobs_eq]
  refine List.map_congr_left (fun job _ => ?_)
  have same : ∀ entries : OrdMap String Entry,
      (∀ key, (entries.get? key).map (·.record) = (s.history.entries.get? key).map (·.record)) →
      Store.prunedRow { s with history := { s.history with entries := entries } } job = s.prunedRow job :=
    fun entries records => @Store.prunedRow_congr s { s with history := { s.history with entries := entries } }
      rfl rfl records job
  rw [same]
  intro key
  rw [OrdMap.get?_mapValues, Option.map_map]
  congr 1
  funext entry
  dsimp only [Function.comp]
  split_ifs <;> rfl

theorem normalizeOutput_prunedRow (s : Store) (job : Job) : (normalizeOutput s).prunedRow job = s.prunedRow job := by
  have thinned := normalizeOutput_thinned s
  refine Store.prunedRow_congr thinned.bindings ?_ thinned.records job
  have walked : ∀ (t : Store) (jobs : List Job), (normalizeJobs t jobs).1.historyPruned = t.historyPruned := by
    intro t jobs
    induction jobs generalizing t with
    | nil => rfl
    | cons job rest ih => exact (ih _).trans (normalizeJob_historyPruned t job)
  exact walked _ _

end History

namespace Storage

variable {s t : Store}

/-- Nothing is evicted from a state that fits. -/
theorem evict_of_le (fits : outputBytes s ≤ outputBudget) (all : List Candidate) : evict s all = .ok s := by
  cases all with
  | nil => rfl
  | cons candidate rest => rw [evict, if_pos fits]

end Storage

namespace Store

variable {c : Crypto} {α : Type} {epochId : Result String} {s t u : Store} {value : α} {Changed : String → Prop}
  {edit : Store → Result (Store × α)}

end Store

end Clix
