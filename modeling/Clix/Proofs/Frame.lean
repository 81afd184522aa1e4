import Clix.Model.Update
import Clix.Model.Desk

/-! # What an update leaves alone

Publication touches history and bindings only; normalisation and pruning touch payloads, history and
receipts only. Hence the desk of the state an update saves is the desk its edit produced.
-/

namespace Clix

open Except

/-- Nothing but history and bindings differs. -/
def Store.SamePublished (s t : Store) : Prop :=
  t = { s with history := t.history, jobCertificates := t.jobCertificates, legacyJobs := t.legacyJobs }

namespace Store.SamePublished

theorem refl (s : Store) : s.SamePublished s := rfl

theorem trans {s t u : Store} (first : s.SamePublished t) (second : t.SamePublished u) :
    s.SamePublished u := by
  unfold SamePublished at *
  rw [second]
  generalize u.history = h, u.jobCertificates = b, u.legacyJobs = l at *
  rw [first]

variable {s t : Store}

theorem jobs (same : s.SamePublished t) : t.jobs = s.jobs := by rw [same]
theorem bodyName (same : s.SamePublished t) : t.bodyName = s.bodyName := by rw [same]
theorem ownerSk (same : s.SamePublished t) : t.ownerSk = s.ownerSk := by rw [same]
theorem peers (same : s.SamePublished t) : t.peers = s.peers := by rw [same]
theorem grants (same : s.SamePublished t) : t.grants = s.grants := by rw [same]
theorem writeError (same : s.SamePublished t) : t.writeError = s.writeError := by rw [same]
theorem outputPruned (same : s.SamePublished t) : t.outputPruned = s.outputPruned := by rw [same]
theorem historyPruned (same : s.SamePublished t) : t.historyPruned = s.historyPruned := by rw [same]
theorem retryLinks (same : s.SamePublished t) : t.retryLinks = s.retryLinks := by rw [same]

theorem desk (same : s.SamePublished t) : t.desk = s.desk := by
  rw [Store.desk, Store.desk, same.jobs, same.bodyName, same.peers, same.grants]

end Store.SamePublished

namespace History

variable {c : Crypto} {s t : Store}

theorem nextChange_eq_ok {change : UInt64} (success : nextChange s = .ok (change, t)) :
    s.history.clock.toNat + 1 < 2 ^ 64 ∧ change = s.history.clock + 1 ∧
      t = { s with history := { s.history with clock := change } } := by
  rw [nextChange, bind_eq_ok] at success
  obtain ⟨n, next, success⟩ := success
  rw [checkedNext] at next
  split_ifs at next with fits
  cases next
  cases success
  exact ⟨fits, rfl, rfl⟩

theorem nextChange_samePublished {change : UInt64} (success : nextChange s = .ok (change, t)) :
    s.SamePublished t := by
  rw [(nextChange_eq_ok success).2.2]
  rfl

theorem setEntry_samePublished (s : Store) (key : String) (entry : Entry) :
    s.SamePublished (s.setEntry key entry) := rfl

theorem bindOwned_samePublished {old : List Job} {job : Job} {key : String}
    (success : bindOwned c old s job = .ok (t, key)) : s.SamePublished t := by
  rw [bindOwned] at success
  split at success
  · cases success
    exact .refl _
  · dsimp only at success
    rw [bind_eq_ok] at success
    obtain ⟨cert, -, success⟩ := success
    rw [bind_eq_ok] at success
    obtain ⟨⟨change, u⟩, stamped, success⟩ := success
    cases success
    have clocked := nextChange_samePublished stamped
    split_ifs at clocked with legacy
    all_goals
      unfold Store.SamePublished at *
      rw [clocked]
      rfl

theorem publishFact_samePublished {key : String} {entry : Entry} {job : Job} {role : Role}
    (success : publishFact c s key entry job role = .ok t) : s.SamePublished t := by
  rw [publishFact] at success
  dsimp only at success
  rw [bind_eq_ok] at success
  obtain ⟨⟨stdout, stderr⟩, -, success⟩ := success
  dsimp only at success
  split_ifs at success
  · cases success
    exact .refl _
  · rw [bind_eq_ok] at success
    obtain ⟨revision, -, success⟩ := success
    rw [bind_eq_ok] at success
    obtain ⟨seed, -, success⟩ := success
    rw [bind_eq_ok] at success
    obtain ⟨⟨change, u⟩, stamped, success⟩ := success
    cases success
    exact (nextChange_samePublished stamped).trans (setEntry_samePublished u _ _)

theorem publishOwned_samePublished {old : List Job} {job : Job}
    (success : publishOwned c old s job = .ok t) : s.SamePublished t := by
  rw [publishOwned] at success
  split_ifs at success
  · cases success
    exact .refl _
  · rw [bind_eq_ok] at success
    obtain ⟨⟨u, key⟩, bound, success⟩ := success
    dsimp only at success
    have first := bindOwned_samePublished bound
    split at success
    · cases success
    · rw [refuseIf_bind_eq_ok] at success
      obtain ⟨-, success⟩ := success
      split at success
      · cases success
        exact first
      · exact first.trans (publishFact_samePublished success)

theorem refreshTrust_samePublished (c : Crypto) (s : Store) : s.SamePublished (refreshTrust c s) := by
  rw [refreshTrust]
  split_ifs <;> rfl

theorem markLegacy_samePublished (s : Store) : s.SamePublished (markLegacy s) := by
  rw [markLegacy]
  split_ifs <;> rfl

theorem ensureEpoch_samePublished {newId : Result String} (success : ensureEpoch newId s = .ok t) :
    s.SamePublished t := by
  rw [ensureEpoch] at success
  split_ifs at success
  · rw [bind_eq_ok] at success
    obtain ⟨id, -, success⟩ := success
    cases success
    rfl
  · cases success
    rfl

/-- Publication changes only history and bindings. -/
theorem refreshOwned_samePublished {newId : Result String} {previous : Option Store}
    (success : refreshOwned c newId s previous = .ok t) : s.SamePublished t := by
  rw [refreshOwned] at success
  dsimp only at success
  rw [bind_eq_ok] at success
  obtain ⟨u, named, success⟩ := success
  rw [bind_eq_ok] at success
  obtain ⟨v, published, success⟩ := success
  cases success
  have before : s.SamePublished (refreshTrust c u) :=
    ((markLegacy_samePublished s).trans (ensureEpoch_samePublished named)).trans
      (refreshTrust_samePublished c u)
  have folded : (refreshTrust c u).SamePublished v :=
    List.foldlM_except_rel (R := Store.SamePublished) Store.SamePublished.refl
      (fun _ _ _ => Store.SamePublished.trans) (fun _ _ _ _ => publishOwned_samePublished) published
  exact (before.trans folded).trans rfl

end History

/-- Nothing but payloads, history and pruning receipts differs, and each job keeps its row. -/
structure Store.SamePruned (s t : Store) : Prop where
  frame : t = { s with
    jobs := t.jobs
    history := t.history
    outputPruned := t.outputPruned
    historyPruned := t.historyPruned }
  rows : t.jobs.map Job.row = s.jobs.map Job.row

namespace Store.SamePruned

theorem refl (s : Store) : s.SamePruned s := ⟨rfl, rfl⟩

theorem trans {s t u : Store} (first : s.SamePruned t) (second : t.SamePruned u) : s.SamePruned u := by
  refine ⟨?_, second.rows.trans first.rows⟩
  rw [second.frame]
  generalize u.jobs = j, u.history = h, u.outputPruned = o, u.historyPruned = p
  rw [first.frame]

variable {s t : Store}

theorem bodyName (same : s.SamePruned t) : t.bodyName = s.bodyName := by rw [same.frame]
theorem ownerSk (same : s.SamePruned t) : t.ownerSk = s.ownerSk := by rw [same.frame]
theorem peers (same : s.SamePruned t) : t.peers = s.peers := by rw [same.frame]
theorem grants (same : s.SamePruned t) : t.grants = s.grants := by rw [same.frame]
theorem writeError (same : s.SamePruned t) : t.writeError = s.writeError := by rw [same.frame]
theorem jobCertificates (same : s.SamePruned t) : t.jobCertificates = s.jobCertificates := by
  rw [same.frame]
theorem retryLinks (same : s.SamePruned t) : t.retryLinks = s.retryLinks := by rw [same.frame]

theorem desk (same : s.SamePruned t) : t.desk = s.desk := by
  rw [Store.desk, Store.desk, same.rows, same.bodyName, same.peers, same.grants]

end Store.SamePruned

namespace History

theorem normalizeJob_row (s : Store) (job : Job) : (normalizeJob s job).2.row = job.row := by
  rw [normalizeJob]
  split
  · rfl
  · split
    · rfl
    · split_ifs <;> rfl

theorem normalizeJob_samePruned (s : Store) (job : Job) : s.SamePruned (normalizeJob s job).1 := by
  rw [normalizeJob]
  split
  · exact .refl s
  · split
    · exact .refl s
    · split_ifs
      · exact .refl s
      · dsimp only
        split_ifs
        · exact ⟨rfl, rfl⟩
        · exact .refl s
      · exact ⟨rfl, rfl⟩
      · exact .refl s

theorem normalizeJobs_rows (s : Store) (jobs : List Job) :
    (normalizeJobs s jobs).2.map Job.row = jobs.map Job.row := by
  induction jobs generalizing s with
  | nil => rfl
  | cons job rest ih => simp only [normalizeJobs, List.map_cons, normalizeJob_row, ih]

theorem normalizeJobs_samePruned (s : Store) (jobs : List Job) :
    s.SamePruned (normalizeJobs s jobs).1 := by
  induction jobs generalizing s with
  | nil => exact .refl s
  | cons job rest ih => exact (normalizeJob_samePruned s job).trans (ih _)

theorem normalizeOutput_samePruned (s : Store) : s.SamePruned (normalizeOutput s) := by
  rw [normalizeOutput]
  set entries := s.history.entries.mapValues (fun key entry =>
    if s.historyPruned.contains key then { entry with output := none } else entry)
  have walked := normalizeJobs_samePruned { s with history := { s.history with entries := entries } }
    s.jobs
  refine ⟨?_, normalizeJobs_rows _ _⟩
  dsimp only
  rw [walked.frame]

end History

namespace Storage

variable {s t : Store}

theorem removePayload_samePruned {payload : Payload} (success : removePayload s payload = .ok t) :
    s.SamePruned t := by
  unfold removePayload at success
  cases payload with
  | «local» id =>
    dsimp only at success
    rw [bind_eq_ok] at success
    obtain ⟨⟨u, key⟩, cleared, success⟩ := success
    dsimp only at success
    rw [bind_eq_ok] at success
    obtain ⟨⟨change, v⟩, stamped, success⟩ := success
    cases success
    rw [clearLocal] at cleared
    split at cleared
    · cases cleared
    · split at cleared
      · cases cleared
      · cases cleared
        rw [(History.nextChange_eq_ok stamped).2.2]
        refine ⟨rfl, ?_⟩
        exact List.map_modifyFirst_of_eq _ _ _ _ (fun _ _ _ => rfl)
  | replica key =>
    dsimp only at success
    rw [ok_bind] at success
    dsimp only at success
    rw [bind_eq_ok] at success
    obtain ⟨⟨change, v⟩, stamped, success⟩ := success
    cases success
    rw [(History.nextChange_eq_ok stamped).2.2]
    exact ⟨rfl, rfl⟩

theorem evict_samePruned {all : List Candidate} (success : evict s all = .ok t) : s.SamePruned t := by
  induction all generalizing s with
  | nil =>
    cases success
    exact .refl _
  | cons candidate rest ih =>
    rw [evict] at success
    split_ifs at success
    · cases success
      exact .refl _
    · rw [bind_eq_ok] at success
      obtain ⟨u, removed, success⟩ := success
      exact (removePayload_samePruned removed).trans (ih success)

theorem prepare_eq_ok {old : Store} (success : prepare s old = .ok t) :
    countLimits s old = .ok () ∧ evict s (candidates s) = .ok t ∧ outputBytes t ≤ outputBudget := by
  rw [prepare, bind_eq_ok] at success
  obtain ⟨⟨⟩, counted, success⟩ := success
  rw [bind_eq_ok] at success
  obtain ⟨u, evicted, success⟩ := success
  rw [refuseIf_bind_eq_ok] at success
  obtain ⟨fits, success⟩ := success
  cases success
  exact ⟨counted, evicted, not_lt.mp fits⟩

theorem prune_samePruned {keep removed : ℕ} (success : prune s keep = .ok (t, removed)) :
    s.SamePruned t := by
  rw [prune] at success
  rw [bind_eq_ok] at success
  obtain ⟨u, folded, success⟩ := success
  cases success
  exact List.foldlM_except_rel (R := Store.SamePruned) Store.SamePruned.refl
    (fun _ _ _ => Store.SamePruned.trans) (fun _ _ _ _ => removePayload_samePruned) folded

end Storage

namespace Store

variable {c : Crypto} {α : Type} {epochId : Result String} {s next : Store} {value : α}
  {edit : Store → Result (Store × α)}

/-- The parts of a successful stage. -/
theorem stage_eq_ok (success : stage c epochId s edit = .ok (next, value)) :
    s.writeError = none ∧ ∃ edited refreshed,
      edit s = .ok (edited, value) ∧
      History.refreshOwned c epochId edited (some s) = .ok refreshed ∧
      Storage.prepare (History.normalizeOutput { refreshed with formatVersion := formatVersionNow }) s =
        .ok next ∧
      (Json.toVec next).length ≤ Storage.stateBytes ∧
      Storage.reserveCompletion next s (Json.toVec next).length = .ok () := by
  rw [stage, bind_eq_ok] at success
  obtain ⟨⟨⟩, writable, success⟩ := success
  rw [bind_eq_ok] at success
  obtain ⟨⟨edited, v⟩, ran, success⟩ := success
  rw [bind_eq_ok] at success
  obtain ⟨refreshed, published, success⟩ := success
  rw [bind_eq_ok] at success
  obtain ⟨prepared, fits, success⟩ := success
  rw [bind_eq_ok] at success
  obtain ⟨bytes, encoded, success⟩ := success
  rw [bind_eq_ok] at success
  obtain ⟨⟨⟩, reserved, success⟩ := success
  cases success
  rw [Storage.encode, refuseIf_bind_eq_ok] at encoded
  obtain ⟨small, encoded⟩ := encoded
  cases encoded
  refine ⟨?_, edited, refreshed, ran, published, fits, not_lt.mp small, reserved⟩
  rw [ensureWritable] at writable
  split at writable
  · cases writable
  · assumption

/-- The desk an update saves is the one its edit made. -/
theorem stage_desk (success : stage c epochId s edit = .ok (next, value)) :
    ∃ edited, edit s = .ok (edited, value) ∧ next.desk = edited.desk ∧
      next.ownerSk = edited.ownerSk ∧ next.writeError = edited.writeError := by
  obtain ⟨-, edited, refreshed, ran, published, fits, -, -⟩ := stage_eq_ok success
  have one := History.refreshOwned_samePublished published
  have two := History.normalizeOutput_samePruned { refreshed with formatVersion := formatVersionNow }
  have three := Storage.evict_samePruned (Storage.prepare_eq_ok fits).2.1
  refine ⟨edited, ran, ?_, ?_, ?_⟩
  · exact (three.desk.trans two.desk).trans one.desk
  · exact (three.ownerSk.trans two.ownerSk).trans one.ownerSk
  · exact (three.writeError.trans two.writeError).trans one.writeError

end Store

end Clix
