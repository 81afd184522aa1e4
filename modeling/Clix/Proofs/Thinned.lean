import Clix.Proofs.Paging
import Clix.Proofs.Identified

/-! # Payloads come and go

Normalising, pruning and evicting drop payloads and restamp entries. Records, bindings and labels stay as they are, and
so does every row.
-/

namespace Clix

open Except

/-- Records, bindings and labels are the same, though payloads may be gone, and no row is. -/
structure Store.Thinned (s t : Store) : Prop where
  trust : s.SameTrust t
  bindings : t.jobCertificates = s.jobCertificates
  labels : t.legacyJobs = s.legacyJobs
  initialized : s.history.initialized = true → t.history.initialized = true
  rows : ∀ id, s.job? id ≠ none → t.job? id ≠ none
  records : ∀ key, (t.history.entries.get? key).map (·.record) = (s.history.entries.get? key).map (·.record)
  outputs : ∀ key e', t.history.entries.get? key = some e' →
    e'.output = none ∨ ∃ e, s.history.entries.get? key = some e ∧ e.output = e'.output

namespace Store.Thinned

variable {s t u : Store}

theorem trans (first : s.Thinned t) (second : t.Thinned u) : s.Thinned u where
  trust := first.trust.trans second.trust
  bindings := second.bindings.trans first.bindings
  labels := second.labels.trans first.labels
  initialized done := second.initialized (first.initialized done)
  rows id present := second.rows id (first.rows id present)
  records key := (second.records key).trans (first.records key)
  outputs key e' found := by
    rcases second.outputs key e' found with gone | ⟨e, there, same⟩
    · exact .inl gone
    · rcases first.outputs key e there with gone | ⟨e₀, before, equal⟩
      · exact .inl (same.symm.trans gone)
      · exact .inr ⟨e₀, before, equal.trans same⟩

/-- Neither records nor bindings differ. -/
theorem of_eq (trust : s.SameTrust t) (bindings : t.jobCertificates = s.jobCertificates)
    (labels : t.legacyJobs = s.legacyJobs) (initialized : s.history.initialized = true → t.history.initialized = true)
    (rows : ∀ id, s.job? id ≠ none → t.job? id ≠ none) (entries : t.history.entries = s.history.entries) :
    s.Thinned t where
  trust := trust
  bindings := bindings
  labels := labels
  initialized := initialized
  rows := rows
  records key := by rw [entries]
  outputs key e' found := .inr ⟨e', entries ▸ found, rfl⟩

theorem refl (s : Store) : s.Thinned s := of_eq (.refl s) rfl rfl id (fun _ => id) rfl

/-- Rows are found by the desk. -/
theorem rows_of_desk (rows : t.jobs.map Job.row = s.jobs.map Job.row) (id : String) (present : s.job? id ≠ none) :
    t.job? id ≠ none := by
  intro absent
  have gone : t.desk.row? id = none := by rw [Store.row?_desk, absent]; rfl
  rw [Desk.row?, Store.desk, rows] at gone
  have still : s.desk.row? id = none := gone
  rw [Store.row?_desk, Option.map_eq_none_iff] at still
  exact present still

end Store.Thinned

namespace History

variable {c : Crypto} {s t : Store}

/-- Replacing an entry by one of the same record, with its payload or none. -/
theorem thinned_setEntry {key : String} {entry new : Entry} (found : s.history.entries.get? key = some entry)
    (record : new.record = entry.record) (output : new.output = none ∨ new.output = entry.output) :
    s.Thinned (s.setEntry key new) where
  trust := ⟨rfl, rfl, rfl⟩
  bindings := rfl
  labels := rfl
  initialized done := done
  rows _ present := present
  records other := by
    change ((s.history.entries.insert key new).get? other).map _ = _
    by_cases same : other = key
    · rw [same, OrdMap.get?_insert_self, found, Option.map_some, Option.map_some, record]
    · rw [OrdMap.get?_insert_of_ne _ _ same]
  outputs other e' here := by
    change (s.history.entries.insert key new).get? other = some e' at here
    by_cases same : other = key
    · rw [same, OrdMap.get?_insert_self] at here
      cases here
      rcases output with gone | kept
      · exact .inl gone
      · exact .inr ⟨entry, same ▸ found, kept.symm⟩
    · rw [OrdMap.get?_insert_of_ne _ _ same] at here
      exact .inr ⟨e', here, rfl⟩

theorem normalizeJob_thinned (s : Store) (job : Job) : s.Thinned (normalizeJob s job).1 := by
  rw [normalizeJob]
  split
  · exact .refl s
  split
  · exact .refl s
  next entry found =>
  split_ifs
  · exact .refl s
  · dsimp only
    split_ifs
    · exact .of_eq ⟨rfl, rfl, rfl⟩ rfl rfl (fun done => done) (fun _ present => present) rfl
    · exact .refl s
  · exact thinned_setEntry found rfl (.inl rfl)
  · exact .refl s

theorem normalizeJobs_thinned (s : Store) (jobs : List Job) : s.Thinned (normalizeJobs s jobs).1 := by
  induction jobs generalizing s with
  | nil => exact .refl s
  | cons job rest ih => exact (normalizeJob_thinned s job).trans (ih _)

theorem normalizeOutput_thinned (s : Store) : s.Thinned (normalizeOutput s) := by
  have dropped : s.Thinned { s with history := { s.history with
      entries := s.history.entries.mapValues (fun key entry =>
        if s.historyPruned.contains key then { entry with output := none } else entry) } } := by
    refine ⟨⟨rfl, rfl, rfl⟩, rfl, rfl, fun done => done, fun _ present => present, fun key => ?_, fun key e' here => ?_⟩
    · rw [OrdMap.get?_mapValues, Option.map_map]
      congr 1
      funext entry
      dsimp only [Function.comp]
      split_ifs <;> rfl
    · rw [OrdMap.get?_mapValues, Option.map_eq_some_iff] at here
      obtain ⟨entry, found, rfl⟩ := here
      split_ifs
      · exact .inl rfl
      · exact .inr ⟨entry, found, rfl⟩
  have walked := normalizeJobs_thinned { s with history := { s.history with
      entries := s.history.entries.mapValues (fun key entry =>
        if s.historyPruned.contains key then { entry with output := none } else entry) } } s.jobs
  have both := dropped.trans walked
  have frame := normalizeOutput_samePruned s
  exact ⟨⟨frame.bodyName, frame.ownerSk, frame.peers⟩, frame.jobCertificates, by rw [frame.frame], both.initialized,
    fun id => Store.Thinned.rows_of_desk frame.rows id, both.records, both.outputs⟩

end History

namespace Storage

variable {c : Crypto} {s t : Store}

/-- What removing a payload does: a job's own bytes go, or nothing of the jobs, and the entry is restamped without its
replica. -/
theorem removePayload_eq_ok {payload : Payload} (success : removePayload s payload = .ok t) :
    ∃ u key change v, (u.history = s.history ∧ u.jobCertificates = s.jobCertificates ∧ u.legacyJobs = s.legacyJobs) ∧
      History.nextChange u = .ok (change, v) ∧
      t = { v with
        history := { v.history with
          entries := v.history.entries.adjust key (fun e => { e with output := none, change := change }) }
        historyPruned := v.historyPruned.insert key () } := by
  unfold removePayload at success
  cases payload with
  | «local» id =>
    dsimp only at success
    rw [bind_eq_ok] at success
    obtain ⟨⟨u, key⟩, cleared, success⟩ := success
    dsimp only at success
    rw [bind_eq_ok] at success
    obtain ⟨⟨change, v⟩, stamped, success⟩ := success
    cases success
    refine ⟨u, key, change, v, ?_, stamped, rfl⟩
    rw [clearLocal] at cleared
    split at cleared
    · cases cleared
    · split at cleared
      · cases cleared
      · cases cleared
        exact ⟨rfl, rfl, rfl⟩
  | replica key =>
    dsimp only at success
    rw [ok_bind] at success
    dsimp only at success
    rw [bind_eq_ok] at success
    obtain ⟨⟨change, v⟩, stamped, success⟩ := success
    cases success
    exact ⟨s, key, change, v, ⟨rfl, rfl, rfl⟩, stamped, rfl⟩

theorem removePayload_thinned {payload : Payload} (success : removePayload s payload = .ok t) : s.Thinned t := by
  have same := removePayload_samePruned success
  have adjusted (entries : OrdMap String Entry) (key : String) (change : UInt64) :
      (∀ k, ((entries.adjust key (fun e => { e with output := none, change := change })).get? k).map (·.record) =
        (entries.get? k).map (·.record)) ∧
      ∀ k e', (entries.adjust key (fun e => { e with output := none, change := change })).get? k = some e' →
        e'.output = none ∨ ∃ e, entries.get? k = some e ∧ e.output = e'.output := by
    cases found : entries.get? key with
    | none =>
      rw [OrdMap.adjust_of_none _ found]
      exact ⟨fun _ => rfl, fun k e' here => .inr ⟨e', here, rfl⟩⟩
    | some entry =>
      rw [OrdMap.adjust_of_some _ found]
      refine ⟨fun k => ?_, fun k e' here => ?_⟩
      · rw [OrdMap.get?_insert]
        split_ifs with equal
        · rw [equal, found]
          rfl
        · rfl
      · rw [OrdMap.get?_insert] at here
        split_ifs at here
        · cases here
          exact .inl rfl
        · exact .inr ⟨e', here, rfl⟩
  obtain ⟨u, key, change, v, frame, stamped, rfl⟩ := removePayload_eq_ok success
  obtain ⟨-, -, rfl⟩ := History.nextChange_eq_ok stamped
  obtain ⟨records, outputs⟩ := adjusted u.history.entries key change
  refine ⟨⟨same.bodyName, same.ownerSk, same.peers⟩, frame.2.1, frame.2.2, ?_, ?_, ?_, ?_⟩
  · rw [← frame.1]
    exact fun done => done
  · exact fun id => Store.Thinned.rows_of_desk same.rows id
  · rw [← frame.1]
    exact records
  · rw [← frame.1]
    exact outputs

theorem evict_thinned {all : List Candidate} (success : evict s all = .ok t) : s.Thinned t := by
  induction all generalizing s with
  | nil =>
    cases success
    exact .refl _
  | cons candidate rest ih =>
    rw [evict] at success
    split_ifs at success
    · cases success
      exact .refl _
    · rw [bind_eq_ok] at success
      obtain ⟨u, removed, success⟩ := success
      exact (removePayload_thinned removed).trans (ih success)

theorem prune_thinned {keep removed : ℕ} (success : prune s keep = .ok (t, removed)) : s.Thinned t := by
  rw [prune, bind_eq_ok] at success
  obtain ⟨u, folded, success⟩ := success
  cases success
  exact List.foldlM_except_rel (R := Store.Thinned) Store.Thinned.refl (fun _ _ _ => Store.Thinned.trans)
    (fun _ _ _ _ => removePayload_thinned) folded

end Storage

end Clix
