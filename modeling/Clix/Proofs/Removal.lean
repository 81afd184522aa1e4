import Clix.Proofs.Frame

/-! # Removing one payload

Both kinds of payload have one key, under which the entry is restamped without its replica and a receipt is left. A local
payload clears its row as well and leaves a second receipt.
-/

namespace Clix.Storage

open Except

variable {s t : Store}

/-- A row without its payload. -/
def emptied (job : Job) : Job := { job with stdout := [], stderr := [] }

/-- An entry without its replica, newer than every other. -/
def restamped (change : UInt64) (e : Entry) : Entry := { e with output := none, change := change }

namespace Payload

/-- The key of the record that a payload belongs to. -/
def key? (s : Store) : Payload → Option String
  | .local id => s.jobCertificates.get? id
  | .replica key => some key

/-- Whether the row of a local payload is there. -/
def Present (s : Store) : Payload → Prop
  | .local id => (s.job? id).isSome = true
  | .replica _ => True

/-- The rows once a payload is removed. -/
def rows (jobs : List Job) : Payload → List Job
  | .local id => jobs.modifyFirst (fun j => j.id == id) emptied
  | .replica _ => jobs

/-- The receipts of jobs once a payload is removed. -/
def receipts (pruned : OrdSet String) : Payload → OrdSet String
  | .local id => pruned.insert id ()
  | .replica _ => pruned

/-- The state once a payload is removed. -/
def removedFrom (s : Store) (payload : Payload) (key : String) : Store :=
  { s with
    jobs := payload.rows s.jobs
    outputPruned := payload.receipts s.outputPruned
    historyPruned := s.historyPruned.insert key ()
    history := { s.history with
      clock := s.history.clock + 1
      entries := s.history.entries.adjust key (restamped (s.history.clock + 1)) } }

end Payload

/-- What clearing leaves of a row is left of all. -/
theorem Payload.map_rows {β : Type} {f : Job → β} (payload : Payload) (jobs : List Job)
    (same : ∀ job, f (emptied job) = f job) : (payload.rows jobs).map f = jobs.map f := by
  cases payload with
  | replica key => rfl
  | «local» id => exact List.map_modifyFirst_of_eq _ _ _ _ (fun job _ _ => same job)

theorem nextChange_of_lt (fits : s.history.clock.toNat + 1 < 2 ^ 64) :
    History.nextChange s = .ok (s.history.clock + 1,
      { s with history := { s.history with clock := s.history.clock + 1 } }) := by
  rw [History.nextChange, History.checkedNext, if_pos fits]
  rfl

theorem clearLocal_eq_ok_iff {id key : String} : clearLocal s id = .ok (t, key) ↔
    s.jobCertificates.get? id = some key ∧ (s.job? id).isSome = true ∧
      t = { s with
        jobs := (Payload.local id).rows s.jobs
        outputPruned := (Payload.local id).receipts s.outputPruned } := by
  unfold clearLocal
  cases bound : s.jobCertificates.get? id with
  | none => simp
  | some other =>
    cases found : s.job? id with
    | none => simp
    | some job =>
      constructor
      · intro success
        cases success
        exact ⟨rfl, rfl, rfl⟩
      · rintro ⟨same, -, rfl⟩
        cases same
        rfl

/-- Restamping an entry and leaving its receipt, once the rows are cleared. -/
private theorem stamp_eq_ok_iff {u : Store} {key : String} : (do
      let (change, s) ← History.nextChange u
      let entries := s.history.entries.adjust key (fun e => { e with output := none, change := change })
      return { s with
        history := { s.history with entries := entries }
        historyPruned := s.historyPruned.insert key () } : Result Store) = .ok t ↔
    u.history.clock.toNat + 1 < 2 ^ 64 ∧ t = (Payload.replica key).removedFrom u key := by
  constructor
  · intro success
    rw [bind_eq_ok] at success
    obtain ⟨⟨change, v⟩, next, success⟩ := success
    cases success
    obtain ⟨fits, rfl, rfl⟩ := History.nextChange_eq_ok next
    exact ⟨fits, rfl⟩
  · rintro ⟨fits, rfl⟩
    rw [nextChange_of_lt fits]
    rfl

/-- Removing a payload succeeds exactly when it has a key and a row, and the sequence is not exhausted. -/
theorem removePayload_eq_ok_iff {payload : Payload} : removePayload s payload = .ok t ↔
    ∃ key, payload.key? s = some key ∧ payload.Present s ∧ s.history.clock.toNat + 1 < 2 ^ 64 ∧
      t = payload.removedFrom s key := by
  cases payload with
  | «local» id =>
    unfold removePayload
    dsimp only
    rw [bind_eq_ok]
    constructor
    · rintro ⟨⟨u, key⟩, cleared, success⟩
      obtain ⟨bound, present, rfl⟩ := clearLocal_eq_ok_iff.mp cleared
      obtain ⟨fits, rfl⟩ := stamp_eq_ok_iff.mp success
      exact ⟨key, bound, present, fits, rfl⟩
    · rintro ⟨key, bound, present, fits, rfl⟩
      exact ⟨_, clearLocal_eq_ok_iff.mpr ⟨bound, present, rfl⟩, stamp_eq_ok_iff.mpr ⟨fits, rfl⟩⟩
  | replica key =>
    unfold removePayload
    dsimp only
    rw [ok_bind]
    constructor
    · intro success
      obtain ⟨fits, rfl⟩ := stamp_eq_ok_iff.mp success
      exact ⟨key, rfl, trivial, fits, rfl⟩
    · rintro ⟨_, same, -, fits, rfl⟩
      cases same
      exact stamp_eq_ok_iff.mpr ⟨fits, rfl⟩

/-- What one row offers to pruning under a key. -/
def rowCandidate (s : Store) (key : String) (job : Job) : Option Candidate :=
  if jobBytes job = 0 ∨ job.status.isTerminal = false ∨ s.jobCertificates.get? job.id ≠ some key then none
  else (s.history.entries.get? key).bind (fun entry =>
    if entry.record.selected.isSome then some ⟨entry.change, .local job.id, jobBytes job⟩ else none)

/-- What an entry makes of the candidate found under its key. -/
def withReplica (key : String) (e : Entry) (found : Option Candidate) : Option Candidate :=
  if 0 < replicaBytes e ∧ e.record.selected.any (fun f => f.fact.status.isTerminal) = true then
    match found with
    | some candidate => some { candidate with bytes := candidate.bytes + replicaBytes e }
    | none => some ⟨e.change, .replica key, replicaBytes e⟩
  else found

/-- The one candidate of a key: its last row's, its replica's, or both counted together. -/
def candidate? (s : Store) (key : String) : Option Candidate :=
  (s.history.entries.get? key).bind (fun entry =>
    withReplica key entry (s.jobs.reverse.findSome? (rowCandidate s key)))

theorem get?_localCandidate (s : Store) (found : OrdMap String Candidate) (job : Job) (key : String) :
    (localCandidate s found job).get? key = (rowCandidate s key job).or (found.get? key) := by
  unfold localCandidate rowCandidate
  by_cases idle : jobBytes job = 0 ∨ job.status.isTerminal = false
  · rw [if_pos idle, if_pos (by tauto)]
    rfl
  rw [if_neg idle]
  cases bound : s.jobCertificates.get? job.id with
  | none => simp
  | some other =>
    by_cases same : key = other
    · subst same
      rw [if_neg (by simpa using idle)]
      dsimp only
      cases s.history.entries.get? key with
      | none => rfl
      | some entry =>
        dsimp only [Option.bind_some]
        split_ifs
        · rw [OrdMap.get?_insert_self]
          rfl
        · rfl
    · rw [if_pos (.inr (.inr (fun equal => same (Option.some.inj equal).symm)))]
      dsimp only
      cases s.history.entries.get? other with
      | none => rfl
      | some entry =>
        dsimp only
        split_ifs
        · rw [OrdMap.get?_insert_of_ne _ _ same]
          rfl
        · rfl

/-- Of several rows under one key the last counts. -/
theorem get?_localCandidates (s : Store) (jobs : List Job) (found : OrdMap String Candidate) (key : String) :
    (jobs.foldl (localCandidate s) found).get? key =
      (jobs.reverse.findSome? (rowCandidate s key)).or (found.get? key) := by
  induction jobs generalizing found with
  | nil => rfl
  | cons job rest ih =>
    rw [List.foldl_cons, ih, get?_localCandidate, List.reverse_cons, List.findSome?_append, Option.or_assoc]
    congr 2
    rw [List.findSome?_cons]
    cases rowCandidate s key job <;> rfl

theorem get?_replicaCandidate (found : OrdMap String Candidate) (e : String × Entry) (key : String) :
    (replicaCandidate found e).get? key = if key = e.1 then withReplica e.1 e.2 (found.get? e.1) else found.get? key := by
  unfold replicaCandidate withReplica
  split_ifs with held same same
  · subst same
    cases found.get? e.1 <;> exact OrdMap.get?_insert_self _ _ _
  · cases found.get? e.1 <;> exact OrdMap.get?_insert_of_ne _ _ same
  · rw [same]
  · rfl

/-- Each entry is met once. -/
theorem get?_replicaCandidates {l : List (String × Entry)} (nodup : (l.map (·.1)).Nodup)
    (found : OrdMap String Candidate) (key : String) :
    (l.foldl replicaCandidate found).get? key =
      match OrdMap.lookupEntry key l with
      | none => found.get? key
      | some e => withReplica key e (found.get? key) := by
  induction l generalizing found with
  | nil => rfl
  | cons head rest ih =>
    obtain ⟨apart, tail⟩ := List.nodup_cons.mp nodup
    rw [List.foldl_cons, ih tail, OrdMap.lookupEntry, get?_replicaCandidate]
    by_cases same : key = head.1
    · subst same
      have absent : OrdMap.lookupEntry head.1 rest = none := by
        by_contra present
        obtain ⟨e, there⟩ := Option.ne_none_iff_exists'.mp present
        exact apart (List.mem_map.mpr ⟨(head.1, e), OrdMap.mem_of_lookupEntry there, rfl⟩)
      simp only [absent, ↓reduceIte]
    · simp only [same, ↓reduceIte]

/-- The candidates of all keys, before they are ordered. -/
theorem get?_candidateMap (s : Store) (key : String) :
    (s.history.entries.entries.foldl replicaCandidate (s.jobs.foldl (localCandidate s) ∅)).get? key =
      candidate? s key := by
  rw [get?_replicaCandidates s.history.entries.keys_nodup, get?_localCandidates]
  change (match s.history.entries.get? key with | none => _ | some e => _) = _
  unfold candidate?
  cases found : s.history.entries.get? key with
  | none =>
    have nothing : ∀ job ∈ s.jobs.reverse, rowCandidate s key job = none := by
      intro job _
      rw [rowCandidate, found]
      split_ifs <;> rfl
    rw [List.findSome?_eq_none_iff.mpr nothing]
    rfl
  | some entry =>
    dsimp only [Option.bind_some]
    rw [OrdMap.get?_empty, Option.or_none]

/-- The candidates are those of the recorded keys, in order of age. -/
theorem candidates_perm (s : Store) :
    (candidates s).Perm (s.history.entries.keys.filterMap (candidate? s)) := by
  have same : (fun key => (s.history.entries.entries.foldl replicaCandidate
      (s.jobs.foldl (localCandidate s) ∅)).get? key) = candidate? s := funext (get?_candidateMap s)
  refine (List.perm_insertionSort _ _).trans ?_
  rw [← same]
  refine OrdMap.values_perm s.history.entries.keys_nodup (fun key member => ?_)
  obtain ⟨candidate, there⟩ := OrdMap.contains_eq_true_iff.mp (OrdMap.mem_keys_iff.mp member)
  rw [get?_candidateMap, candidate?] at there
  obtain ⟨entry, found, -⟩ := Option.bind_eq_some_iff.mp there
  exact OrdMap.mem_keys_iff.mpr (OrdMap.contains_eq_true_iff.mpr ⟨entry, found⟩)

/-- A candidate is that of a recorded key. -/
theorem mem_candidates_iff {candidate : Candidate} :
    candidate ∈ candidates s ↔ ∃ key, candidate? s key = some candidate := by
  rw [(candidates_perm s).mem_iff, List.mem_filterMap]
  constructor
  · rintro ⟨key, -, there⟩
    exact ⟨key, there⟩
  · rintro ⟨key, there⟩
    obtain ⟨entry, found, -⟩ := Option.bind_eq_some_iff.mp there
    exact ⟨key, OrdMap.mem_keys_iff.mpr (OrdMap.contains_eq_true_iff.mpr ⟨entry, found⟩), there⟩

theorem rowCandidate_eq_some_iff {key : String} {job : Job} {candidate : Candidate} :
    rowCandidate s key job = some candidate ↔
      jobBytes job ≠ 0 ∧ job.status.isTerminal = true ∧ s.jobCertificates.get? job.id = some key ∧
        ∃ entry, s.history.entries.get? key = some entry ∧ entry.record.selected.isSome = true ∧
          candidate = ⟨entry.change, .local job.id, jobBytes job⟩ := by
  unfold rowCandidate
  split_ifs with idle
  · constructor
    · intro none
      cases none
    · rintro ⟨bytes, terminal, bound, -⟩
      rcases idle with none | active | other
      · exact absurd none bytes
      · rw [terminal] at active
        cases active
      · exact absurd bound other
  · simp only [not_or, Bool.not_eq_false, not_not] at idle
    rw [Option.bind_eq_some_iff]
    constructor
    · rintro ⟨entry, found, offered⟩
      split_ifs at offered with selected
      exact ⟨idle.1, idle.2.1, idle.2.2, entry, found, selected, (Option.some.inj offered).symm⟩
    · rintro ⟨-, -, -, entry, found, selected, rfl⟩
      exact ⟨entry, found, if_pos selected⟩

/-- A candidate's payload has the key it was found under. -/
theorem key?_of_candidate {key : String} {candidate : Candidate} (there : candidate? s key = some candidate) :
    candidate.payload.key? s = some key := by
  obtain ⟨entry, found, there⟩ := Option.bind_eq_some_iff.mp there
  have row {other : Candidate} (here : s.jobs.reverse.findSome? (rowCandidate s key) = some other) :
      other.payload.key? s = some key := by
    obtain ⟨job, -, offered⟩ := List.exists_of_findSome?_eq_some here
    obtain ⟨-, -, bound, -, -, -, rfl⟩ := rowCandidate_eq_some_iff.mp offered
    exact bound
  unfold withReplica at there
  split_ifs at there with held
  · cases local' : s.jobs.reverse.findSome? (rowCandidate s key) with
    | none =>
      rw [local'] at there
      cases there
      rfl
    | some other =>
      rw [local'] at there
      cases there
      have own := row local'
      exact own
  · exact row there

/-- Remove the payloads of some candidates in order. -/
def removeAll (s : Store) (gone : List Candidate) : Result Store :=
  gone.foldlM (fun s candidate => removePayload s candidate.payload) s

@[simp] theorem removeAll_nil (s : Store) : removeAll s [] = .ok s := rfl

theorem removeAll_cons (s : Store) (candidate : Candidate) (rest : List Candidate) :
    removeAll s (candidate :: rest) = removePayload s candidate.payload >>= fun u => removeAll u rest := rfl

/-- Owner pruning removes all but the last candidates, and counts what is gone. -/
theorem prune_eq_ok_iff {keep removed : ℕ} : prune s keep = .ok (t, removed) ↔
    removeAll s ((candidates s).take ((candidates s).length - keep)) = .ok t ∧
      removed = outputBytes s - outputBytes t := by
  rw [prune, bind_eq_ok]
  constructor
  · rintro ⟨u, folded, success⟩
    cases success
    exact ⟨folded, rfl⟩
  · rintro ⟨folded, rfl⟩
    exact ⟨t, folded, rfl⟩

/-- Eviction removes the candidates in order, while the budget is exceeded. -/
theorem evict_eq_ok {all : List Candidate} (success : evict s all = .ok t) :
    ∃ gone rest, all = gone ++ rest ∧ removeAll s gone = .ok t := by
  induction all generalizing s with
  | nil => exact ⟨[], [], rfl, success⟩
  | cons candidate others ih =>
    rw [evict] at success
    split_ifs at success
    · exact ⟨[], candidate :: others, rfl, success⟩
    · obtain ⟨u, removed, success⟩ := bind_eq_ok.mp success
      obtain ⟨gone, rest, rfl, folded⟩ := ih success
      exact ⟨candidate :: gone, rest, rfl, bind_eq_ok.mpr ⟨u, removed, folded⟩⟩

end Clix.Storage
