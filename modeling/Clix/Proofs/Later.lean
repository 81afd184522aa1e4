import Clix.Proofs.Touches
import Clix.ToMathlib.ChangeLog

/-! # What a later state keeps

The clock of a machine only advances, and every entry it writes is stamped beyond it. Receipts for removed payloads
stay for good. `Store.Later` says so of two states, and each thing an update does to a store is shown to lead to a later
one.
-/

namespace Clix

open Except

/-- The records of a machine, with the time of the last change of each. -/
def Store.log (s : Store) : ChangeLog String ℕ Record where
  clock := s.history.clock.toNat
  entry? key := (s.history.entries.get? key).map (fun e => (e.change.toNat, e.record))

/-- What a later state of a machine has kept, when it went on reading the history of some machines. -/
structure Store.Later (reading : String → Prop) (s t : Store) : Prop where
  log : s.log.Advances t.log
  epoch : s.history.epoch ≠ "" → t.history.epoch = s.history.epoch
  peers : ∀ name, ¬reading name →
    t.history.peers.get? name = s.history.peers.get? name ∨ t.history.peers.get? name = none
  histories : ∀ key, s.historyPruned.contains key = true → t.historyPruned.contains key = true
  outputs : ∀ id, s.outputPruned.contains id = true → t.outputPruned.contains id = true

namespace Store

variable {reading : String → Prop} {s t u : Store}

theorem log_eq_some {key : String} {e : ℕ × Record} : s.log.entry? key = some e ↔
    ∃ entry, s.history.entries.get? key = some entry ∧ (entry.change.toNat, entry.record) = e :=
  Option.map_eq_some_iff

namespace Later

/-- A step that leaves the receipts alone. -/
theorem of_log (log : s.log.Advances t.log) (epoch : t.history.epoch = s.history.epoch)
    (peers : t.history.peers = s.history.peers) (histories : t.historyPruned = s.historyPruned)
    (outputs : t.outputPruned = s.outputPruned) : s.Later reading t where
  log := log
  epoch _ := epoch
  peers name _ := .inl (by rw [peers])
  histories key there := by rwa [histories]
  outputs id there := by rwa [outputs]

theorem of_history (history : t.history = s.history) (histories : t.historyPruned = s.historyPruned)
    (outputs : t.outputPruned = s.outputPruned) : s.Later reading t :=
  of_log (.of_eq (by simp only [Store.log, history]) (by simp only [Store.log, history])) (by rw [history])
    (by rw [history]) histories outputs

theorem refl (s : Store) : s.Later reading s := of_history rfl rfl rfl

theorem trans (first : s.Later reading t) (second : t.Later reading u) : s.Later reading u where
  log := first.log.trans second.log
  epoch named := by
    have same := first.epoch named
    exact (second.epoch (same ▸ named)).trans same
  peers name unread := by
    rcases second.peers name unread with kept | gone
    · rw [kept]
      exact first.peers name unread
    · exact .inr gone
  histories key there := second.histories key (first.histories key there)
  outputs id there := second.outputs id (first.outputs id there)

theorem of_work (work : s.SameWork t) : s.Later reading t :=
  of_history work.history work.historyPruned work.outputPruned

theorem setJob (s : Store) (job : Job) : s.Later reading (s.setJob job) := of_history rfl rfl rfl

/-- A receipt for the output of a job is added. -/
theorem receipt (s : Store) (id : String) : s.Later reading { s with outputPruned := s.outputPruned.insert id () } where
  log := .of_eq rfl rfl
  epoch _ := rfl
  peers _ _ := .inl rfl
  histories _ there := there
  outputs other there := by
    rw [OrdMap.contains_insert, there, Bool.or_true]

end Later

theorem lt_clock_succ (room : s.history.clock.toNat + 1 < 2 ^ 64) :
    s.history.clock.toNat < (s.history.clock + 1).toNat := by
  rw [UInt64.toNat_add]
  change s.history.clock.toNat < (s.history.clock.toNat + 1) % 2 ^ 64
  omega

/-- An entry is written at the next time. -/
theorem advances_stamp {key : String} {new : Entry} (room : s.history.clock.toNat + 1 < 2 ^ 64)
    (clock : t.history.clock = s.history.clock + 1) (entries : t.history.entries = s.history.entries.insert key new)
    (change : new.change = s.history.clock + 1) : s.log.Advances t.log := by
  have written (k : String) : t.log.entry? k =
      if k = key then some ((s.history.clock + 1).toNat, new.record) else s.log.entry? k := by
    change (t.history.entries.get? k).map _ = _
    rw [entries, OrdMap.get?_insert]
    split_ifs
    · rw [Option.map_some, change]
    · rfl
  exact .write (lt_clock_succ room) (congrArg UInt64.toNat clock) written

/-- An entry is written at the time it had, with the record it had. -/
theorem advances_replace {key : String} {entry new : Entry} (found : s.history.entries.get? key = some entry)
    (clock : t.history.clock = s.history.clock) (entries : t.history.entries = s.history.entries.insert key new)
    (change : new.change = entry.change) (record : new.record = entry.record) : s.log.Advances t.log := by
  refine .of_eq (congrArg UInt64.toNat clock) (funext (fun k => ?_))
  change (t.history.entries.get? k).map _ = (s.history.entries.get? k).map _
  rw [entries, OrdMap.get?_insert]
  split_ifs with same
  · rw [same, found, Option.map_some, Option.map_some, change, record]
  · rfl

end Store

namespace History

variable {c : Crypto} {reading : String → Prop} {s t : Store}

/-! ### Publication -/

theorem later_markLegacy (s : Store) : s.Later reading (markLegacy s) := by
  rw [markLegacy]
  split_ifs <;> exact .of_history rfl rfl rfl

theorem later_ensureEpoch {newId : Result String} (success : ensureEpoch newId s = .ok t) : s.Later reading t := by
  rw [ensureEpoch] at success
  split_ifs at success with unnamed
  · rw [bind_eq_ok] at success
    obtain ⟨id, -, success⟩ := success
    cases success
    exact ⟨.of_eq rfl rfl, fun named => absurd unnamed named, fun _ _ => .inl rfl, fun _ there => there,
      fun _ there => there⟩
  · cases success
    exact .refl s

/-- When the paired identities changed, every history is read again. -/
theorem later_refreshTrust (c : Crypto) (s : Store) : s.Later reading (refreshTrust c s) := by
  rw [refreshTrust]
  split_ifs
  · exact .refl s
  · exact ⟨.of_eq rfl rfl, fun _ => rfl, fun _ _ => .inr rfl, fun _ there => there, fun _ there => there⟩

theorem later_bindOwned {old : List Job} {job : Job} {key : String} (success : bindOwned c old s job = .ok (t, key)) :
    s.Later reading t := by
  rcases bindOwned_cases success with ⟨-, rfl⟩ | ⟨unbound, -⟩
  · exact .refl t
  · obtain ⟨legacy, cert, -, -, -, room, rfl⟩ := bindOwned_eq_ok unbound success
    exact .of_log (Store.advances_stamp room rfl rfl rfl) rfl rfl rfl rfl

theorem later_publishFact {key : String} {entry : Entry} {job : Job} {role : Role}
    (success : publishFact c s key entry job role = .ok t) : s.Later reading t := by
  obtain ⟨stdout, stderr, -, ⟨-, rfl⟩ | ⟨-, revision, signed, -, -, -, -, room, signedEntry, same, rfl⟩⟩ :=
    publishFact_eq_ok success
  · exact .refl t
  · exact .of_log (Store.advances_stamp room rfl rfl (by rw [same])) rfl rfl rfl rfl

theorem later_publishOwned {old : List Job} {job : Job} (success : publishOwned c old s job = .ok t) : s.Later reading t := by
  rw [publishOwned] at success
  split_ifs at success
  · cases success
    exact .refl s
  rw [bind_eq_ok] at success
  obtain ⟨⟨u, key⟩, bound, success⟩ := success
  have first : s.Later reading u := later_bindOwned bound
  dsimp only at success
  split at success
  · cases success
  rw [refuseIf_bind_eq_ok] at success
  obtain ⟨-, success⟩ := success
  split at success
  · cases success
    exact first
  · exact first.trans (later_publishFact success)

theorem later_refreshOwned {newId : Result String} {previous : Option Store}
    (success : refreshOwned c newId s previous = .ok t) : s.Later reading t := by
  rw [refreshOwned] at success
  dsimp only at success
  rw [bind_eq_ok] at success
  obtain ⟨u, named, success⟩ := success
  rw [bind_eq_ok] at success
  obtain ⟨v, published, success⟩ := success
  cases success
  have before : s.Later reading (refreshTrust c u) :=
    ((later_markLegacy s).trans (later_ensureEpoch named)).trans (later_refreshTrust c u)
  have folded : (refreshTrust c u).Later reading v := List.foldlM_except_rel (R := Store.Later reading) Store.Later.refl
    (fun _ _ _ => Store.Later.trans) (fun _ _ _ _ => later_publishOwned) published
  exact (before.trans folded).trans (.of_log (.of_eq rfl rfl) rfl rfl rfl rfl)

/-! ### Merging -/

theorem later_ingest {published : Published} {changed : Bool} (success : ingest c s published = .ok (t, changed)) :
    s.Later reading t := by
  obtain ⟨_, _, _, _, -, -, -, ⟨-, rfl⟩ | ⟨-, change, u, next, rfl⟩⟩ := (ingest_eq_ok success).merged
  · exact .refl t
  · obtain ⟨room, rfl, rfl⟩ := nextChange_eq_ok next
    exact .of_log (Store.advances_stamp room rfl rfl rfl) rfl rfl rfl rfl

theorem later_mergeRows {unknown flagged : Bool} {rows : List Published}
    (success : mergeRows c s unknown rows = .ok (t, flagged)) : s.Later reading t := by
  induction rows generalizing s unknown with
  | nil =>
    cases success
    exact .refl _
  | cons entry rest ih =>
    rw [mergeRows] at success
    split_ifs at success
    · rw [bind_eq_ok] at success
      obtain ⟨⟨u, changed⟩, merged, success⟩ := success
      exact (later_ingest merged).trans (ih success)
    · exact ih success

theorem later_setProgress (s : Store) {peer : BodyId} (read : reading peer.name) (p : Progress) :
    s.Later reading (setProgress s peer p) where
  log := .of_eq rfl rfl
  epoch _ := rfl
  peers _ unread := .inl (OrdMap.get?_insert_of_ne _ _ (fun same => unread (same ▸ read)))
  histories _ there := there
  outputs _ there := there

theorem later_mergePage {peer : BodyId} (read : reading peer.name) {progress : Progress} {page : Page}
    (success : mergePage c s peer progress page = .ok t) : s.Later reading t := by
  rw [mergePage, bind_eq_ok] at success
  obtain ⟨⟨u, flagged⟩, merged, success⟩ := success
  cases success
  exact (later_mergeRows merged).trans (later_setProgress u read _)

theorem later_acceptRunnerReply {peer : BodyId} {published : Published} {v : Option Job}
    (success : acceptRunnerReply c s peer published = .ok (t, v)) : s.Later reading t := by
  unfold acceptRunnerReply at success
  rw [bind_eq_ok] at success
  obtain ⟨⟨⟩, -, success⟩ := success
  dsimp only at success
  rw [refuseIf_bind_eq_ok] at success
  obtain ⟨-, success⟩ := success
  split at success
  · cases success
  split at success
  · cases success
    exact .refl _
  rw [refuseIf_bind_eq_ok] at success
  obtain ⟨-, success⟩ := success
  rw [bind_eq_ok] at success
  obtain ⟨⟨u, changed⟩, merged, success⟩ := success
  have first : s.Later reading u := later_ingest merged
  dsimp only at success
  split_ifs at success
  · cases success
    exact first
  · cases success
    exact (first.trans (.receipt u _)).trans (.setJob _ _)
  · cases success
    exact first.trans (.setJob _ _)

theorem later_bindAdmission {cert : Certificate} (success : bindAdmission c s cert = .ok t) : s.Later reading t := by
  obtain ⟨-, u, added, same⟩ := bindAdmission_eq_ok success
  have entered : s.Later reading u := by
    rcases ensureEntry_eq_ok added with ⟨-, rfl⟩ | ⟨-, room, rfl⟩
    · exact .refl u
    · exact .of_log (Store.advances_stamp room rfl rfl rfl) rfl rfl rfl rfl
  rw [same]
  exact entered.trans (.of_history rfl rfl rfl)

/-! ### Payloads -/

theorem later_normalizeJob (s : Store) (job : Job) : s.Later reading (normalizeJob s job).1 := by
  rw [normalizeJob]
  split
  · exact .refl s
  split
  · exact .refl s
  next entry found =>
  split_ifs
  · exact .refl s
  · dsimp only
    split_ifs
    · exact .receipt s _
    · exact .refl s
  · exact .of_log (Store.advances_replace found rfl rfl rfl rfl) rfl rfl rfl rfl
  · exact .refl s

theorem later_normalizeJobs (s : Store) (jobs : List Job) : s.Later reading (normalizeJobs s jobs).1 := by
  induction jobs generalizing s with
  | nil => exact .refl s
  | cons job rest ih => exact (later_normalizeJob s job).trans (ih _)

theorem later_normalizeOutput (s : Store) : s.Later reading (normalizeOutput s) := by
  have dropped : s.Later reading { s with history := { s.history with
      entries := s.history.entries.mapValues (fun key entry =>
        if s.historyPruned.contains key then { entry with output := none } else entry) } } := by
    refine .of_log (.of_eq rfl (funext (fun key => ?_))) rfl rfl rfl rfl
    change (OrdMap.get? _ key).map _ = (s.history.entries.get? key).map _
    rw [OrdMap.get?_mapValues, Option.map_map]
    congr 1
    funext entry
    dsimp only [Function.comp]
    split_ifs <;> rfl
  exact (dropped.trans (later_normalizeJobs _ s.jobs)).trans (.of_history rfl rfl rfl)

end History

namespace Storage

variable {reading : String → Prop} {s t : Store}

theorem later_clearLocal {id key : String} (success : clearLocal s id = .ok (t, key)) : s.Later reading t := by
  rw [clearLocal] at success
  split at success
  · cases success
  split at success
  · cases success
  cases success
  exact (Store.Later.receipt s id).trans (.of_history rfl rfl rfl)

/-- An entry without its replica is stamped at the next time, if it is there. -/
theorem later_drop {key : String} (room : s.history.clock.toNat + 1 < 2 ^ 64) : s.Later reading { s with
    history := { s.history with
      clock := s.history.clock + 1
      entries := s.history.entries.adjust key (fun e => { e with output := none, change := s.history.clock + 1 }) }
    historyPruned := s.historyPruned.insert key () } := by
  refine ⟨?_, fun _ => rfl, fun _ _ => .inl rfl, fun other there => ?_, fun _ there => there⟩
  · cases found : s.history.entries.get? key with
    | none =>
      rw [OrdMap.adjust_of_none _ found]
      exact ⟨(Store.lt_clock_succ room).le, fun _ there => there, fun _ _ here => .inl here,
        fun _ _ _ _ here _ written _ _ => absurd here written⟩
    | some entry =>
      rw [OrdMap.adjust_of_some _ found]
      exact Store.advances_stamp room rfl rfl rfl
  · rw [OrdMap.contains_insert, there, Bool.or_true]

theorem later_removePayload {payload : Payload} (success : removePayload s payload = .ok t) : s.Later reading t := by
  unfold removePayload at success
  cases payload with
  | «local» id =>
    dsimp only at success
    rw [bind_eq_ok] at success
    obtain ⟨⟨u, key⟩, cleared, success⟩ := success
    dsimp only at success
    rw [bind_eq_ok] at success
    obtain ⟨⟨change, v⟩, stamped, success⟩ := success
    obtain ⟨room, rfl, rfl⟩ := History.nextChange_eq_ok stamped
    cases success
    exact (later_clearLocal cleared).trans (later_drop room)
  | replica key =>
    dsimp only at success
    rw [ok_bind] at success
    dsimp only at success
    rw [bind_eq_ok] at success
    obtain ⟨⟨change, v⟩, stamped, success⟩ := success
    obtain ⟨room, rfl, rfl⟩ := History.nextChange_eq_ok stamped
    cases success
    exact later_drop room

theorem later_evict {all : List Candidate} (success : evict s all = .ok t) : s.Later reading t := by
  induction all generalizing s with
  | nil =>
    cases success
    exact .refl _
  | cons candidate rest ih =>
    rw [evict] at success
    split_ifs at success
    · cases success
      exact .refl _
    · rw [bind_eq_ok] at success
      obtain ⟨u, removed, success⟩ := success
      exact (later_removePayload removed).trans (ih success)

theorem later_prune {keep removed : ℕ} (success : prune s keep = .ok (t, removed)) : s.Later reading t := by
  rw [prune, bind_eq_ok] at success
  obtain ⟨u, folded, success⟩ := success
  cases success
  exact List.foldlM_except_rel (R := Store.Later reading) Store.Later.refl (fun _ _ _ => Store.Later.trans)
    (fun _ _ _ _ => later_removePayload) folded

end Storage

/-! ### Updates -/

namespace Store

variable {c : Crypto} {Allowed : Store → Event → Prop} {reading : String → Prop} {s t next : Store}

theorem later_admitEdit {env : Exec.Surroundings} {origin : BodyId} {argv : List String} {id : String}
    {cert : Option Certificate} {v : Job × Option Grant}
    (success : Exec.admitEdit c env origin argv id cert s = .ok (t, v)) : s.Later reading t := by
  rw [Exec.admitEdit, bind_eq_ok] at success
  obtain ⟨u, bound, success⟩ := success
  have first : s.Later reading u := by
    cases cert with
    | none =>
      cases bound
      exact .refl s
    | some b => exact History.later_bindAdmission bound
  dsimp only at success
  split at success
  · rw [refuseIf_bind_eq_ok] at success
    obtain ⟨-, success⟩ := success
    cases success
    exact first.trans (.of_history rfl rfl rfl)
  · rw [bind_eq_ok] at success
    obtain ⟨w, asked, success⟩ := success
    cases success
    exact (first.trans (.of_work (Exec.askOwner_settings asked).1)).trans (.setJob _ _)

/-- An edit merges a page of a machine, or leaves what was read of it. -/
theorem Edits.later (edits : s.Edits c Allowed t) : s.Later reading t ∨ ∃ sync : Sync, ∃ page,
    ¬reading sync.peer.name ∧ History.mergePage c s sync.peer sync.progress page = .ok t ∧
      Daemon.isCurrent s sync = true ∧ History.checkPage sync.progress page = .ok () ∧
      Allowed s (.mergePage sync page) := by
  cases edits with
  | settings work trust => exact .inl (.of_work work)
  | renamed work key alone left named idle => exact .inl (.of_work work)
  | paired peer ran =>
    rw [(Pair.updatePeer_eq_ok ran).2.1]
    exact .inl (.of_history rfl rfl rfl)
  | admitted env origin argv id cert v initialized named permitted checked ran => exact .inl (later_admitEdit ran)
  | enqueued job retryOf queued silent fresh ran =>
    cases ran
    rw [History.linkRetry_frame]
    exact .inl (.of_history rfl rfl rfl)
  | answered | undelivered => exact .inl (.setJob s _)
  | replied peer published v ran other => exact .inl (History.later_acceptRunnerReply ran)
  | merged peer progress page known ran based =>
    obtain ⟨sync, rfl, rfl, current, checked, permitted⟩ := based
    by_cases read : reading sync.peer.name
    · exact .inl (History.later_mergePage read ran)
    · exact .inr ⟨sync, page, read, ran, current, checked, permitted⟩
  | pruned keep removed ran => exact .inl (Storage.later_prune ran)
  | refusedLocally id e ran =>
    rw [Dispatch.localError] at ran
    split at ran
    · cases ran
    · split_ifs at ran <;> cases ran <;> exact .inl (.of_history rfl rfl rfl)
  | finished grant run outcome going tool ran =>
    rw [Exec.finishEdit] at ran
    split at ran
    · cases ran
    · cases ran
      exact .inl (.of_history rfl rfl rfl)
  | recovered => exact .inl (.of_history rfl rfl rfl)

/-- What an update does after its edit. -/
theorem later_of_edited {edited : Store} {epochId : Result String} {refreshed : Store}
    (published : History.refreshOwned c epochId edited (some s) = .ok refreshed)
    (fits : Storage.prepare (History.normalizeOutput { refreshed with formatVersion := formatVersionNow }) s = .ok next) :
    edited.Later reading next := by
  have versioned : refreshed.Later reading { refreshed with formatVersion := formatVersionNow } :=
    .of_history rfl rfl rfl
  exact (((History.later_refreshOwned published).trans versioned).trans (History.later_normalizeOutput _)).trans
    (Storage.later_evict (Storage.prepare_eq_ok fits).2.1)

theorem Writes.later (writes : s.Writes c Allowed next) : s.Later (fun _ => True) next := by
  obtain ⟨-, edited, refreshed, epochId, edits, published, fits⟩ := writes
  rcases (edits.later : s.Later (fun _ => True) edited ∨ _) with kept | ⟨sync, page, read, -⟩
  · exact kept.trans (later_of_edited published fits)
  · exact absurd trivial read

/-- What is noted in memory leaves everything recorded as it is. -/
theorem Notes.later (notes : s.Notes t) : s.Later (fun _ => True) t ∧ t.Later (fun _ => True) s := by
  cases notes with
  | contact peer p =>
    exact ⟨History.later_setProgress s trivial p,
      ⟨.of_eq rfl rfl, fun _ => rfl, fun _ unread => absurd trivial unread, fun _ there => there, fun _ there => there⟩⟩
  | gaveUp | recoveryFailed => exact ⟨.of_history rfl rfl rfl, .of_history rfl rfl rfl⟩

theorem Completes.later (completes : s.Completes t) : s.Later reading t := by
  cases completes <;> exact .of_history rfl rfl rfl

theorem later_reloaded (s : Store) : s.Later (fun _ => True) s.reloaded ∧ s.reloaded.Later (fun _ => True) s :=
  ⟨⟨.of_eq rfl rfl, fun _ => rfl, fun _ unread => absurd trivial unread, fun _ there => there, fun _ there => there⟩,
    ⟨.of_eq rfl rfl, fun _ => rfl, fun _ unread => absurd trivial unread, fun _ there => there, fun _ there => there⟩⟩

end Store

/-! ### Runs -/

/-- A relation along which the memory of a machine moves, whatever is done to it. -/
structure Forward (c : Crypto) (Allowed : Store → Event → Prop) (R : Store → Store → Prop) : Prop where
  refl : ∀ s, R s s
  trans : ∀ s t u, R s t → R t u → R s u
  write : ∀ s next, s.Begun → s.Writes c Allowed next → R s next
  note : ∀ s t, s.Notes t → R s t ∧ R t s
  complete : ∀ s t, s.Completes t → R s t
  reload : ∀ s : Store, R s s.reloaded ∧ R s.reloaded s
  stop : ∀ s e, R s { s with writeError := e } ∧ R { s with writeError := e } s

namespace Forward

variable {c : Crypto} {Allowed : Store → Event → Prop} {R : Store → Store → Prop} {cell cell' : DurableCell Image}

/-- No content of the file is behind memory. -/
def Abreast (R : Store → Store → Prop) (cell : DurableCell Image) : Prop :=
  R cell.mem.store cell.file.store ∧ ∀ old, cell.replaced = some old → R cell.mem.store old.store

theorem Abreast.found (abreast : Abreast R cell) (reverted : Bool) : R cell.mem.store (cell.found reverted).store := by
  have everywhere : DurableCell.Everywhere (Image.Being (R cell.mem.store)) { cell with mem := cell.file } :=
    ⟨abreast.1, abreast.1, abreast.2⟩
  exact everywhere.found reverted

/-- Replacing the file by a state that memory leads to. -/
theorem replace (forward : Forward c Allowed R) (abreast : Abreast R cell) {next stopped : Image}
    (leads : R cell.mem.store next.store) (kept : R cell.mem.store stopped.store)
    (back : R stopped.store cell.mem.store) (outcome : DurableCell.Outcome) :
    Abreast R (cell.replace next stopped outcome) ∧ R cell.mem.store (cell.replace next stopped outcome).mem.store := by
  have onward {x : Store} (there : R cell.mem.store x) : R stopped.store x := forward.trans _ _ _ back there
  cases outcome with
  | saved => exact ⟨⟨forward.refl _, fun old absent => by cases absent⟩, leads⟩
  | failedBefore => exact ⟨⟨onward abreast.1, fun old same => onward (abreast.2 old same)⟩, kept⟩
  | failedAfter =>
    refine ⟨⟨onward leads, fun old same => ?_⟩, kept⟩
    obtain rfl : cell.file = old := Option.some.inj same
    exact onward abreast.1

theorem stopped (forward : Forward c Allowed R) (s : Store) (fault : Option Fault) :
    R s (s.stoppedBy fault) ∧ R (s.stoppedBy fault) s := by
  cases fault with
  | none => exact ⟨forward.refl s, forward.refl s⟩
  | some fault => exact forward.stop s _

theorem turn (forward : Forward c Allowed R) (begun : cell.mem.store.Begun) (abreast : Abreast R cell)
    (turn : Daemon.Turn c Allowed cell cell') : Abreast R cell' ∧ R cell.mem.store cell'.mem.store := by
  cases turn with
  | running here =>
    cases here with
    | write next acts fault current writes =>
      have kept := forward.stopped cell.mem.store fault
      exact forward.replace abreast (forward.write _ next begun writes) kept.1 kept.2 _
    | note f notes =>
      obtain ⟨ahead, back⟩ := forward.note _ _ notes
      exact ⟨⟨forward.trans _ _ _ back abreast.1, fun old same => forward.trans _ _ _ back (abreast.2 old same)⟩, ahead⟩
  | complete next fault current completes =>
    exact forward.replace abreast (forward.complete _ next completes) (forward.refl _) (forward.refl _) _
  | reopen reverted =>
    have found := abreast.found reverted
    obtain ⟨loaded, back⟩ := forward.reload (cell.found reverted).store
    exact ⟨⟨back, fun old absent => by cases absent⟩, forward.trans _ _ _ found loaded⟩

theorem begun (c : Crypto) (Allowed : Store → Event → Prop) : Sustained c Allowed Store.Begun where
  write _ _ writes begun := writes.begun begun
  note _ _ notes begun := notes.thinned.begun begun
  complete _ _ completes begun := completes.begun begun
  reload s begun := (Store.thinned_reloaded s).begun begun
  stop s e begun := (Store.thinned_stopped s e).begun begun

theorem turns (forward : Forward c Allowed R) (turns : Daemon.Turns c Allowed cell cell')
    (begun : DurableCell.Everywhere (Image.Being Store.Begun) cell) (abreast : Abreast R cell) :
    Abreast R cell' ∧ R cell.mem.store cell'.mem.store := by
  induction turns with
  | refl => exact ⟨abreast, forward.refl _⟩
  | tail before last ih =>
    obtain ⟨still, there⟩ := ih
    obtain ⟨now, onward⟩ := forward.turn (Daemon.everywhere_turns (Forward.begun c Allowed) before begun).1 still last
    exact ⟨now, forward.trans _ _ _ there onward⟩

/-- A machine of which no content of the file is behind memory. -/
structure Held (c : Crypto) (R : Store → Store → Prop) (d : Daemon) : Prop where
  inv : Daemon.Inv c d
  ready : d.Ready
  begun : DurableCell.Everywhere (Image.Being Store.Begun) d.cell
  abreast : Abreast R d.cell

theorem held_installed (forward : Forward c Allowed R) {file : Store} (inv : Daemon.Inv c (Daemon.installed file))
    (begun : file.Begun) : Held c R (Daemon.installed file) where
  inv := inv
  ready := Daemon.ready_installed file
  begun := ⟨begun, begun, fun old absent => by cases absent⟩
  abreast := ⟨forward.refl _, fun old absent => by cases absent⟩

variable {d : Daemon}

/-- Memory moves along the relation, and no restart brings back a state from before. -/
theorem run (forward : Forward c Allowed R) (held : Held c R d) {events : List (Env × Event)}
    (permits : d.PermitsAll c Allowed events) :
    Held c R (d.run c events) ∧ DurableCell.Everywhere (Image.Being (R d.store)) (d.run c events).cell := by
  obtain ⟨turns, ready⟩ := Daemon.turns_run held.inv held.ready events permits
  obtain ⟨abreast, there⟩ := forward.turns turns held.begun held.abreast
  refine ⟨⟨Daemon.inv_run held.inv events, ready, ?_, abreast⟩, there, ?_, fun old same => ?_⟩
  · exact Daemon.everywhere_turns (Forward.begun c Allowed) turns held.begun
  · exact forward.trans _ _ _ there abreast.1
  · exact forward.trans _ _ _ there (abreast.2 old same)

end Forward

end Clix
