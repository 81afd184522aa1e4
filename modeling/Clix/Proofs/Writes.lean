import Clix.Proofs.Thinned

/-! # What is written, edit by edit

`Store.Edits` lists, once, how the edit of an update may change a store, and `Turn` how the saved state of a machine
may change in one critical section. A property of stores that each of them keeps holds of everything a machine has in
memory or may find on disk; and what a durable state has, every later state has.
-/

/-! ## Onward from a durable content -/

namespace DurableCell

variable {σ : Type} {P : σ → Prop} {cell : DurableCell σ}

/-- The content of the file that is certain: what a crash may bring back, if there is such. -/
def certain (cell : DurableCell σ) : σ := cell.replaced.getD cell.file

/-- What the certain content has, every content has. -/
def Onward (P : σ → Prop) (cell : DurableCell σ) : Prop := P cell.certain → Everywhere P cell

theorem Everywhere.certain (holds : Everywhere P cell) : P cell.certain := by
  rw [DurableCell.certain]
  cases same : cell.replaced with
  | none => exact holds.2.1
  | some old => exact holds.2.2 old same

theorem Onward.replace (onward : Onward P cell) (current : cell.replaced = none) {next stopped : σ}
    (keeps : P cell.mem → P next) (back : P cell.mem → P stopped) (outcome : Outcome) :
    Onward P (cell.replace next stopped outcome) := by
  have same : cell.certain = cell.file := by rw [certain, current, Option.getD_none]
  cases outcome with
  | saved => exact fun new => ⟨new, new, nofun⟩
  | failedBefore =>
    intro old
    obtain ⟨mem, rest⟩ := onward old
    exact ⟨back mem, rest⟩
  | failedAfter =>
    intro (old : P cell.file)
    obtain ⟨mem, file, -⟩ := onward (same ▸ old)
    refine ⟨back mem, keeps mem, fun other here => ?_⟩
    obtain rfl : cell.file = other := Option.some.inj here
    exact old

theorem Onward.tweak (onward : Onward P cell) {f : σ → σ} (keeps : P cell.mem → P (f cell.mem)) :
    Onward P (cell.tweak f) := by
  intro old
  obtain ⟨mem, rest⟩ := onward old
  exact ⟨keeps mem, rest⟩

theorem Onward.reopen {load : σ → σ} (keeps : ∀ x, P x → P (load x)) (reverted : Bool) :
    Onward P (cell.reopen load reverted) := by
  intro (found : P (cell.found reverted))
  exact ⟨keeps _ found, found, nofun⟩

end DurableCell

namespace Clix

open Except DurableCell

/-- Jobs, bindings and everything published are the same. -/
def Store.SameWork (s t : Store) : Prop :=
  t = { s with
    bodyName := t.bodyName
    ownerSk := t.ownerSk
    peers := t.peers
    grants := t.grants
    requests := t.requests
    outboundRequests := t.outboundRequests
    requestReceipts := t.requestReceipts
    pinIndex := t.pinIndex
    pinEnabled := t.pinEnabled }

namespace Store.SameWork

theorem refl (s : Store) : s.SameWork s := rfl

variable {s t : Store}

theorem jobs (same : s.SameWork t) : t.jobs = s.jobs := by rw [same]
theorem history (same : s.SameWork t) : t.history = s.history := by rw [same]
theorem jobCertificates (same : s.SameWork t) : t.jobCertificates = s.jobCertificates := by rw [same]
theorem legacyJobs (same : s.SameWork t) : t.legacyJobs = s.legacyJobs := by rw [same]
theorem retryLinks (same : s.SameWork t) : t.retryLinks = s.retryLinks := by rw [same]
theorem outputPruned (same : s.SameWork t) : t.outputPruned = s.outputPruned := by rw [same]
theorem historyPruned (same : s.SameWork t) : t.historyPruned = s.historyPruned := by rw [same]
theorem writeError (same : s.SameWork t) : t.writeError = s.writeError := by rw [same]

end Store.SameWork

/-- What an edit makes of a store. Unsigned answers, certificates and pages come with events that are `Allowed`. -/
inductive Store.Edits (c : Crypto) (Allowed : Store → Event → Prop) (s : Store) : Store → Prop
  | settings {t : Store} (work : s.SameWork t) (trust : s.SameTrust t) : Edits c Allowed s t
  | renamed {t : Store} (work : s.SameWork t) (key : t.ownerSk = s.ownerSk) (alone : s.peers = [])
      (left : t.peers = []) (named : Pair.isName t.bodyName = true)
      (idle : Pair.isName s.bodyName = false ∨ s.jobs = []) : Edits c Allowed s t
  | paired {t : Store} (peer : Peer) (ran : Pair.updatePeer c s peer = .ok t) : Edits c Allowed s t
  | admitted {t : Store} (env : Exec.Surroundings) (origin : BodyId) (argv : List String) (id : String)
      (cert : Option Certificate) (v : Job × Option Grant) (begun : s.history.initialized = true) (named : ∀ b, cert = some b → b.invocation.id = id)
      (permitted : ∀ b, cert = some b → ∃ peer, Allowed s (.execCertified peer b))
      (checked : Exec.precheck c s origin argv id cert = .ok none)
      (ran : Exec.admitEdit c env origin argv id cert s = .ok (t, v)) : Edits c Allowed s t
  | enqueued {t : Store} (job : Job) (retryOf : Option String) (queued : job.status = .queued)
      (silent : job.stdout = [] ∧ job.stderr = []) (fresh : s.job? job.id = none)
      (ran : Dispatch.appendEdit job retryOf s = .ok (t, ())) : Edits c Allowed s t
  | answered (peer : BodyId) (incoming job : Job) (dispatch : Dispatch) (permitted : Allowed s (.answer dispatch incoming))
      (ran : Dispatch.peerResult s peer incoming = .ok (some job)) (other : peer.name ≠ s.bodyName) :
      Edits c Allowed s (s.setJob job)
  | undelivered (id : String) (e : ClixError) (job : Job) (ran : Dispatch.undelivered s id e = some job)
      (other : s.desk.Foreign id) : Edits c Allowed s (s.setJob job)
  | replied {t : Store} (peer : BodyId) (published : Published) (v : Option Job)
      (ran : History.acceptRunnerReply c s peer published = .ok (t, v)) (other : peer.name ≠ s.bodyName) :
      Edits c Allowed s t
  | merged {t : Store} (peer : BodyId) (progress : Progress) (page : Page) (known : ∃ p ∈ s.peers, p.name = peer)
      (ran : History.mergePage c s peer progress page = .ok t)
      (based : ∃ sync : Sync, sync.peer = peer ∧ sync.progress = progress ∧ Daemon.isCurrent s sync = true ∧
        History.checkPage progress page = .ok () ∧ Allowed s (.mergePage sync page)) : Edits c Allowed s t
  | pruned {t : Store} (keep removed : ℕ) (ran : Storage.prune s keep = .ok (t, removed)) : Edits c Allowed s t
  | refusedLocally {t : Store} (id : String) (e : ClixError) (ran : Dispatch.localError id e s = .ok (t, ())) :
      Edits c Allowed s t
  | finished {t : Store} (grant : Grant) (run : Job) (outcome : Exec.RunOutcome) (going : s.desk.Running run.row)
      (tool : run.argv.head? = some grant.tool) (ran : Exec.finishEdit grant run outcome s = .ok (t, ())) :
      Edits c Allowed s t
  | recovered : Edits c Allowed s (Store.markInterrupted Store.recoveryReason s)

/-- What an update may save. -/
structure Store.Writes (c : Crypto) (Allowed : Store → Event → Prop) (s next : Store) : Prop where
  writable : s.writeError = none
  staged : ∃ edited refreshed, ∃ epochId, s.Edits c Allowed edited ∧
    History.refreshOwned c epochId edited (some s) = .ok refreshed ∧
    Storage.prepare (History.normalizeOutput { refreshed with formatVersion := Store.formatVersionNow }) s = .ok next

theorem Store.writes_of_stage {c : Crypto} {Allowed : Store → Event → Prop} {α : Type} {epochId : Result String}
    {s next : Store} {edit : Store → Result (Store × α)} {value : α}
    (staged : Store.stage c epochId s edit = .ok (next, value))
    (edits : s.writeError = none → ∀ edited value, edit s = .ok (edited, value) → s.Edits c Allowed edited) :
    s.Writes c Allowed next := by
  obtain ⟨writable, edited, refreshed, ran, published, fits, -⟩ := Store.stage_eq_ok staged
  exact ⟨writable, edited, refreshed, epochId, edits writable edited value ran, published, fits⟩

/-- The history of a saved state has begun. -/
theorem Store.Writes.initialized {c : Crypto} {Allowed : Store → Event → Prop} {s next : Store}
    (writes : s.Writes c Allowed next) : next.history.initialized = true := by
  obtain ⟨-, edited, refreshed, epochId, -, published, fits⟩ := writes
  have begun : refreshed.history.initialized = true := by
    rw [History.refreshOwned] at published
    dsimp only at published
    rw [bind_eq_ok] at published
    obtain ⟨u, -, published⟩ := published
    rw [bind_eq_ok] at published
    obtain ⟨v, -, published⟩ := published
    cases published
    rfl
  have normal := History.normalizeOutput_thinned { refreshed with formatVersion := Store.formatVersionNow }
  exact (Storage.evict_thinned (Storage.prepare_eq_ok fits).2.1).initialized (normal.initialized begun)

/-- Progress that has read as far, with other diagnostics. -/
structure Progress.SamePlace (p q : Progress) : Prop where
  epoch : p.epoch = q.epoch
  cursor : p.cursor = q.cursor
  unknownAuthors : p.unknownAuthors = q.unknownAuthors

/-- What changes in memory without being saved. -/
inductive Store.Notes (s : Store) : Store → Prop
  | contact (peer : BodyId) (p : Progress) (same : p.SamePlace (History.progress s peer)) :
      Notes s (History.setProgress s peer p)
  | gaveUp (id : String) (e : ClixError) (allowed : s.desk.Allows (.lose id (Exec.unsavedReason e))) :
      Notes s (Exec.setStatus s id (Exec.unsavedStatus e))
  | recoveryFailed (e : ClixError) : Notes s (s.recoveryFailed e)

theorem Store.Notes.writeError {s t : Store} (notes : s.Notes t) (writable : t.writeError = none) :
    s.writeError = none := by
  cases notes with
  | contact | gaveUp => exact writable
  | recoveryFailed e => cases writable

theorem Store.Notes.initialized {s t : Store} (notes : s.Notes t) :
    t.history.initialized = s.history.initialized := by
  cases notes <;> rfl

/-- What opening completes. -/
inductive Store.Completes (s : Store) : Store → Prop
  | name (hostname : String) (unnamed : Daemon.isUnnamed s = true) :
      Completes s { s with bodyName := Pair.sanitizeName hostname }
  | key (seed : Bytes) (keyless : s.ownerSk.isEmpty = true) : Completes s { s with ownerSk := seed }

namespace Daemon

/-- How the saved state changes in one section of a machine that runs. -/
inductive Section (c : Crypto) (Allowed : Store → Event → Prop) (cell : DurableCell Image) : DurableCell Image → Prop
  | write (next : Store) (acts : List Act) (fault : Option Fault) (current : cell.replaced = none)
      (writes : cell.mem.store.Writes c Allowed next) :
      Section c Allowed cell
        (cell.replace ⟨next, acts⟩ ⟨cell.mem.store.stoppedBy fault, cell.mem.acts⟩ (outcome fault))
  | note (f : Store → Store) (notes : cell.mem.store.Notes (f cell.mem.store)) :
      Section c Allowed cell (cell.tweak (fun image => { image with store := f image.store }))

/-- How it changes, also while the machine is opened. -/
inductive Turn (c : Crypto) (Allowed : Store → Event → Prop) (cell : DurableCell Image) : DurableCell Image → Prop
  | running {cell' : DurableCell Image} (here : Section c Allowed cell cell') : Turn c Allowed cell cell'
  | complete (next : Store) (fault : Option Fault) (current : cell.replaced = none)
      (completes : cell.mem.store.Completes next) :
      Turn c Allowed cell (cell.replace ⟨next, cell.mem.acts⟩ cell.mem (outcome fault))
  | reopen (reverted : Bool) :
      Turn c Allowed cell (cell.reopen (fun image => { image with store := image.store.reloaded }) reverted)

end Daemon

/-- A property that everything done to a store keeps. -/
structure Sustained (c : Crypto) (Allowed : Store → Event → Prop) (P : Store → Prop) : Prop where
  write : ∀ s next, s.Writes c Allowed next → P s → P next
  note : ∀ s t, s.Notes t → P s → P t
  complete : ∀ s t, s.Completes t → P s → P t
  reload : ∀ s, P s → P s.reloaded
  stop : ∀ s e, P s → P { s with writeError := e }

namespace Sustained

variable {c : Crypto} {Allowed : Store → Event → Prop} {P : Store → Prop} {cell cell' : DurableCell Image}

theorem stopped (sustained : Sustained c Allowed P) (s : Store) (fault : Option Fault) (holds : P s) :
    P (s.stoppedBy fault) := by
  cases fault with
  | none => exact holds
  | some fault => exact sustained.stop s _ holds

theorem everywhere (sustained : Sustained c Allowed P) (turn : Daemon.Turn c Allowed cell cell')
    (holds : Everywhere (Image.Being P) cell) : Everywhere (Image.Being P) cell' := by
  cases turn with
  | running here =>
    cases here with
    | write next acts fault current writes =>
      have new : Image.Being P ⟨next, acts⟩ := sustained.write _ next writes holds.1
      have kept : Image.Being P ⟨cell.mem.store.stoppedBy fault, cell.mem.acts⟩ := sustained.stopped _ fault holds.1
      exact holds.replace new kept _
    | note f notes => exact holds.tweak (fun here => sustained.note _ _ notes here)
  | complete next fault current completes =>
    have new : Image.Being P ⟨next, cell.mem.acts⟩ := sustained.complete _ next completes holds.1
    exact holds.replace new holds.1 _
  | reopen reverted => exact holds.reopen reverted (fun image here => sustained.reload image.store here)

theorem onward (sustained : Sustained c Allowed P) (turn : Daemon.Turn c Allowed cell cell')
    (holds : Onward (Image.Being P) cell) : Onward (Image.Being P) cell' := by
  cases turn with
  | running here =>
    cases here with
    | write next acts fault current writes =>
      refine holds.replace current (fun here => ?_) (fun here => ?_) _
      · exact sustained.write _ next writes here
      · exact sustained.stopped _ fault here
    | note f notes => exact holds.tweak (fun here => sustained.note _ _ notes here)
  | complete next fault current completes =>
    exact holds.replace current (fun here => sustained.complete _ next completes here) (fun here => here) _
  | reopen reverted => exact Onward.reopen (fun image here => sustained.reload image.store here) reverted

end Sustained

namespace Daemon

variable {c : Crypto} {Allowed : Store → Event → Prop} {P : Store → Prop} {d : Daemon} {env : Env}

/-- The sections of one step of a machine that runs. -/
abbrev Sections (c : Crypto) (Allowed : Store → Event → Prop) : DurableCell Image → DurableCell Image → Prop :=
  Relation.ReflTransGen (Section c Allowed)

/-- The turns of one step. -/
abbrev Turns (c : Crypto) (Allowed : Store → Event → Prop) : DurableCell Image → DurableCell Image → Prop :=
  Relation.ReflTransGen (Turn c Allowed)

theorem turns_of_sections {cell cell' : DurableCell Image} (sections : Sections c Allowed cell cell') :
    Turns c Allowed cell cell' := by
  induction sections with
  | refl => exact .refl
  | tail _ here ih => exact ih.tail (.running here)

theorem everywhere_turns {cell cell' : DurableCell Image} (sustained : Sustained c Allowed P)
    (turns : Turns c Allowed cell cell') (holds : Everywhere (Image.Being P) cell) : Everywhere (Image.Being P) cell' := by
  induction turns with
  | refl => exact holds
  | tail _ turn ih => exact sustained.everywhere turn ih

theorem onward_turns {cell cell' : DurableCell Image} (sustained : Sustained c Allowed P)
    (turns : Turns c Allowed cell cell') (holds : Onward (Image.Being P) cell) : Onward (Image.Being P) cell' := by
  induction turns with
  | refl => exact holds
  | tail _ turn ih => exact sustained.onward turn ih

/-- The history of a cell that may save has begun, and there is nothing that a crash could undo. -/
def Steady (cell : DurableCell Image) : Prop :=
  cell.mem.store.writeError = none → cell.replaced = none ∧ cell.mem.store.history.initialized = true

def Ready (d : Daemon) : Prop := d.live = true → Steady d.cell

/-! ### The edits of the updates -/

theorem Steady.current {cell : DurableCell Image} (steady : Steady cell) (writable : cell.mem.store.writeError = none) :
    cell.replaced = none := (steady writable).1

/-- An update whose edit is one of the listed ones, in a machine that may save. -/
theorem sections_update_of {α : Type} (current : d.store.writeError = none → d.cell.replaced = none)
    (epochId : Result String) (fault : Option Fault) (edit : Store → Result (Store × α)) (acts : α → List Act)
    (edits : d.store.writeError = none → ∀ edited value, edit d.store = .ok (edited, value) →
      d.store.Edits c Allowed edited) :
    Sections c Allowed d.cell (d.update c epochId fault edit acts).1.cell := by
  rcases update_cases (d := d) (c := c) epochId fault edit acts with ⟨e, same⟩ | ⟨next, value, staged, same⟩
  · rw [same]
  · rw [same]
    have writes := Store.writes_of_stage staged edits
    exact .single (.write next _ fault (current writes.writable) writes)

theorem sections_update {α : Type} (current : d.store.writeError = none → d.cell.replaced = none)
    (epochId : Result String) (fault : Option Fault) (edit : Store → Result (Store × α)) (acts : α → List Act)
    (edits : ∀ edited value, edit d.store = .ok (edited, value) → d.store.Edits c Allowed edited) :
    Sections c Allowed d.cell (d.update c epochId fault edit acts).1.cell :=
  sections_update_of current epochId fault edit acts (fun _ => edits)

end Daemon

namespace Grant

theorem addWithArgs_settings {fs : FileSystem} {s t : Store} {tool : String} {allow : List String} {once : Bool}
    {expiry : Option SystemTime} {schedule : Option Schedule} {args : Option (List (List String))} {g : Grant}
    (success : addWithArgs fs s tool allow once expiry schedule args = .ok (t, g)) : s.SameWork t ∧ s.SameTrust t := by
  rw [addWithArgs, bind_eq_ok] at success
  obtain ⟨built, -, success⟩ := success
  cases success
  exact ⟨rfl, rfl, rfl, rfl⟩

theorem remove_settings {fs : FileSystem} {s t : Store} {tool : String} {g : Grant}
    (success : remove fs s tool = .ok (t, g)) : s.SameWork t ∧ s.SameTrust t := by
  rw [remove, bind_eq_ok] at success
  obtain ⟨target, -, success⟩ := success
  split at success
  · cases success
  · cases success
    exact ⟨rfl, rfl, rfl, rfl⟩

end Grant

namespace Request

variable {s t : Store}

theorem upsert_settings {newId : Result String} {origin : BodyId} {tool : String} {r : Request}
    (success : upsert newId s origin tool = .ok (t, r)) : s.SameWork t ∧ s.SameTrust t := by
  unfold upsert at success
  rw [bind_eq_ok] at success
  obtain ⟨⟨⟩, -, success⟩ := success
  dsimp only at success
  split at success
  · cases success
    exact ⟨rfl, rfl, rfl, rfl⟩
  · rw [bind_eq_ok] at success
    obtain ⟨id, -, success⟩ := success
    cases success
    exact ⟨rfl, rfl, rfl, rfl⟩

theorem receive_settings {newId : Result String} {origin : BodyId} {tool : String} {delivery : Option String}
    {r : Request} (success : receive newId s origin tool delivery = .ok (t, r)) : s.SameWork t ∧ s.SameTrust t := by
  unfold receive at success
  rw [bind_eq_ok] at success
  obtain ⟨⟨⟩, -, success⟩ := success
  dsimp only at success
  split at success
  · exact upsert_settings success
  · rw [bind_eq_ok] at success
    obtain ⟨⟨⟩, -, success⟩ := success
    split at success
    · rw [refuseIf_bind_eq_ok] at success
      cases success.2
      exact ⟨.refl _, .refl _⟩
    · rw [bind_eq_ok] at success
      obtain ⟨⟨u, made⟩, recorded, success⟩ := success
      cases success
      obtain ⟨work, trust⟩ := upsert_settings recorded
      refine ⟨?_, trust.bodyName, trust.ownerSk, trust.peers⟩
      unfold Store.SameWork at *
      dsimp only
      conv_lhs => rw [work]

theorem decide_settings {fs : FileSystem} {id : String} {decision : Decision} {g : Option Grant}
    (success : decide fs s id decision = .ok (t, g)) : s.SameWork t ∧ s.SameTrust t := by
  unfold decide at success
  split at success
  · cases success
  split at success
  · rw [bind_eq_ok] at success
    obtain ⟨allow, -, success⟩ := success
    rw [bind_eq_ok] at success
    obtain ⟨built, -, success⟩ := success
    rw [refuseIf_bind_eq_ok] at success
    cases success.2
    exact ⟨rfl, rfl, rfl, rfl⟩
  · cases success
    exact ⟨rfl, rfl, rfl, rfl⟩

end Request

namespace Daemon

variable {c : Crypto} {Allowed : Store → Event → Prop} {P : Store → Prop} {d : Daemon} {env : Env}

theorem sections_submit (steady : Steady d.cell) (env : Env) (requester : Requester) (origin : BodyId)
    (argv : List String) (id : String) (cert : Option Certificate) (named : ∀ b, cert = some b → b.invocation.id = id)
    (permitted : ∀ b, cert = some b → ∃ peer, Allowed d.store (.execCertified peer b)) :
    Sections c Allowed d.cell (d.submit c env requester origin argv id cert).1.cell := by
  unfold submit
  cases checked : Exec.precheck c d.store origin argv id cert with
  | error e => exact .refl
  | ok found =>
  cases found with
  | some job => exact .refl
  | none =>
  dsimp only
  have sections : Sections c Allowed d.cell _ := sections_update_of steady.current env.epochId env.fault
    (Exec.admitEdit c (d.surroundings env) origin argv id cert)
    (fun admitted => (admitted.2.map (Act.admitted id)).toList)
    (fun writable edited value ran => .admitted _ origin argv id cert value (steady writable).2 named permitted checked ran)
  generalize d.update c env.epochId env.fault _ _ = done at sections
  obtain ⟨after, e | ⟨job, _ | grant⟩⟩ := done <;> exact sections

theorem sections_attempt {α : Type} {dispatch : Dispatch} {done : Daemon × Result α}
    (sections : Sections c Allowed d.cell done.1.cell) : Sections c Allowed d.cell (attempt dispatch done).cell := by
  obtain ⟨after, e | value⟩ := done <;> exact sections

theorem sections_rename (steady : Steady d.cell) (env : Env) (name : Option String) :
    Sections c Allowed d.cell (d.rename c env name).cell := by
  unfold rename
  dsimp only
  split
  · exact .refl
  next checked =>
  refine sections_update steady.current _ _ _ _ (fun edited value ran => ?_)
  unfold renameEdit at ran
  dsimp only at ran
  rw [bind_eq_ok] at ran
  obtain ⟨⟨⟩, renamed, ran⟩ := ran
  cases ran
  unfold checkName at checked
  rw [bind_eq_ok] at checked
  obtain ⟨⟨⟩, named, checked⟩ := checked
  rw [bind_eq_ok] at checked
  obtain ⟨⟨⟩, -, checked⟩ := checked
  rw [refuseIf_eq_ok, not_and_or, not_not, not_not] at checked
  rw [Pair.validateName, refuseIf_eq_ok, Bool.not_eq_false] at named
  rcases checked with same | ⟨peers, jobs, grants⟩
  · refine .settings rfl ⟨same, rfl, rfl⟩
  · exact .renamed rfl rfl peers peers named (.inr jobs)

theorem sections_answer (sound : Sound c d) (steady : Steady d.cell) (env : Env) (dispatch : Dispatch)
    (incoming : Job) (permitted : Allowed d.store (.answer dispatch incoming)) :
    Sections c Allowed d.cell (d.answer c env dispatch incoming).cell := by
  unfold answer
  cases snapshot : dispatch.peer with
  | none => exact .refl
  | some peer =>
  dsimp only
  split_ifs with absent
  · exact .refl
  cases checked : Dispatch.peerResult d.store peer.name incoming with
  | error e => exact .refl
  | ok found =>
  cases found with
  | none => exact .refl
  | some job =>
    apply sections_attempt
    refine sections_update steady.current _ _ _ _ (fun edited value ran => ?_)
    rw [not_or, not_not] at absent
    cases ran
    exact .answered peer.name incoming job dispatch permitted checked
      (name_ne_of_knows sound.valid ((sound.dispatches dispatch absent.1).2 peer snapshot))

theorem sections_answerCertified (sound : Sound c d) (steady : Steady d.cell) (env : Env)
    (dispatch : Dispatch) (published : Published) :
    Sections c Allowed d.cell (d.answerCertified c env dispatch published).cell := by
  unfold answerCertified
  cases snapshot : dispatch.peer with
  | none => exact .refl
  | some peer =>
  dsimp only
  split_ifs with absent
  · exact .refl
  apply sections_attempt
  refine sections_update steady.current _ _ _ _ (fun edited value ran => ?_)
  rw [not_or, not_not] at absent
  exact .replied peer.name published value ran
    (name_ne_of_knows sound.valid ((sound.dispatches dispatch absent.1).2 peer snapshot))

theorem sections_settle (sound : Sound c d) (steady : Steady d.cell) (env : Env) (dispatch : Dispatch)
    (e : ClixError) : Sections c Allowed d.cell (d.settle c env dispatch e).cell := by
  unfold settle
  split_ifs with known
  swap
  · exact .refl
  cases changed : Dispatch.undelivered d.store dispatch.job.id e with
  | none => exact .refl
  | some job =>
    refine sections_update steady.current _ _ _ _ (fun edited value ran => ?_)
    cases ran
    exact .undelivered _ e job changed (sound.undelivered _ known).1

theorem sections_submitDraft (steady : Steady d.cell) (env : Env) (draft : Draft) :
    Sections c Allowed d.cell (d.submitDraft c env draft).cell := by
  unfold submitDraft
  cases made : Dispatch.newJob env.newId draft.origin draft.body draft.argv with
  | error e => exact .refl
  | ok job =>
    dsimp only
    split_ifs with skipped
    · exact .refl
    refine sections_update steady.current _ _ _ _ (fun edited value ran => ?_)
    rw [not_or, Bool.not_eq_true, Option.isSome_eq_false_iff, Option.isNone_iff_eq_none] at skipped
    rw [Dispatch.newJob, bind_eq_ok] at made
    obtain ⟨id, -, made⟩ := made
    rw [bind_eq_ok] at made
    obtain ⟨⟨⟩, -, made⟩ := made
    cases made
    exact .enqueued _ draft.retryOf rfl ⟨rfl, rfl⟩ skipped.2 ran

theorem sections_finish (sound : Sound c d) (steady : Steady d.cell) (env : Env) (id : String) :
    Sections c Allowed d.cell (d.finish c env id).cell := by
  unfold finish
  split
  · next run grant outcome admission found =>
    obtain rfl : run.id = id := task?_id found
    have sections : Sections c Allowed d.cell _ := sections_update steady.current env.epochId env.fault
      (Exec.finishEdit grant run outcome) (fun _ => []) (fun edited value ran =>
        .finished grant run outcome (sound.running _ _ found nofun) (sound.tools _ _ found) ran)
    unfold quietUpdate
    generalize d.update c env.epochId env.fault _ _ = done at sections
    obtain ⟨after, e | ⟨⟩⟩ := done <;> exact sections
  · exact .refl

theorem sections_giveUp (sound : Sound c d) (id : String) : Sections c Allowed d.cell (d.giveUp id).cell := by
  unfold giveUp
  split
  · next run grant e admission found =>
    obtain rfl : run.id = id := task?_id found
    obtain ⟨old, present, going, body, -, -, own⟩ := sound.running _ _ found nofun
    exact .single (.note (fun s => Exec.setStatus s run.id (Exec.unsavedStatus e))
      (.gaveUp _ e ⟨old, present, going, by rw [body]; exact own⟩))
  · exact .refl

/-- Every step but a restart sections the saved state by the listed changes. -/
theorem sections_liveStep (sound : Sound c d) (steady : Steady d.cell) (env : Env) (e : Event)
    (running : ∀ boot, e ≠ .restart boot)
    (permitted : Allowed d.store e) :
    Sections c Allowed d.cell (d.liveStep c env e).cell := by
  cases e with
  | accept key =>
    change Sections c Allowed d.cell (d.accept c key).cell
    unfold accept
    split_ifs
    · exact .refl
    · split <;> exact .refl
  | exec peer id argv =>
    change Sections c Allowed d.cell (d.exec c env peer id argv).cell
    unfold exec
    split_ifs
    · exact .refl
    · exact sections_submit steady env _ _ _ _ _ nofun nofun
  | authorize peer cert =>
    change Sections c Allowed d.cell (d.authorize c peer cert).cell
    unfold authorize
    split
    · exact .refl
    · split <;> exact .refl
  | execCertified peer cert =>
    change Sections c Allowed d.cell (d.execCertified c env peer cert).cell
    unfold execCertified
    dsimp only
    split_ifs
    · exact .refl
    · exact sections_submit steady env _ _ _ _ _ (fun b here => by rw [Option.some.inj here])
        (fun b here => ⟨peer, Option.some.inj here ▸ permitted⟩)
  | request peer tool deliveryId =>
    dsimp only [liveStep]
    split
    · exact .refl
    · refine sections_update steady.current _ _ _ _ (fun edited value ran => ?_)
      obtain ⟨work, trust⟩ := Request.receive_settings ran
      exact .settings work trust
  | add tool allow once expiry schedule args =>
    refine sections_update steady.current _ _ _ _ (fun edited value ran => ?_)
    obtain ⟨work, trust⟩ := Grant.addWithArgs_settings ran
    exact .settings work trust
  | remove tool =>
    refine sections_update steady.current _ _ _ _ (fun edited value ran => ?_)
    obtain ⟨work, trust⟩ := Grant.remove_settings ran
    exact .settings work trust
  | decide id decision =>
    refine sections_update steady.current _ _ _ _ (fun edited value ran => ?_)
    obtain ⟨work, trust⟩ := Request.decide_settings ran
    exact .settings work trust
  | ask tool =>
    refine sections_update steady.current _ _ _ _ (fun edited value ran => ?_)
    obtain ⟨work, trust⟩ := Request.upsert_settings ran
    exact .settings work trust
  | sendRequest body tool =>
    change Sections c Allowed d.cell (d.sendRequest c env body tool).cell
    unfold sendRequest
    split
    · exact .refl
    · exact sections_update steady.current _ _ _ _ (fun edited value ran => by cases ran; exact .settings rfl ⟨rfl, rfl, rfl⟩)
  | settleRequest id result =>
    change Sections c Allowed d.cell (d.settleRequest c env id result).cell
    unfold settleRequest
    split
    · exact .refl
    · split_ifs
      · exact .refl
      · refine sections_update steady.current _ _ _ _ (fun edited value ran => ?_)
        cases ran
        unfold settleOutbound
        split <;> exact .settings rfl ⟨rfl, rfl, rfl⟩
  | prune keep => exact sections_update steady.current _ _ _ _ (fun edited value ran => .pruned keep value ran)
  | compose body argv =>
    change Sections c Allowed d.cell (d.compose body argv).cell
    unfold compose
    split <;> exact .refl
  | retry id =>
    change Sections c Allowed d.cell (d.retry id).cell
    unfold retry
    split <;> exact .refl
  | submit draft => exact sections_submitDraft steady env draft
  | rename name => exact sections_rename steady env name
  | pair name key peer =>
    change Sections c Allowed d.cell (d.pair c env name key peer).cell
    unfold pair
    split_ifs
    · exact .refl
    · refine sections_update steady.current _ _ _ _ (fun edited value ran => ?_)
      rw [pairEdit, bind_eq_ok] at ran
      obtain ⟨t, updated, ran⟩ := ran
      cases ran
      exact .paired peer updated
  | pin index enabled =>
    exact sections_update steady.current _ _ _ _ (fun edited value ran => by cases ran; exact .settings rfl ⟨rfl, rfl, rfl⟩)
  | selectJob id =>
    change Sections c Allowed d.cell (d.selectJob id).cell
    unfold selectJob
    split <;> exact .refl
  | answer dispatch incoming => exact sections_answer sound steady env dispatch incoming permitted
  | answerCertified dispatch published => exact sections_answerCertified sound steady env dispatch published
  | fail dispatch e =>
    dsimp only [liveStep]
    split_ifs <;> exact .refl
  | settle dispatch e => exact sections_settle sound steady env dispatch e
  | selectLocal id =>
    change Sections c Allowed d.cell (d.selectLocal id).cell
    unfold selectLocal
    split <;> exact .refl
  | submitLocal job =>
    change Sections c Allowed d.cell (d.submitLocal c env job).cell
    unfold submitLocal
    split
    · exact .refl
    · have sections : Sections c Allowed d.cell _ := sections_submit steady env .own job.origin job.argv job.id none nofun nofun
      generalize d.submit c env .own job.origin job.argv job.id none = done at sections
      obtain ⟨after, e | value⟩ := done <;> exact sections
  | settleLocal job e =>
    change Sections c Allowed d.cell (d.settleLocal c env job e).cell
    unfold settleLocal
    split
    · exact .refl
    · exact sections_update steady.current _ _ _ _ (fun edited value ran => .refusedLocally _ e ran)
  | startSync peer =>
    change Sections c Allowed d.cell (d.startSync peer).cell
    unfold startSync
    split <;> exact .refl
  | mergePage sync page =>
    change Sections c Allowed d.cell (d.mergePage c env sync page).cell
    unfold mergePage
    split_ifs with stale
    · exact .refl
    · refine sections_update steady.current _ _ _ _ (fun edited value ran => ?_)
      rw [bind_eq_ok] at ran
      obtain ⟨t, merged, ran⟩ := ran
      cases ran
      rw [not_or, not_or, not_or, not_not, not_not, Bool.not_eq_false] at stale
      obtain ⟨p, ⟨q, there, name, -⟩, same⟩ := sound.syncs sync stale.1
      exact .merged _ _ _ ⟨q, there, name.trans same⟩ merged ⟨sync, rfl, rfl, stale.2.2.1, stale.2.1, permitted⟩
  | contact peer lastContact e =>
    exact .single (.note (fun s => History.setProgress s peer { History.progress s peer with
      complete := (History.progress s peer).complete && e.isNone
      lastContact := if e.isSome then (History.progress s peer).lastContact else lastContact
      error := e }) (.contact peer _ ⟨rfl, rfl, rfl⟩))
  | launch id spawnError =>
    change Sections c Allowed d.cell (d.launch id spawnError).cell
    unfold launch
    split
    · split <;> exact .refl
    · exact .refl
  | exited id status =>
    change Sections c Allowed d.cell (d.exited id status).cell
    unfold exited
    split_ifs <;> exact .refl
  | collect id streams waitError =>
    change Sections c Allowed d.cell (d.collect id streams waitError).cell
    unfold collect
    split
    · split <;> exact .refl
    · exact .refl
  | finish id => exact sections_finish sound steady env id
  | giveUp id => exact sections_giveUp sound id
  | release id =>
    change Sections c Allowed d.cell (d.release id).cell
    unfold release
    split <;> exact .refl
  | restart boot => exact absurd rfl (running boot)

/-! ### Restarts -/

/-- A machine that runs has nothing that a crash could undo. -/
def Idle (d : Daemon) : Prop := d.live = true → d.cell.replaced = none

/-- A save that succeeds, or fails before the rename, leaves nothing to undo. -/
theorem replaced_of_outcome {cell : DurableCell Image} {next stopped : Image} {fault : Option Fault}
    (saved : fault = none) : (cell.replace next stopped (outcome fault)).replaced = none := by
  subst saved
  rfl

theorem turns_saveOpened (idle : d.Idle) (needed : Bool) (f : Store → Store) (fault : Option Fault)
    (completes : needed = true → d.store.Completes (f d.store)) :
    Turns c Allowed d.cell (d.saveOpened needed f fault).cell ∧ (d.saveOpened needed f fault).Idle := by
  unfold saveOpened
  split_ifs with skipped
  · exact ⟨.refl, idle⟩
  · rw [not_or, Bool.not_eq_false, Bool.not_eq_false] at skipped
    refine ⟨.single (.complete (f d.store) fault (idle skipped.2) (completes skipped.1)), fun live => ?_⟩
    exact replaced_of_outcome (Option.isNone_iff_eq_none.mp live)

theorem turns_openStore (boot : Boot) (d : Daemon) :
    Turns c Allowed d.cell (d.openStore boot).cell ∧ (d.openStore boot).Idle := by
  have reopened : Turns c Allowed d.cell
      (d.cell.reopen (fun image => { image with store := image.store.reloaded }) boot.reverted) :=
    .single (.reopen boot.reverted)
  have named : ∀ {d : Daemon}, d.Idle → Turns c Allowed d.cell (d.saveOpened (isUnnamed d.store)
      (fun s => { s with bodyName := Pair.sanitizeName boot.hostname }) boot.nameFault).cell ∧
      (d.saveOpened (isUnnamed d.store) (fun s => { s with bodyName := Pair.sanitizeName boot.hostname })
        boot.nameFault).Idle :=
    fun idle => turns_saveOpened idle _ _ _ (fun unnamed => .name boot.hostname unnamed)
  have keyed : ∀ {d : Daemon}, d.Idle → Turns c Allowed d.cell (d.saveOpened d.store.ownerSk.isEmpty
      (fun s => { s with ownerSk := boot.seed }) boot.seedFault).cell ∧
      (d.saveOpened d.store.ownerSk.isEmpty (fun s => { s with ownerSk := boot.seed }) boot.seedFault).Idle :=
    fun idle => turns_saveOpened idle _ _ _ (fun keyless => .key boot.seed keyless)
  unfold openStore
  dsimp only
  split_ifs
  · exact ⟨reopened, nofun⟩
  · obtain ⟨first, idle⟩ := named (d := { d with
      cell := d.cell.reopen (fun image => { image with store := image.store.reloaded }) boot.reverted
      live := true
      conns := []
      authorized := []
      drafts := []
      dispatches := []
      undelivered := []
      locals := []
      localErrors := []
      syncs := []
      tasks := [] }) (fun _ => rfl)
    obtain ⟨second, still⟩ := keyed idle
    exact ⟨(reopened.trans first).trans second, still⟩

theorem turns_repairBodyName (idle : d.Idle) (live : d.live = true) (env : Env) (fault : Option Fault) :
    Turns c Allowed d.cell (d.repairBodyName c env fault).cell ∧ (d.repairBodyName c env fault).Idle := by
  unfold repairBodyName
  split_ifs with fine
  · exact ⟨.refl, idle⟩
  rw [not_or, not_not] at fine
  have sections : Sections c Allowed d.cell _ := sections_update (fun _ => idle live) env.epochId fault
    (fun s => .ok ({ s with bodyName := Pair.sanitizeName s.bodyName }, ())) (fun _ => []) (fun edited value ran => by
      cases ran
      refine .renamed rfl rfl fine.2 fine.2 (Pair.isName_sanitizeName _) (.inl ?_)
      by_contra named
      rw [Bool.not_eq_false] at named
      exact fine.1 (refuseIf_eq_ok.mpr (by simp [named])))
  rcases update_cases (d := d) (c := c) env.epochId fault
      (fun s => .ok ({ s with bodyName := Pair.sanitizeName s.bodyName }, ())) (fun _ => []) with
    ⟨e, same⟩ | ⟨next, value, -, same⟩
  · rw [same]
    exact ⟨.refl, nofun⟩
  · rw [same] at sections ⊢
    cases fault with
    | none => exact ⟨turns_of_sections sections, fun _ => rfl⟩
    | some fault => exact ⟨turns_of_sections sections, nofun⟩

theorem turns_recoverJobs (idle : d.Idle) (live : d.live = true) (env : Env) :
    Turns c Allowed d.cell (d.recoverJobs c env).cell ∧ (d.recoverJobs c env).Ready := by
  have failed : ∀ {d : Daemon} (e : ClixError), Turns c Allowed d.cell (d.setStore (fun s => s.recoveryFailed e)).cell ∧
      (d.setStore (fun s => s.recoveryFailed e)).Ready := by
    intro d e
    exact ⟨.single (.running (.note (fun s => s.recoveryFailed e) (.recoveryFailed e))), fun _ => nofun⟩
  unfold recoverJobs
  split_ifs with needed
  swap
  · rw [Store.needsRecovery, Bool.or_eq_true, not_or, Bool.not_eq_true', Bool.not_eq_false] at needed
    exact ⟨.refl, fun _ _ => ⟨idle live, needed.1⟩⟩
  have sections : Sections c Allowed d.cell _ := sections_update (fun _ => idle live) env.epochId env.fault Store.recoverEdit
    (fun _ => []) (fun edited value ran => by cases ran; exact .recovered)
  unfold quietUpdate
  rcases update_cases (d := d) (c := c) env.epochId env.fault Store.recoverEdit (fun _ => []) with
    ⟨e, same⟩ | ⟨next, value, staged, same⟩
  · rw [same]
    exact failed e
  · have begun := (@Store.writes_of_stage c Allowed _ _ _ _ _ _ staged
      (fun _ edited value ran => by cases ran; exact .recovered)).initialized
    rw [same] at sections ⊢
    cases fault : env.fault with
    | none =>
      rw [fault] at sections
      exact ⟨turns_of_sections sections, fun _ _ => ⟨rfl, begun⟩⟩
    | some f =>
      rw [fault] at sections
      obtain ⟨more, ready⟩ := failed (d := { d with cell := d.commit ⟨next, [] ++ d.acts⟩ (some f) }) f.error
      exact ⟨(turns_of_sections sections).trans more, ready⟩

theorem turns_restart (env : Env) (boot : Boot) (d : Daemon) :
    Turns c Allowed d.cell (d.restart c env boot).cell ∧ (d.restart c env boot).Ready := by
  obtain ⟨opened, idle⟩ : Turns c Allowed d.cell _ ∧ _ := turns_openStore boot d
  unfold restart
  dsimp only
  split_ifs with stopped refused
  · exact ⟨opened, fun live => absurd (stopped.symm.trans live) Bool.false_ne_true⟩
  · rw [Bool.not_eq_false] at stopped
    obtain ⟨repaired, -⟩ : Turns c Allowed _ _ ∧ _ := turns_repairBodyName idle stopped env boot.repairFault
    exact ⟨opened.trans repaired, nofun⟩
  · rw [Bool.not_eq_false] at stopped
    obtain ⟨repaired, still⟩ : Turns c Allowed _ _ ∧ _ := turns_repairBodyName idle stopped env boot.repairFault
    rw [not_or, Bool.not_eq_false] at refused
    obtain ⟨recovered, ready⟩ : Turns c Allowed _ _ ∧ _ := turns_recoverJobs still refused.1 env
    exact ⟨(opened.trans repaired).trans recovered, ready⟩

/-! ### Runs -/

theorem steady_sections {cell cell' : DurableCell Image} (sections : Sections c Allowed cell cell')
    (steady : Steady cell) : Steady cell' := by
  induction sections with
  | refl => exact steady
  | tail _ here ih =>
    cases here with
    | write next acts fault still writes =>
      intro writable
      cases fault with
      | none => exact ⟨rfl, writes.initialized⟩
      | some fault =>
        obtain ⟨call, e⟩ := fault
        cases call <;> cases writable
    | note f notes =>
      intro writable
      obtain ⟨current, begun⟩ := ih (notes.writeError writable)
      exact ⟨current, notes.initialized.trans begun⟩

/-- Every event of a run is one that its state allows. -/
def PermitsAll (c : Crypto) (Allowed : Store → Event → Prop) (d : Daemon) : List (Env × Event) → Prop
  | [] => True
  | e :: rest => Allowed d.store e.2 ∧ (d.step c e).PermitsAll c Allowed rest

theorem permitsAll_true (d : Daemon) (events : List (Env × Event)) : d.PermitsAll c (fun _ _ => True) events := by
  induction events generalizing d with
  | nil => trivial
  | cons e rest ih => exact ⟨trivial, ih _⟩

theorem turns_step (inv : Inv c d) (ready : d.Ready) (e : Env × Event) (permits : Allowed d.store e.2) :
    Turns c Allowed d.cell (d.step c e).cell ∧ (d.step c e).Ready := by
  cases live : d.live with
  | true =>
    by_cases restarted : ∃ boot, e.2 = .restart boot
    · obtain ⟨boot, restarted⟩ := restarted
      rw [step, live, if_pos rfl, restarted]
      exact turns_restart e.1 boot d
    · rw [not_exists] at restarted
      rw [step, live, if_pos rfl]
      have sections := sections_liveStep (inv.live live) (ready live) e.1 e.2 restarted permits
      exact ⟨turns_of_sections sections, fun _ => steady_sections sections (ready live)⟩
  | false =>
    rw [step, live, if_neg Bool.false_ne_true]
    split
    · next id status _ =>
      unfold exited
      split_ifs <;> exact ⟨.refl, fun running => absurd (live.symm.trans running) Bool.false_ne_true⟩
    · exact turns_restart e.1 _ d
    · exact ⟨.refl, fun running => absurd (live.symm.trans running) Bool.false_ne_true⟩

theorem ready_installed (file : Store) : (installed file).Ready := nofun

theorem turns_run (inv : Inv c d) (ready : d.Ready) (events : List (Env × Event))
    (permits : d.PermitsAll c Allowed events) :
    Turns c Allowed d.cell (d.run c events).cell ∧ (d.run c events).Ready := by
  induction events generalizing d with
  | nil => exact ⟨.refl, ready⟩
  | cons e rest ih =>
    obtain ⟨first, still⟩ := turns_step inv ready e permits.1
    obtain ⟨more, last⟩ := ih (inv_step inv e) still permits.2
    exact ⟨first.trans more, last⟩

/-- A sustained property of the installed state holds of everything a machine has. -/
theorem everywhere_run (sustained : Sustained c Allowed P) (inv : Inv c d) (ready : d.Ready)
    (events : List (Env × Event)) (permits : d.PermitsAll c Allowed events)
    (holds : Everywhere (Image.Being P) d.cell) : Everywhere (Image.Being P) (d.run c events).cell :=
  everywhere_turns sustained (turns_run inv ready events permits).1 holds

theorem permitsAll_append (d : Daemon) (before after : List (Env × Event)) :
    d.PermitsAll c Allowed (before ++ after) ↔
      d.PermitsAll c Allowed before ∧ (d.run c before).PermitsAll c Allowed after := by
  induction before generalizing d with
  | nil => exact ⟨fun rest => ⟨trivial, rest⟩, fun both => both.2⟩
  | cons e rest ih =>
    rw [List.cons_append, PermitsAll, PermitsAll, ih, and_assoc]
    rfl

theorem permitsAll_of_forall (d : Daemon) (events : List (Env × Event))
    (allowed : ∀ e ∈ events, ∀ s, Allowed s e.2) : d.PermitsAll c Allowed events := by
  induction events generalizing d with
  | nil => trivial
  | cons e rest ih =>
    exact ⟨allowed e List.mem_cons_self _, ih _ (fun other member => allowed other (List.mem_cons_of_mem _ member))⟩

/-- What was certain at some point is everywhere from then on. -/
theorem everywhere_of_certain (sustained : Sustained c Allowed P)
    {file : Store} (inv : Inv c (installed file)) {before after : List (Env × Event)}
    (permits : (installed file).PermitsAll c Allowed (before ++ after))
    (holds : P ((installed file).run c before).cell.certain.store) :
    Everywhere (Image.Being P) ((installed file).run c (before ++ after)).cell := by
  rw [permitsAll_append] at permits
  have start : Onward (Image.Being P) (installed file).cell := fun here => ⟨here, here, nofun⟩
  obtain ⟨turns, ready⟩ := turns_run inv (ready_installed file) before permits.1
  have now := onward_turns sustained turns start holds
  rw [run_append]
  exact everywhere_run sustained (inv_run inv before) ready after permits.2 now

end Daemon

end Clix
