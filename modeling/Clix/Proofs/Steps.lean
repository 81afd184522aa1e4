import Clix.Proofs.Deeds

/-! # What one step of a machine can do

`Daemon.Core` lists, once, everything a step other than a restart can do to the saved state, the tasks,
the children and their exits. Each handler is classified here; the invariants are then proved from the
classification alone.
-/

namespace Clix

open Except

namespace Pair

variable {c : Crypto}

/-- Validation reads the name, the identity and the peers only. -/
theorem validateStore_congr {s t : Store} (name : t.bodyName = s.bodyName) (key : t.ownerSk = s.ownerSk)
    (peers : t.peers = s.peers) : validateStore c t = validateStore c s := by
  rw [validateStore, validateStore, name, key, peers]

theorem validatePeers_name {bodyName : String} {localPk : Bytes} {names : List BodyId}
    {keys : List Bytes} {peers : List Peer}
    (valid : validatePeers c bodyName localPk names keys peers = .ok ()) (p : Peer) (member : p ∈ peers) :
    p.name.name ≠ bodyName := by
  induction peers generalizing names keys with
  | nil => exact absurd member List.not_mem_nil
  | cons head rest ih =>
    rw [validatePeers, bind_eq_ok] at valid
    obtain ⟨⟨⟩, -, valid⟩ := valid
    rw [refuseIf_bind_eq_ok] at valid
    obtain ⟨-, valid⟩ := valid
    rw [refuseIf_bind_eq_ok] at valid
    obtain ⟨distinct, valid⟩ := valid
    rcases List.mem_cons.mp member with rfl | later
    · exact fun same => distinct (.inr (.inl same))
    · exact ih valid later

theorem validateStore_eq_ok {s : Store} (valid : validateStore c s = .ok ()) :
    isName s.bodyName = true ∧ s.ownerSk.length = 32 ∧
      validatePeers c s.bodyName (c.verifyingKey s.ownerSk) [] [] s.peers = .ok () := by
  rw [validateStore, bind_eq_ok] at valid
  obtain ⟨⟨⟩, named, valid⟩ := valid
  rw [bind_eq_ok] at valid
  obtain ⟨key, owned, valid⟩ := valid
  rw [ownerPk, refuseIf_bind_eq_ok] at owned
  obtain ⟨length, owned⟩ := owned
  cases owned
  rw [validateName, refuseIf_eq_ok] at named
  exact ⟨by simpa using named, not_not.mp length, valid⟩

/-- No peer of a valid store has this machine's name. -/
theorem name_ne_of_mem {s : Store} (valid : validateStore c s = .ok ()) {p : Peer} (member : p ∈ s.peers) :
    p.name.name ≠ s.bodyName := validatePeers_name (validateStore_eq_ok valid).2.2 p member

end Pair

theorem Pair.updatePeer_eq_ok {c : Crypto} {s t : Store} {peer : Peer}
    (success : Pair.updatePeer c s peer = .ok t) :
    Pair.validateStore c t = .ok () ∧ t = { s with peers := t.peers } ∧
      ∀ p ∈ s.peers, ∃ q ∈ t.peers, q.name = p.name ∧ q.ownerPk = p.ownerPk := by
  unfold Pair.updatePeer at success
  dsimp only at success
  split at success
  · next existing found =>
    rw [refuseIf_bind_eq_ok] at success
    obtain ⟨same, success⟩ := success
    rw [pure_eq_ok, ok_bind, bind_eq_ok] at success
    obtain ⟨⟨⟩, valid, success⟩ := success
    cases success
    refine ⟨valid, rfl, fun p member => ?_⟩
    have pairs : (s.peers.modifyFirst (fun p => p.name == peer.name || p.ownerPk == peer.ownerPk)
        (fun p => { p with addr := peer.addr })).map (fun p => (p.name, p.ownerPk)) =
        s.peers.map (fun p => (p.name, p.ownerPk)) :=
      List.map_modifyFirst_of_eq _ _ _ _ (fun _ _ _ => rfl)
    have present : (p.name, p.ownerPk) ∈ s.peers.map (fun p => (p.name, p.ownerPk)) :=
      List.mem_map.mpr ⟨p, member, rfl⟩
    rw [← pairs] at present
    obtain ⟨q, there, equal⟩ := List.mem_map.mp present
    exact ⟨q, there, congrArg Prod.fst equal, congrArg Prod.snd equal⟩
  · rw [pure_eq_ok, ok_bind, bind_eq_ok] at success
    obtain ⟨⟨⟩, valid, success⟩ := success
    cases success
    exact ⟨valid, rfl, fun p member => ⟨p, List.mem_append_left _ member, rfl, rfl⟩⟩

/-- A delivery attempt is about a row of another machine, and its answers come from a paired peer. -/
def Dispatch.Concerns (x : Dispatch) (desk : Desk) : Prop :=
  desk.Foreign x.job.id ∧ ∀ p, x.peer = some p → desk.Knows p

/-- What the classification of a step relies on. -/
structure Daemon.Sound (c : Crypto) (d : Daemon) : Prop where
  valid : Pair.validateStore c d.store = .ok ()
  conns : ∀ p ∈ d.conns, d.store.desk.Knows p
  authorized : ∀ x ∈ d.authorized, d.store.desk.Knows x.1
  dispatches : ∀ x ∈ d.dispatches, x.Concerns d.store.desk
  undelivered : ∀ x ∈ d.undelivered, x.1.Concerns d.store.desk
  locals : ∀ j ∈ d.locals, d.store.desk.Own j.row
  running : ∀ id task, d.task? id = some task → task.phase ≠ .finished →
    d.store.desk.Running task.run.row
  tools : ∀ id task, d.task? id = some task → task.run.argv.head? = some task.grant.tool
  syncs : ∀ x ∈ d.syncs, ∃ p, d.store.desk.Knows p ∧ p.name = x.peer

/-- What a machine remembers of whoever submits a job. -/
inductive Daemon.Submits (d : Daemon) : Requester → Job → Option Certificate → Prop
  | own (job queued : Job) (selected : queued ∈ d.locals) (id : job.id = queued.id)
      (origin : job.origin = queued.origin) (argv : job.argv = queued.argv) : Submits d .own job none
  | peer (job : Job) (p : Peer) (connected : p ∈ d.conns) (origin : job.origin = p.name) :
      Submits d (.peer p) job none
  | certified (job : Job) (p : Peer) (cert : Certificate) (authorized : (p, cert) ∈ d.authorized)
      (id : job.id = cert.invocation.id) (origin : job.origin = cert.invocation.origin)
      (argv : job.argv = cert.invocation.argv) : Submits d (.certified p cert) job (some cert)

/-- The checks a run passed when it was admitted. -/
structure Daemon.Granted (c : Crypto) (d : Daemon) (requester : Requester) (now : Clock) (job : Job)
    (cert : Option Certificate) (grant : Grant) : Prop where
  submits : d.Submits requester job cert
  checked : Exec.precheck c d.store job.origin job.argv job.id cert = .ok none
  granted : Exec.authorize d.store job.origin job.argv now = .ok grant

namespace Daemon

/-- Everything a step other than a restart can do to the saved state, tasks, children and exits. -/
inductive Core (c : Crypto) (env : Env) (d d' : Daemon) : Prop
  | idle (cell : d'.cell = d.cell) (tasks : d'.tasks = d.tasks) (starts : d'.starts = d.starts)
      (exits : d'.exits = d.exits)
  /-- Diagnostics in memory changed. -/
  | noted (f : Store → Store) (desk : (f d.store).desk = d.store.desk)
      (key : (f d.store).ownerSk = d.store.ownerSk) (cell : d'.cell = (d.setStore f).cell)
      (tasks : d'.tasks = d.tasks) (starts : d'.starts = d.starts) (exits : d'.exits = d.exits)
  | saved (deed : Deed) (plain : deed.isPlain = true) (next : Store) (fault : Option Fault)
      (does : d.store.Does deed next) (valid : Pair.validateStore c next = .ok ())
      (cell : d'.cell = d.commit ⟨next, deed.acts ++ d.acts⟩ fault)
      (tasks : d'.tasks = d.tasks) (starts : d'.starts = d.starts) (exits : d'.exits = d.exits)
  | admitted (requester : Requester) (job : Job) (grant : Grant) (next : Store)
      (cert : Option Certificate) (granted : d.Granted c requester env.now job cert grant)
      (does : d.store.Does (.accept job.row grant) next) (valid : Pair.validateStore c next = .ok ())
      (cell : d'.cell = d.commit ⟨next, [.admitted job.id grant] ++ d.acts⟩ env.fault)
      (tasks : d'.tasks = if env.fault.isNone
        then d.tasks ++ [⟨job, grant, .pending, requester, env.now, d.store, next⟩] else d.tasks)
      (starts : d'.starts = d.starts) (exits : d'.exits = d.exits)
  | launched (task : Task) (found : d.task? task.run.id = some task) (pending : task.phase = .pending)
      (cell : d'.cell = d.cell) (exits : d'.exits = d.exits)
      (outcome : (∃ e, d'.tasks = (d.setPhase task.run.id (.ended (.notStarted e))).tasks ∧
          d'.starts = d.starts) ∨
        ∃ command, Exec.command task.grant task.run.argv = .ok command ∧
          d'.tasks = (d.setPhase task.run.id .running).tasks ∧
          d'.starts = ⟨command, task.run, task.grant, task.admission⟩ :: d.starts)
  | exited (id : String) (status : Exec.ExitStatus) (started : ∃ start ∈ d.starts, start.run.id = id)
      (first : d.exitOf id = none) (cell : d'.cell = d.cell) (tasks : d'.tasks = d.tasks)
      (starts : d'.starts = d.starts) (exits : d'.exits = (id, status) :: d.exits)
  | collected (task : Task) (found : d.task? task.run.id = some task) (running : task.phase = .running)
      (outcome : Exec.RunOutcome)
      (known : outcome.success.isSome = true →
        ∃ status, d.exitOf task.run.id = some status ∧ outcome.success = some status.success)
      (cell : d'.cell = d.cell) (tasks : d'.tasks = (d.setPhase task.run.id (.ended outcome)).tasks)
      (starts : d'.starts = d.starts) (exits : d'.exits = d.exits)
  | finished (task : Task) (found : d.task? task.run.id = some task) (outcome : Exec.RunOutcome)
      (ended : task.phase = .ended outcome) (next : Store) (fault : Option Fault)
      (does : d.store.Does (.finish (Exec.finished task.grant.tool task.run outcome).row task.grant
        outcome.success) next)
      (valid : Pair.validateStore c next = .ok ())
      (cell : d'.cell = d.commit ⟨next, d.acts⟩ fault)
      (tasks : ∃ phase, (phase = .finished ∧ fault = none ∨ ∃ e, phase = .unsaved e ∧ fault.isSome = true) ∧
        d'.tasks = (d.setPhase task.run.id phase).tasks)
      (starts : d'.starts = d.starts) (exits : d'.exits = d.exits)
  /-- A completion was refused before its save. -/
  | refused (task : Task) (found : d.task? task.run.id = some task) (outcome : Exec.RunOutcome)
      (ended : task.phase = .ended outcome) (e : ClixError) (cell : d'.cell = d.cell)
      (tasks : d'.tasks = (d.setPhase task.run.id (.unsaved e)).tasks)
      (starts : d'.starts = d.starts) (exits : d'.exits = d.exits)
  | gaveUp (task : Task) (found : d.task? task.run.id = some task) (e : ClixError)
      (unsaved : task.phase = .unsaved e)
      (cell : d'.cell = (d.setStore (fun s => Exec.setStatus s task.run.id (Exec.unsavedStatus e))).cell)
      (tasks : d'.tasks = (d.setPhase task.run.id .finished).tasks)
      (starts : d'.starts = d.starts) (exits : d'.exits = d.exits)
  | released (task : Task) (found : d.task? task.run.id = some task) (spent : task.phase = .finished)
      (cell : d'.cell = d.cell)
      (tasks : d'.tasks = d.tasks.eraseP (fun t => t.run.id == task.run.id))
      (starts : d'.starts = d.starts) (exits : d'.exits = d.exits)

variable {c : Crypto} {d : Daemon} {env : Env}

theorem task?_id {id : String} {task : Task} (found : d.task? id = some task) : task.run.id = id := by
  simpa using List.find?_some found

/-- What an update does: nothing, or the save of a staged state. -/
theorem update_cases {α : Type} (epochId : Result String) (fault : Option Fault)
    (edit : Store → Result (Store × α)) (acts : α → List Act) :
    (∃ e, d.update c epochId fault edit acts = (d, .error e)) ∨
      ∃ next value, Store.stage c epochId d.store edit = .ok (next, value) ∧
        d.update c epochId fault edit acts =
          ({ d with cell := d.commit ⟨next, acts value ++ d.acts⟩ fault }, saveResult fault value) := by
  cases staged : Store.stage c epochId d.store edit with
  | error e => exact .inl ⟨e, by rw [update, staged]⟩
  | ok done =>
    obtain ⟨next, value⟩ := done
    exact .inr ⟨next, value, rfl, by simp only [update, staged]⟩

/-- The saved state keeps the name, identity and peers that the edit kept. -/
theorem valid_of_stage {α : Type} {epochId : Result String} {edit : Store → Result (Store × α)}
    {next edited : Store} {value : α} (valid : Pair.validateStore c edited = .ok ())
    (staged : Store.stage c epochId d.store edit = .ok (next, value))
    (ran : edit d.store = .ok (edited, value)) : Pair.validateStore c next = .ok () := by
  obtain ⟨other, again, desk, key, -⟩ := Store.stage_desk staged
  rw [ran] at again
  cases again
  rw [Pair.validateStore_congr (congrArg Desk.name desk) key (congrArg Desk.peers desk)]
  exact valid

/-- An update whose edit does a plain deed. -/
theorem core_of_update {α : Type} (epochId : Result String) (fault : Option Fault)
    (edit : Store → Result (Store × α)) (acts : α → List Act)
    (does : ∀ edited value, edit d.store = .ok (edited, value) →
      ∃ deed, d.store.Does deed edited ∧ deed.isPlain = true ∧ acts value = deed.acts ∧
        Pair.validateStore c edited = .ok ()) :
    Core c env d (d.update c epochId fault edit acts).1 := by
  rcases update_cases (d := d) (c := c) epochId fault edit acts with ⟨e, same⟩ | ⟨next, value, staged, same⟩
  · rw [same]
    exact .idle rfl rfl rfl rfl
  · rw [same]
    obtain ⟨edited, ran, desk, key, -⟩ := Store.stage_desk staged
    obtain ⟨deed, ⟨allowed, done⟩, plain, recorded, valid⟩ := does edited value ran
    exact .saved deed plain next fault ⟨allowed, desk.trans done⟩ (valid_of_stage valid staged ran)
      (by rw [recorded]) rfl rfl rfl

/-- An edit that leaves the desk and the identity alone. -/
theorem core_of_quiet {α : Type} (valid : Pair.validateStore c d.store = .ok ())
    (edit : Store → Result (Store × α))
    (quiet : ∀ edited value, edit d.store = .ok (edited, value) →
      edited.desk = d.store.desk ∧ edited.ownerSk = d.store.ownerSk) :
    Core c env d (d.quietUpdate c env edit).1 := by
  apply core_of_update
  intro edited value ran
  obtain ⟨desk, key⟩ := quiet edited value ran
  refine ⟨.quiet, Store.does_quiet desk, rfl, rfl, ?_⟩
  rw [Pair.validateStore_congr (congrArg Desk.name desk) key (congrArg Desk.peers desk)]
  exact valid

/-- A deed that is not about names or peers keeps a valid store valid. -/
theorem valid_of_does {deed : Deed} {edited : Store} (valid : Pair.validateStore c d.store = .ok ())
    (does : d.store.Does deed edited) (key : edited.ownerSk = d.store.ownerSk)
    (name : (d.store.desk.apply deed).name = d.store.bodyName)
    (peers : (d.store.desk.apply deed).peers = d.store.peers) :
    Pair.validateStore c edited = .ok () := by
  rw [Pair.validateStore_congr (t := edited) (s := d.store) _ key _]
  · exact valid
  · exact (congrArg Desk.name does.2).trans name
  · exact (congrArg Desk.peers does.2).trans peers

theorem name_ne_of_knows (valid : Pair.validateStore c d.store = .ok ()) {p : Peer}
    (known : d.store.desk.Knows p) : p.name.name ≠ d.store.bodyName := by
  obtain ⟨q, member, name, -⟩ := known
  exact name ▸ Pair.name_ne_of_mem valid member

theorem core_submit (valid : Pair.validateStore c d.store = .ok ()) (env : Env) (requester : Requester)
    (origin : BodyId) (argv : List String) (id : String) (cert : Option Certificate)
    (submits : d.Submits requester ⟨id, ⟨d.store.bodyName⟩, argv, origin, .running, [], []⟩ cert) :
    Core c env d (d.submit c env requester origin argv id cert).1 := by
  unfold submit
  cases checked : Exec.precheck c d.store origin argv id cert with
  | error e => exact .idle rfl rfl rfl rfl
  | ok found =>
  cases found with
  | some job => exact .idle rfl rfl rfl rfl
  | none =>
  obtain ⟨admissible, -, startable⟩ := Exec.precheck_eq_none checked
  have nonempty := (Limits.invocation_eq_ok admissible).2.1
  dsimp only
  rcases update_cases (d := d) (c := c) env.epochId env.fault
      (Exec.admitEdit c (d.surroundings env) origin argv id cert)
      (fun admitted => (admitted.2.map (Act.admitted id)).toList) with
    ⟨e, same⟩ | ⟨next, ⟨job, granted⟩, staged, same⟩
  · rw [same]
    exact .idle rfl rfl rfl rfl
  · rw [same]
    obtain ⟨edited, ran, desk, key, -⟩ := Store.stage_desk staged
    obtain ⟨⟨deed, ⟨allowed, done⟩, cases⟩, ownerSk, -⟩ := Exec.admit_does ran startable nonempty
    have saved := valid_of_stage (c := c) (d := d) (valid_of_does valid ⟨allowed, done⟩ ownerSk
      (by rcases cases with ⟨g, -, rfl, -⟩ | ⟨-, rfl⟩ <;> rfl)
      (by rcases cases with ⟨g, -, rfl, -⟩ | ⟨-, rfl⟩ <;> rfl)) staged ran
    rcases cases with ⟨g, rfl, rfl, granted, rfl, -⟩ | ⟨rfl, rfl⟩
    · refine .admitted requester _ g next cert ⟨submits, checked, granted⟩ ⟨allowed, desk.trans done⟩ saved
        ?_ ?_ ?_ ?_
      · cases env.fault <;> rfl
      · cases env.fault <;> rfl
      · cases env.fault <;> rfl
      · cases env.fault <;> rfl
    · refine .saved _ rfl next env.fault ⟨allowed, desk.trans done⟩ saved ?_ ?_ ?_ ?_ <;>
        cases env.fault <;> rfl

theorem core_rename (env : Env) (name : Option String) :
    Core c env d (d.rename c env name) := by
  unfold rename
  dsimp only
  split
  · exact .idle rfl rfl rfl rfl
  next checked =>
  apply core_of_update
  intro edited value ran
  unfold renameEdit at ran
  dsimp only at ran
  rw [bind_eq_ok] at ran
  obtain ⟨⟨⟩, renamed, ran⟩ := ran
  cases ran
  unfold checkName at checked
  rw [bind_eq_ok] at checked
  obtain ⟨⟨⟩, named, checked⟩ := checked
  rw [bind_eq_ok] at checked
  obtain ⟨⟨⟩, -, checked⟩ := checked
  rw [refuseIf_eq_ok, not_and_or, not_not, not_not] at checked
  rw [Pair.validateName, refuseIf_eq_ok, Bool.not_eq_false] at named
  rcases checked with same | ⟨peers, jobs, grants⟩
  · refine ⟨.quiet, Store.does_quiet ?_, rfl, rfl, renamed⟩
    rw [Store.desk, Store.desk, same]
  · refine ⟨.rename (name.getD d.store.bodyName), ⟨⟨named, peers, .inr ⟨?_, grants⟩⟩, rfl⟩, rfl, rfl, renamed⟩
    change d.store.jobs.map Job.row = []
    rw [jobs]
    rfl

/-- A completion does nothing, is refused before its save, or is saved or not. -/
theorem finish_cases (sound : Sound c d) (env : Env) (id : String) :
    d.finish c env id = d ∨ ∃ task outcome, d.task? id = some task ∧ task.phase = .ended outcome ∧
      ((∃ e, d.finish c env id = d.setPhase id (.unsaved e)) ∨
        ∃ next phase, d.store.Does (.finish (Exec.finished task.grant.tool task.run outcome).row task.grant
            outcome.success) next ∧ Pair.validateStore c next = .ok () ∧
          (phase = .finished ∧ env.fault = none ∨ ∃ e, phase = .unsaved e ∧ env.fault.isSome = true) ∧
          d.finish c env id = { d with cell := d.commit ⟨next, d.acts⟩ env.fault }.setPhase id phase) := by
  unfold finish
  cases found : d.task? id with
  | none => exact .inl rfl
  | some task =>
  obtain ⟨run, grant, phase, admission⟩ := task
  have named : run.id = id := task?_id found
  cases phase with
  | pending | running | finished => exact .inl rfl
  | unsaved e => exact .inl rfl
  | ended outcome =>
    subst named
    refine .inr ⟨_, outcome, rfl, rfl, ?_⟩
    dsimp only
    unfold quietUpdate
    rcases update_cases (d := d) (c := c) env.epochId env.fault (Exec.finishEdit grant run outcome)
        (fun _ => []) with ⟨e, same⟩ | ⟨next, value, staged, same⟩
    · rw [same]
      exact .inl ⟨e, rfl⟩
    · rw [same]
      obtain ⟨edited, ran, desk, key, -⟩ := Store.stage_desk staged
      have going := sound.running _ _ found nofun
      obtain ⟨⟨allowed, done⟩, ownerSk, -⟩ := Exec.finishEdit_does going (sound.tools _ _ found) ran
      have saved := valid_of_stage (c := c) (d := d)
        (valid_of_does sound.valid ⟨allowed, done⟩ ownerSk rfl rfl) staged ran
      cases env.fault with
      | none => exact .inr ⟨next, .finished, ⟨allowed, desk.trans done⟩, saved, .inl ⟨rfl, rfl⟩, rfl⟩
      | some fault =>
        exact .inr ⟨next, .unsaved fault.error, ⟨allowed, desk.trans done⟩, saved, .inr ⟨_, rfl, rfl⟩, rfl⟩

theorem core_finish (sound : Sound c d) (env : Env) (id : String) : Core c env d (d.finish c env id) := by
  rcases finish_cases (c := c) sound env id with same | ⟨task, outcome, found, ended, ⟨e, same⟩ | saved⟩
  · rw [same]
    exact .idle rfl rfl rfl rfl
  · obtain rfl : task.run.id = id := task?_id found
    rw [same]
    exact .refused task found outcome ended e rfl rfl rfl rfl
  · obtain rfl : task.run.id = id := task?_id found
    obtain ⟨next, phase, does, valid, kind, same⟩ := saved
    rw [same]
    exact .finished task found outcome ended next env.fault does valid rfl ⟨phase, kind, rfl⟩ rfl rfl

theorem core_launch (id : String) (spawnError : Option String) : Core c env d (d.launch id spawnError) := by
  unfold launch
  cases found : d.task? id with
  | none => exact .idle rfl rfl rfl rfl
  | some task =>
  obtain ⟨run, grant, phase, admission⟩ := task
  have named : run.id = id := task?_id found
  subst named
  cases phase with
  | running | finished => exact .idle rfl rfl rfl rfl
  | ended _ | unsaved _ => exact .idle rfl rfl rfl rfl
  | pending =>
    dsimp only
    cases made : Exec.command grant run.argv with
    | error e =>
      exact .launched ⟨run, grant, .pending, admission⟩ found rfl rfl rfl (.inl ⟨e.text, rfl, rfl⟩)
    | ok command =>
      cases spawnError with
      | some e =>
        exact .launched ⟨run, grant, .pending, admission⟩ found rfl rfl rfl (.inl ⟨e, rfl, rfl⟩)
      | none =>
        exact .launched ⟨run, grant, .pending, admission⟩ found rfl rfl rfl
          (.inr ⟨command, made, rfl, rfl⟩)

theorem core_collect (id : String) (streams : Except String (Bytes × Bytes)) (waitError : Option String) :
    Core c env d (d.collect id streams waitError) := by
  unfold collect
  cases found : d.task? id with
  | none => exact .idle rfl rfl rfl rfl
  | some task =>
  obtain ⟨run, grant, phase, admission⟩ := task
  have named : run.id = id := task?_id found
  subst named
  cases phase with
  | pending | finished => exact .idle rfl rfl rfl rfl
  | ended _ | unsaved _ => exact .idle rfl rfl rfl rfl
  | running =>
    dsimp only
    cases waitError with
    | some e =>
      exact .collected ⟨run, grant, .running, admission⟩ found rfl (Exec.captured streams (.error e))
        nofun rfl rfl rfl rfl
    | none =>
      cases exit : d.exitOf run.id with
      | none => exact .idle rfl rfl rfl rfl
      | some status =>
        refine .collected ⟨run, grant, .running, admission⟩ found rfl (Exec.captured streams (.ok status))
          (fun _ => ⟨status, exit, ?_⟩) rfl rfl rfl rfl
        rw [Exec.captured]
        cases Exec.readStreams streams <;> rfl

theorem core_giveUp (id : String) : Core c env d (d.giveUp id) := by
  unfold giveUp
  cases found : d.task? id with
  | none => exact .idle rfl rfl rfl rfl
  | some task =>
  obtain ⟨run, grant, phase, admission⟩ := task
  have named : run.id = id := task?_id found
  subst named
  cases phase with
  | pending | running | finished => exact .idle rfl rfl rfl rfl
  | ended _ => exact .idle rfl rfl rfl rfl
  | unsaved e => exact .gaveUp ⟨run, grant, .unsaved e, admission⟩ found e rfl rfl rfl rfl rfl

theorem core_release (id : String) : Core c env d (d.release id) := by
  unfold release
  cases found : d.task? id with
  | none => exact .idle rfl rfl rfl rfl
  | some task =>
  obtain ⟨run, grant, phase, admission⟩ := task
  have named : run.id = id := task?_id found
  subst named
  cases phase with
  | pending | running => exact .idle rfl rfl rfl rfl
  | ended _ | unsaved _ => exact .idle rfl rfl rfl rfl
  | finished => exact .released ⟨run, grant, .finished, admission⟩ found rfl rfl rfl rfl rfl

theorem core_exited (id : String) (status : Exec.ExitStatus) : Core c env d (d.exited id status) := by
  unfold exited
  split_ifs with allowed
  · obtain ⟨start, member, same⟩ := List.any_eq_true.mp allowed.1
    exact .exited id status ⟨start, member, by simpa using same⟩ allowed.2 rfl rfl rfl rfl
  · exact .idle rfl rfl rfl rfl

/-- Only the saved state, the tasks, the children and the exits matter. -/
theorem Core.congr {a b : Daemon} (core : Core c env d a) (cell' : b.cell = a.cell) (tasks' : b.tasks = a.tasks)
    (starts' : b.starts = a.starts) (exits' : b.exits = a.exits) : Core c env d b := by
  cases core with
  | idle cell tasks starts exits =>
    exact .idle (cell'.trans cell) (tasks'.trans tasks) (starts'.trans starts) (exits'.trans exits)
  | noted f desk key cell tasks starts exits =>
    exact .noted f desk key (cell'.trans cell) (tasks'.trans tasks) (starts'.trans starts)
      (exits'.trans exits)
  | saved deed plain next fault does valid cell tasks starts exits =>
    exact .saved deed plain next fault does valid (cell'.trans cell) (tasks'.trans tasks)
      (starts'.trans starts) (exits'.trans exits)
  | admitted requester job grant next cert granted does valid cell tasks starts exits =>
    exact .admitted requester job grant next cert granted does valid (cell'.trans cell) (tasks'.trans tasks)
      (starts'.trans starts) (exits'.trans exits)
  | launched task found pending cell exits outcome =>
    exact .launched task found pending (cell'.trans cell) (exits'.trans exits)
      (by rw [tasks', starts']; exact outcome)
  | exited id status started first cell tasks starts exits =>
    exact .exited id status started first (cell'.trans cell) (tasks'.trans tasks) (starts'.trans starts)
      (exits'.trans exits)
  | collected task found running outcome known cell tasks starts exits =>
    exact .collected task found running outcome known (cell'.trans cell) (tasks'.trans tasks)
      (starts'.trans starts) (exits'.trans exits)
  | finished task found outcome ended next fault does valid cell tasks starts exits =>
    exact .finished task found outcome ended next fault does valid (cell'.trans cell)
      (by rw [tasks']; exact tasks) (starts'.trans starts) (exits'.trans exits)
  | refused task found outcome ended e cell tasks starts exits =>
    exact .refused task found outcome ended e (cell'.trans cell) (tasks'.trans tasks)
      (starts'.trans starts) (exits'.trans exits)
  | gaveUp task found e unsaved cell tasks starts exits =>
    exact .gaveUp task found e unsaved (cell'.trans cell) (tasks'.trans tasks) (starts'.trans starts)
      (exits'.trans exits)
  | released task found spent cell tasks starts exits =>
    exact .released task found spent (cell'.trans cell) (tasks'.trans tasks) (starts'.trans starts)
      (exits'.trans exits)

/-- A failed attempt leaves what the update did. -/
theorem core_attempt {α : Type} {dispatch : Dispatch} {done : Daemon × Result α}
    (core : Core c env d done.1) : Core c env d (attempt dispatch done) := by
  obtain ⟨after, result⟩ := done
  cases result with
  | ok value => exact core
  | error e => exact core.congr rfl rfl rfl rfl

theorem core_answer (sound : Sound c d) (env : Env) (dispatch : Dispatch) (incoming : Job) :
    Core c env d (d.answer c env dispatch incoming) := by
  unfold answer
  cases snapshot : dispatch.peer with
  | none => exact .idle rfl rfl rfl rfl
  | some peer =>
  dsimp only
  split_ifs with absent
  · exact .idle rfl rfl rfl rfl
  cases checked : Dispatch.peerResult d.store peer.name incoming with
  | error e => exact .idle rfl rfl rfl rfl
  | ok found =>
  cases found with
  | none => exact .idle rfl rfl rfl rfl
  | some job =>
    apply core_attempt
    apply core_of_update
    intro edited value ran
    obtain ⟨-, -, old, present, body, active, same⟩ := Dispatch.peerResult_eq_some checked
    rw [not_or, not_not] at absent
    have other : old.body.name ≠ d.store.bodyName := by
      rw [body]
      exact name_ne_of_knows sound.valid ((sound.dispatches dispatch absent.1).2 peer snapshot)
    obtain ⟨does, key, -⟩ := Dispatch.putJobEdit_does present active other same ran
    exact ⟨_, does, rfl, rfl, valid_of_does sound.valid does key rfl rfl⟩

theorem core_answerCertified (sound : Sound c d) (env : Env) (dispatch : Dispatch)
    (published : Published) : Core c env d (d.answerCertified c env dispatch published) := by
  unfold answerCertified
  cases snapshot : dispatch.peer with
  | none => exact .idle rfl rfl rfl rfl
  | some peer =>
  dsimp only
  split_ifs with absent
  · exact .idle rfl rfl rfl rfl
  apply core_attempt
  apply core_of_update
  intro edited value ran
  rw [not_or, not_not] at absent
  have other := name_ne_of_knows sound.valid ((sound.dispatches dispatch absent.1).2 peer snapshot)
  obtain ⟨⟨deed, kind, does⟩, key, -⟩ := History.acceptRunnerReply_does other ran
  rcases kind with rfl | ⟨id, status, rfl⟩
  · exact ⟨_, does, rfl, rfl, valid_of_does sound.valid does key rfl rfl⟩
  · exact ⟨_, does, rfl, rfl, valid_of_does sound.valid does key rfl rfl⟩

theorem core_settle (sound : Sound c d) (env : Env) (dispatch : Dispatch) (e : ClixError) :
    Core c env d (d.settle c env dispatch e) := by
  unfold settle
  split_ifs with known
  swap
  · exact .idle rfl rfl rfl rfl
  cases changed : Dispatch.undelivered d.store dispatch.job.id e with
  | none => exact .idle rfl rfl rfl rfl
  | some job =>
    apply core_of_update
    intro edited value ran
    obtain ⟨old, present, named, active, same⟩ := Dispatch.undelivered_eq_some changed
    obtain ⟨row, found, other⟩ := (sound.undelivered _ known).1
    rw [Store.row?_desk, ← named, present] at found
    obtain rfl : old.row = row := Option.some.inj found
    obtain ⟨does, key, -⟩ := Dispatch.putJobEdit_does present active other (by rw [same]; rfl) ran
    exact ⟨_, does, rfl, rfl, valid_of_does sound.valid does key rfl rfl⟩

theorem core_submitDraft (sound : Sound c d) (env : Env) (draft : Draft) :
    Core c env d (d.submitDraft c env draft) := by
  unfold submitDraft
  cases made : Dispatch.newJob env.newId draft.origin draft.body draft.argv with
  | error e => exact .idle rfl rfl rfl rfl
  | ok job =>
    dsimp only
    split_ifs with skipped
    · exact .idle rfl rfl rfl rfl
    apply core_of_update
    intro edited value ran
    rw [not_or, Bool.not_eq_true, Option.isSome_eq_false_iff, Option.isNone_iff_eq_none] at skipped
    have queued : job.status = .queued := by
      rw [Dispatch.newJob, bind_eq_ok] at made
      obtain ⟨id, -, made⟩ := made
      rw [bind_eq_ok] at made
      obtain ⟨⟨⟩, -, made⟩ := made
      cases made
      rfl
    obtain ⟨does, key, -⟩ := Dispatch.appendEdit_does queued skipped.2 ran
    exact ⟨_, does, rfl, rfl, valid_of_does sound.valid does key rfl rfl⟩

theorem core_pair (env : Env) (name : String) (key : Bytes) (peer : Peer) :
    Core c env d (d.pair c env name key peer) := by
  unfold pair
  split_ifs
  · exact .idle rfl rfl rfl rfl
  apply core_of_update
  intro edited value ran
  rw [pairEdit, bind_eq_ok] at ran
  obtain ⟨t, updated, ran⟩ := ran
  cases ran
  obtain ⟨valid, frame, kept⟩ := Pair.updatePeer_eq_ok updated
  refine ⟨.pair edited.peers, ⟨kept, ?_⟩, rfl, rfl, valid⟩
  rw [frame]
  rfl

theorem core_sendRequest (sound : Sound c d) (env : Env) (body tool : String) :
    Core c env d (d.sendRequest c env body tool) := by
  unfold sendRequest
  split
  · exact .idle rfl rfl rfl rfl
  · exact core_of_quiet sound.valid _ (fun edited value ran => by cases ran; exact ⟨rfl, rfl⟩)

theorem core_settleRequest (sound : Sound c d) (env : Env) (id : String) (result : Result Unit) :
    Core c env d (d.settleRequest c env id result) := by
  unfold settleRequest
  split
  · exact .idle rfl rfl rfl rfl
  · split_ifs
    · exact .idle rfl rfl rfl rfl
    · refine core_of_quiet sound.valid _ (fun edited value ran => ?_)
      cases ran
      unfold settleOutbound
      split <;> exact ⟨rfl, rfl⟩

theorem core_mergePage (sound : Sound c d) (env : Env) (sync : Sync) (page : Page) :
    Core c env d (d.mergePage c env sync page) := by
  unfold mergePage
  split_ifs
  · exact .idle rfl rfl rfl rfl
  · refine core_of_quiet sound.valid _ (fun edited value ran => ?_)
    rw [bind_eq_ok] at ran
    obtain ⟨t, merged, ran⟩ := ran
    cases ran
    have same := History.mergePage_samePublished merged
    exact ⟨same.desk, same.ownerSk⟩

/-- Every step but a restart is one of the listed changes. -/
theorem core_liveStep (sound : Sound c d) (env : Env) (e : Event) (running : ∀ boot, e ≠ .restart boot) :
    Core c env d (d.liveStep c env e) := by
  cases e with
  | accept key =>
    change Core c env d (d.accept c key)
    unfold accept
    split_ifs
    · exact .idle rfl rfl rfl rfl
    · split <;> exact .idle rfl rfl rfl rfl
  | exec peer id argv =>
    change Core c env d (d.exec c env peer id argv)
    unfold exec
    split_ifs with refused
    · exact .idle rfl rfl rfl rfl
    · rw [not_or, not_not] at refused
      exact core_submit sound.valid env _ _ _ _ _ (.peer _ peer refused.1 rfl)
  | authorize peer cert =>
    change Core c env d (d.authorize c peer cert)
    unfold authorize
    split
    · exact .idle rfl rfl rfl rfl
    · split <;> exact .idle rfl rfl rfl rfl
  | execCertified peer cert =>
    change Core c env d (d.execCertified c env peer cert)
    unfold execCertified
    dsimp only
    split_ifs with refused
    · exact .idle rfl rfl rfl rfl
    · rw [not_or, not_not] at refused
      exact core_submit sound.valid env _ _ _ _ _ (.certified _ peer cert refused.1 rfl rfl rfl)
  | request peer tool deliveryId =>
    dsimp only [liveStep]
    split
    · exact .idle rfl rfl rfl rfl
    · refine core_of_quiet sound.valid _ (fun edited value ran => ?_)
      obtain ⟨desk, key, -⟩ := Request.receive_desk ran
      exact ⟨desk, key⟩
  | add tool allow once expiry schedule args =>
    refine core_of_update _ _ _ _ (fun edited value ran => ?_)
    obtain ⟨grants, does, key, -⟩ := Grant.addWithArgs_does ran
    exact ⟨_, does, rfl, rfl, valid_of_does sound.valid does key rfl rfl⟩
  | remove tool =>
    refine core_of_update _ _ _ _ (fun edited value ran => ?_)
    obtain ⟨grants, does, key, -⟩ := Grant.remove_does ran
    exact ⟨_, does, rfl, rfl, valid_of_does sound.valid does key rfl rfl⟩
  | decide id decision =>
    refine core_of_update _ _ _ _ (fun edited value ran => ?_)
    obtain ⟨kinds, key, -⟩ := Request.decide_does ran
    rcases kinds with ⟨rfl, does⟩ | ⟨granted, grants, rfl, does⟩
    · exact ⟨_, does, rfl, rfl, valid_of_does sound.valid does key rfl rfl⟩
    · exact ⟨_, does, rfl, rfl, valid_of_does sound.valid does key rfl rfl⟩
  | ask tool =>
    refine core_of_quiet sound.valid _ (fun edited value ran => ?_)
    obtain ⟨desk, key, -⟩ := Request.upsert_desk ran
    exact ⟨desk, key⟩
  | sendRequest body tool => exact core_sendRequest sound env body tool
  | settleRequest id result => exact core_settleRequest sound env id result
  | prune keep =>
    refine core_of_quiet sound.valid _ (fun edited value ran => ?_)
    have same := Storage.prune_samePruned ran
    exact ⟨same.desk, same.ownerSk⟩
  | compose body argv =>
    change Core c env d (d.compose body argv)
    unfold compose
    split <;> exact .idle rfl rfl rfl rfl
  | retry id =>
    change Core c env d (d.retry id)
    unfold retry
    split <;> exact .idle rfl rfl rfl rfl
  | submit draft => exact core_submitDraft sound env draft
  | rename name => exact core_rename env name
  | pair name key peer => exact core_pair env name key peer
  | pin index enabled =>
    exact core_of_quiet sound.valid _ (fun edited value ran => by cases ran; exact ⟨rfl, rfl⟩)
  | selectJob id =>
    change Core c env d (d.selectJob id)
    unfold selectJob
    split <;> exact .idle rfl rfl rfl rfl
  | answer dispatch incoming => exact core_answer sound env dispatch incoming
  | answerCertified dispatch published => exact core_answerCertified sound env dispatch published
  | fail dispatch e =>
    dsimp only [liveStep]
    split_ifs <;> exact .idle rfl rfl rfl rfl
  | settle dispatch e => exact core_settle sound env dispatch e
  | selectLocal id =>
    change Core c env d (d.selectLocal id)
    unfold selectLocal
    split <;> exact .idle rfl rfl rfl rfl
  | submitLocal job =>
    change Core c env d (d.submitLocal c env job)
    unfold submitLocal
    split
    · exact .idle rfl rfl rfl rfl
    · next selected =>
      have core := core_submit (d := d) sound.valid env .own job.origin job.argv job.id none
        (.own _ job (not_not.mp selected) rfl rfl rfl)
      cases done : d.submit c env .own job.origin job.argv job.id none with
      | mk after result =>
        rw [done] at core
        cases result with
        | ok value => exact core
        | error e => exact core.congr rfl rfl rfl rfl
  | settleLocal job e =>
    change Core c env d (d.settleLocal c env job e)
    unfold settleLocal
    split
    · exact .idle rfl rfl rfl rfl
    · refine core_of_update _ _ _ _ (fun edited value ran => ?_)
      obtain ⟨⟨deed, does, kind⟩, key, -⟩ := Dispatch.localError_does ran
      rcases kind with rfl | ⟨status, rfl⟩
      · exact ⟨_, does, rfl, rfl, valid_of_does sound.valid does key rfl rfl⟩
      · exact ⟨_, does, rfl, rfl, valid_of_does sound.valid does key rfl rfl⟩
  | startSync peer =>
    change Core c env d (d.startSync peer)
    unfold startSync
    split <;> exact .idle rfl rfl rfl rfl
  | mergePage sync page => exact core_mergePage sound env sync page
  | contact peer lastContact e => exact .noted _ rfl rfl rfl rfl rfl rfl
  | launch id spawnError => exact core_launch id spawnError
  | exited id status => exact core_exited id status
  | collect id streams waitError => exact core_collect id streams waitError
  | finish id => exact core_finish sound env id
  | giveUp id => exact core_giveUp id
  | release id => exact core_release id
  | restart boot => exact absurd rfl (running boot)

end Daemon

end Clix
