import Mathlib.Data.List.Induction
import Clix.Proofs.Images

/-! # Invariants of every run

`Inv` ties the tasks and children of a machine to its rows. Every step keeps it, so it holds in every
state reached from an installed machine.
-/

namespace Clix

open Except DurableCell

namespace Daemon

variable {c : Crypto} {d d' : Daemon} {env : Env}

@[simp] theorem mem_commit_none (saved : Image) : (d.commit saved none).mem = saved := rfl

@[simp] theorem mem_commit_some (saved : Image) (fault : Fault) :
    (d.commit saved (some fault)).mem = ⟨d.store.stoppedBy (some fault), d.acts⟩ := by
  obtain ⟨step, e⟩ := fault
  cases step <;> rfl

/-- What memory holds after a step other than a restart, abstractly. -/
theorem desk_core (sound : Sound c d) (core : Core c env d d') :
    ∃ deed, d.store.desk.Allows deed ∧ d'.store.desk = d.store.desk.apply deed := by
  have kept : ∀ cell, d'.cell = cell → cell.mem.store.desk = d.store.desk →
      ∃ deed, d.store.desk.Allows deed ∧ d'.store.desk = d.store.desk.apply deed := by
    rintro cell rfl same
    exact ⟨.quiet, trivial, same⟩
  have replaced : ∀ deed next acts fault, d'.cell = d.commit ⟨next, acts⟩ fault →
      d.store.Does deed next → ∃ deed, d.store.desk.Allows deed ∧
        d'.store.desk = d.store.desk.apply deed := by
    intro deed next acts fault cell does
    cases fault with
    | none => exact ⟨deed, does.1, (congrArg (fun x => x.mem.store.desk) cell).trans does.2⟩
    | some fault => exact kept _ cell (by rw [mem_commit_some]; rfl)
  cases core with
  | idle cell | launched _ _ _ cell | exited _ _ _ _ cell | collected _ _ _ _ _ cell
  | refused _ _ _ _ _ cell | released _ _ _ cell => exact kept _ cell rfl
  | noted f desk key cell => exact kept _ cell desk
  | saved deed plain next fault does valid cell => exact replaced deed next _ fault cell does
  | admitted requester job grant next cert granted does valid cell => exact replaced _ next _ env.fault cell does
  | finished task found outcome ended next fault does valid cell => exact replaced _ next _ fault cell does
  | gaveUp task found e unsaved cell =>
    obtain ⟨old, present, going, body, -, -, own⟩ := sound.running _ _ found (by rw [unsaved]; nofun)
    refine ⟨.lose task.run.id (Exec.unsavedReason e), ⟨old, present, going, by rw [body]; exact own⟩, ?_⟩
    rw [store, cell]
    exact Store.desk_setStatus _ _ _

theorem valid_core (sound : Sound c d) (core : Core c env d d') : Pair.validateStore c d'.store = .ok () := by
  have same : ∀ s : Store, d'.store = s → s.bodyName = d.store.bodyName → s.ownerSk = d.store.ownerSk →
      s.peers = d.store.peers → Pair.validateStore c d'.store = .ok () := by
    rintro s rfl name key peers
    rw [Pair.validateStore_congr name key peers]
    exact sound.valid
  have replaced : ∀ next acts fault, d'.cell = d.commit ⟨next, acts⟩ fault →
      Pair.validateStore c next = .ok () → Pair.validateStore c d'.store = .ok () := by
    intro next acts fault cell valid
    cases fault with
    | none => rwa [store, cell]
    | some fault => exact same (d.store.stoppedBy (some fault)) (by rw [store, cell, mem_commit_some]) rfl rfl rfl
  cases core with
  | idle cell | launched _ _ _ cell | exited _ _ _ _ cell | collected _ _ _ _ _ cell
  | refused _ _ _ _ _ cell | released _ _ _ cell =>
    exact same d.store (by rw [store, cell]; rfl) rfl rfl rfl
  | noted f desk key cell =>
    exact same (f d.store) (by rw [store, cell]; rfl) (congrArg Desk.name desk) key (congrArg Desk.peers desk)
  | saved deed plain next fault does valid cell => exact replaced next _ fault cell valid
  | admitted requester job grant next cert granted does valid cell => exact replaced next _ env.fault cell valid
  | finished task found outcome ended next fault does valid cell => exact replaced next _ fault cell valid
  | gaveUp task found e unsaved cell =>
    exact same (Exec.setStatus d.store task.run.id (Exec.unsavedStatus e)) (by rw [store, cell]; rfl)
      rfl rfl rfl

theorem isName_of_sound (sound : Sound c d) : Pair.isName d.store.desk.name = true :=
  (Pair.validateStore_eq_ok sound.valid).1

/-! ### Tasks -/

theorem task?_setPhase_self (d : Daemon) (id : String) (phase : Phase) :
    (d.setPhase id phase).task? id = (d.task? id).map (fun t => { t with phase := phase }) :=
  List.find?_modifyFirst (fun t : Task => t.run.id == id) (fun t => { t with phase := phase })
    (fun _ same => same) d.tasks

theorem task?_setPhase_of_ne (d : Daemon) {id id' : String} (phase : Phase) (differs : id ≠ id') :
    (d.setPhase id phase).task? id' = d.task? id' := by
  refine List.find?_modifyFirst_of_ne _ _ _ d.tasks ?_ ?_ <;>
  · intro t same
    have equal : t.run.id = id := by simpa using same
    simpa [equal] using differs

theorem setPhase_ids (d : Daemon) (id : String) (phase : Phase) :
    (d.setPhase id phase).tasks.map (·.run.id) = d.tasks.map (·.run.id) :=
  List.map_modifyFirst_of_eq _ _ _ _ (fun _ _ _ => rfl)

theorem task?_congr (tasks : d'.tasks = d.tasks) (id : String) : d'.task? id = d.task? id := by
  rw [task?, tasks, task?]

/-- A task after the phase of one was set. -/
theorem task?_setPhase {id id' : String} {phase : Phase} {old task : Task} (found : d.task? id = some old)
    (after : (d.setPhase id phase).task? id' = some task) :
    (id = id' ∧ task = { old with phase := phase }) ∨ (id ≠ id' ∧ d.task? id' = some task) := by
  by_cases equal : id = id'
  · subst equal
    rw [task?_setPhase_self, found] at after
    exact .inl ⟨rfl, (Option.some.inj after).symm⟩
  · rw [task?_setPhase_of_ne d phase equal] at after
    exact .inr ⟨equal, after⟩

theorem task?_eraseP (distinct : (d.tasks.map (·.run.id)).Nodup) {id id' : String} {task : Task}
    (tasks : d'.tasks = d.tasks.eraseP (fun t => t.run.id == id)) (after : d'.task? id' = some task) :
    id ≠ id' ∧ d.task? id' = some task := by
  have named : task.run.id = id' := task?_id after
  have member : task ∈ d.tasks.eraseP (fun t => t.run.id == id) := tasks ▸ List.mem_of_find?_eq_some after
  obtain ⟨present, other⟩ := List.mem_eraseP_key (fun t : Task => t.run.id) distinct member
  exact ⟨named ▸ other.symm, named ▸ List.find?_key_of_mem (fun t : Task => t.run.id) distinct present⟩

/-- A run that is not recorded as over is still a running job, whatever else happens. -/
theorem running_core (sound : Sound c d) (distinct : (d.tasks.map (·.run.id)).Nodup) (core : Core c env d d')
    (id : String) (task : Task) (found' : d'.task? id = some task) (going : task.phase ≠ .finished) :
    d'.store.desk.Running task.run.row := by
  have named := isName_of_sound sound
  have same : d'.store.desk = d.store.desk → d.store.desk.Running task.run.row →
      d'.store.desk.Running task.run.row := fun desk running => desk ▸ running
  have replaced : ∀ deed next acts fault, d'.cell = d.commit ⟨next, acts⟩ fault → d.store.Does deed next →
      d.store.desk.Running task.run.row →
      ¬deed.Ends task.run.id → d'.store.desk.Running task.run.row := by
    intro deed next acts fault cell does running kept
    cases fault with
    | none =>
      have desk : d'.store.desk = d.store.desk.apply deed := by
        rw [store, cell]
        exact does.2
      exact desk ▸ running.apply named does.1 kept
    | some fault => exact same (by rw [store, cell, mem_commit_some]; rfl) running
  cases core with
  | idle cell tasks =>
    exact same (by rw [store, cell]; rfl) (sound.running id task (task?_congr tasks id ▸ found') going)
  | exited _ _ _ _ cell tasks =>
    exact same (by rw [store, cell]; rfl) (sound.running id task (task?_congr tasks id ▸ found') going)
  | noted f desk key cell tasks =>
    exact same (by rw [store, cell]; exact desk)
      (sound.running id task (task?_congr tasks id ▸ found') going)
  | saved deed plain next fault does valid cell tasks =>
    exact replaced deed next _ fault cell does
      (sound.running id task (task?_congr tasks id ▸ found') going) (Desk.not_ends_of_isPlain plain _)
  | admitted requester job grant next cert granted does valid cell tasks =>
    have old (before : d.task? id = some task) := replaced _ next _ env.fault cell does
      (sound.running id task before going) not_false
    cases fault : env.fault with
    | some failure =>
      rw [fault] at tasks
      exact old (task?_congr tasks id ▸ found')
    | none =>
      rw [fault] at tasks cell
      rw [task?, tasks, Option.isNone_none, if_pos rfl, List.find?_append, Option.or_eq_some_iff] at found'
      rcases found' with before | ⟨-, new⟩
      · exact old before
      · obtain rfl := List.mem_singleton.mp (List.mem_of_find?_eq_some new)
        have desk : d'.store.desk = d.store.desk.apply (.accept job.row grant) := by
          rw [store, cell]
          exact does.2
        obtain ⟨⟨own, -⟩, running, -⟩ := does.1
        rw [desk]
        exact ⟨job.row, Desk.row?_putRow_self _ _, running, rfl, rfl, rfl, own⟩
  | launched moved found pending cell exits outcome =>
    refine same (by rw [store, cell]; rfl) ?_
    have after : ∃ phase, (d.setPhase moved.run.id phase).task? id = some task := by
      rcases outcome with ⟨e, tasks, -⟩ | ⟨command, -, tasks, -⟩
      · exact ⟨_, task?_congr tasks id ▸ found'⟩
      · exact ⟨_, task?_congr tasks id ▸ found'⟩
    obtain ⟨phase, after⟩ := after
    rcases task?_setPhase found after with ⟨-, rfl⟩ | ⟨-, before⟩
    · exact sound.running _ moved found (by rw [pending]; nofun)
    · exact sound.running id task before going
  | collected moved found running outcome known cell tasks =>
    refine same (by rw [store, cell]; rfl) ?_
    rcases task?_setPhase found (task?_congr tasks id ▸ found') with ⟨-, rfl⟩ | ⟨-, before⟩
    · exact sound.running _ moved found (by rw [running]; nofun)
    · exact sound.running id task before going
  | refused moved found outcome ended e cell tasks =>
    refine same (by rw [store, cell]; rfl) ?_
    rcases task?_setPhase found (task?_congr tasks id ▸ found') with ⟨-, rfl⟩ | ⟨-, before⟩
    · exact sound.running _ moved found (by rw [ended]; nofun)
    · exact sound.running id task before going
  | finished moved found outcome ended next fault does valid cell tasks =>
    obtain ⟨phase, kind, tasks⟩ := tasks
    rcases task?_setPhase found (task?_congr tasks id ▸ found') with ⟨-, rfl⟩ | ⟨other, before⟩
    · rcases kind with ⟨rfl, -⟩ | ⟨e, rfl, failed⟩
      · exact absurd rfl going
      · obtain ⟨failure, rfl⟩ := Option.isSome_iff_exists.mp failed
        exact same (by rw [store, cell, mem_commit_some]; rfl)
          (sound.running _ moved found (by rw [ended]; nofun))
    · refine replaced _ next _ fault cell does (sound.running id task before going) ?_
      change (Exec.finished moved.grant.tool moved.run outcome).row.id ≠ task.run.id
      rw [Exec.finished_row, task?_id before]
      exact other
  | gaveUp moved found e unsaved cell tasks =>
    rcases task?_setPhase found (task?_congr tasks id ▸ found') with ⟨-, rfl⟩ | ⟨other, before⟩
    · exact absurd rfl going
    · obtain ⟨old, present, running, body, -, -, own⟩ := sound.running _ _ found (by rw [unsaved]; nofun)
      have desk : d'.store.desk = d.store.desk.apply (.lose moved.run.id (Exec.unsavedReason e)) := by
        rw [store, cell]
        exact Store.desk_setStatus _ _ _
      have allowed : d.store.desk.Allows (.lose moved.run.id (Exec.unsavedReason e)) :=
        ⟨old, present, running, by rw [body]; exact own⟩
      rw [desk]
      refine (sound.running id task before going).apply named allowed ?_
      change moved.run.id ≠ task.run.id
      rw [task?_id before]
      exact other
  | released spent found _ cell tasks =>
    refine same (by rw [store, cell]; rfl) ?_
    exact sound.running id task (task?_eraseP distinct tasks found').2 going

/-! ### Every reachable state -/

/-- The store a restart leaves in a live machine is valid. -/
theorem valid_restart (env : Env) (boot : Boot) (live : (d.restart c env boot).live = true) :
    Pair.validateStore c (d.restart c env boot).store = .ok () := by
  rcases restart_cases (c := c) d env boot with ⟨same, stopped⟩ | same | ⟨-, valid, same⟩
  · rw [same, stopped] at live
    cases live
  · rw [same] at live
    cases live
  · rw [same]
    generalize (d.openStore boot).repairBodyName c env boot.repairFault = opened at valid
    have kept : ∀ s t : Store, t.desk = s.desk.interrupt Store.unsavedRecoveryReason →
        t.ownerSk = s.ownerSk → Pair.validateStore c s = .ok () → Pair.validateStore c t = .ok () := by
      intro s t desk key valid
      rw [Pair.validateStore_congr (congrArg Desk.name desk) key (congrArg Desk.peers desk)]
      exact valid
    rcases recoverJobs_cases (c := c) env opened with
      same | ⟨e, same⟩ | ⟨next, ⟨does, key⟩, ⟨fault, same⟩ | ⟨f, fault, same⟩⟩
    · rwa [same]
    · rw [same]
      exact kept opened.store _ (desk_recoveryFailed _ _) rfl valid
    · rw [same, store, mem_commit_none, Pair.validateStore_congr (congrArg Desk.name does.2) key
        (congrArg Desk.peers does.2)]
      exact valid
    · rw [same]
      change Pair.validateStore c ((opened.commit ⟨next, opened.acts⟩ (some f)).mem.store.recoveryFailed f.error) =
        .ok ()
      rw [mem_commit_some]
      exact kept opened.store _ (desk_recoveryFailed _ _) rfl valid

/-- What a restart does besides the saved state. -/
structure Cleared (d d' : Daemon) : Prop where
  conns : d'.conns = []
  authorized : d'.authorized = []
  dispatches : d'.dispatches = []
  undelivered : d'.undelivered = []
  locals : d'.locals = []
  tasks : d'.tasks = []
  syncs : d'.syncs = []
  starts : d'.starts = d.starts
  exits : d'.exits = d.exits

theorem cleared_openStore (boot : Boot) (d : Daemon) : Cleared d (d.openStore boot) := by
  have saved : ∀ (e : Daemon) needed f fault, Cleared d e → Cleared d (e.saveOpened needed f fault) := by
    intro e needed f fault cleared
    unfold saveOpened
    split_ifs
    · exact cleared
    · exact { cleared with }
  unfold openStore
  dsimp only
  split_ifs
  · exact ⟨rfl, rfl, rfl, rfl, rfl, rfl, rfl, rfl, rfl⟩
  · exact saved _ _ _ _ (saved _ _ _ _ ⟨rfl, rfl, rfl, rfl, rfl, rfl, rfl, rfl, rfl⟩)

theorem Cleared.repairBodyName {opened : Daemon} (cleared : Cleared d opened) (env : Env)
    (fault : Option Fault) : Cleared d (opened.repairBodyName c env fault) := by
  rcases repairBodyName_cases (c := c) env fault opened with ⟨live, same⟩ | ⟨name, next, live, does, same⟩ <;>
  · rw [same]
    exact { cleared with }

theorem Cleared.recoverJobs {opened : Daemon} (cleared : Cleared d opened) (env : Env) :
    Cleared d (opened.recoverJobs c env) := by
  rcases recoverJobs_cases (c := c) env opened with
    same | ⟨e, same⟩ | ⟨next, -, ⟨fault, same⟩ | ⟨f, fault, same⟩⟩ <;>
  · rw [same]
    exact { cleared with }

theorem cleared_restart (env : Env) (boot : Boot) (d : Daemon) : Cleared d (d.restart c env boot) := by
  have opened := cleared_openStore boot d
  have repaired := opened.repairBodyName (c := c) env boot.repairFault
  rcases restart_cases (c := c) d env boot with ⟨same, -⟩ | same | ⟨-, -, same⟩
  · rw [same]
    exact opened
  · rw [same]
    generalize (d.openStore boot).repairBodyName c env boot.repairFault = stopped at repaired
    exact { repaired with }
  · rw [same]
    exact repaired.recoverJobs env

/-- What holds of a machine in every reachable state. -/
structure Inv (c : Crypto) (d : Daemon) : Prop where
  named : Everywhere (Image.Has (fun desk _ => Pair.isName desk.name = true)) d.cell
  unique : Everywhere (Image.Has (fun desk _ => desk.Unique)) d.cell
  /-- An ID that is settled in memory is settled in every state a restart can find. -/
  durable : ∀ id, Durable (Closed id) d.cell
  tasks : (d.tasks.map (·.run.id)).Nodup
  starts : (d.starts.map (·.run.id)).Nodup
  admitted : ∀ id ∈ d.tasks.map (·.run.id), Everywhere (Closed id) d.cell
  started : ∀ id ∈ d.starts.map (·.run.id), Everywhere (Closed id) d.cell
  pending : ∀ id task, d.task? id = some task → task.phase = .pending → id ∉ d.starts.map (·.run.id)
  live : d.live = true → Sound c d
  stopped : d.live = false → d.tasks = []

theorem anyCompletion : Completes (fun _ _ _ _ => True) d := fun _ _ _ _ _ => trivial

theorem preserved_unique : Preserved (fun _ _ _ _ => True) (fun desk _ => desk.Unique) where
  deed _ _ _ allowed _ unique := unique.apply allowed
  reload _ _ unique := unique

theorem preserved_named : Preserved (fun _ _ _ _ => True) (fun desk _ => Pair.isName desk.name = true) where
  deed _ _ _ allowed _ named := Desk.isName_apply allowed named
  reload _ _ named := named

theorem preserved_settled (id : String) : Preserved (fun _ _ _ _ => True) (fun desk _ => desk.Settled id) where
  deed _ _ _ allowed _ settled := settled.apply allowed
  reload _ _ settled := settled

theorem inv_restart (inv : Inv c d) (env : Env) (boot : Boot) : Inv c (d.restart c env boot) := by
  have cleared := cleared_restart (c := c) env boot d
  refine ⟨everywhere_restart preserved_named env boot inv.named,
    everywhere_restart preserved_unique env boot inv.unique, fun id => durable_restart (settling_settled id) env boot d, ?_, ?_,
    ?_, ?_, ?_, ?_, ?_⟩
  · rw [cleared.tasks]
    exact List.nodup_nil
  · rw [cleared.starts]
    exact inv.starts
  · rw [cleared.tasks]
    exact fun id member => absurd member List.not_mem_nil
  · rw [cleared.starts]
    exact fun id member => everywhere_restart (preserved_settled id) env boot (inv.started id member)
  · intro id task found
    rw [task?, cleared.tasks] at found
    cases found
  · intro live
    refine ⟨valid_restart env boot live, ?_, ?_, ?_, ?_, ?_, ?_, ?_, ?_⟩
    · rw [cleared.conns]
      exact fun p member => absurd member List.not_mem_nil
    · rw [cleared.authorized]
      exact fun x member => absurd member List.not_mem_nil
    · rw [cleared.dispatches]
      exact fun x member => absurd member List.not_mem_nil
    · rw [cleared.undelivered]
      exact fun x member => absurd member List.not_mem_nil
    · rw [cleared.locals]
      exact fun j member => absurd member List.not_mem_nil
    · intro id task found
      rw [task?, cleared.tasks] at found
      cases found
    · intro id task found
      rw [task?, cleared.tasks] at found
      cases found
    · rw [cleared.syncs]
      exact fun x member => absurd member List.not_mem_nil
  · exact fun _ => cleared.tasks

theorem Desk.concerns_apply {x : Dispatch} {desk : Desk} {deed : Deed} (concerns : x.Concerns desk)
    (allowed : desk.Allows deed) (named : Pair.isName desk.name = true) : x.Concerns (desk.apply deed) :=
  ⟨concerns.1.apply allowed named, fun p known => (concerns.2 p known).apply allowed⟩

/-- A selected job of another machine is the row its ID names. -/
theorem concerns_selected (unique : d.store.desk.Unique) {x : Dispatch} (member : x.job ∈ d.store.jobs)
    (outbound : Dispatch.isOutbound d.store x.job = true) (peer : x.peer = d.store.peer? x.job.body) :
    x.Concerns d.store.desk := by
  simp only [Dispatch.isOutbound, Bool.and_eq_true, decide_eq_true_eq] at outbound
  have found : d.store.desk.row? x.job.id = some x.job.row :=
    List.find?_key_of_mem (fun r : Row => r.id) unique (List.mem_map_of_mem member)
  refine ⟨⟨x.job.row, found, outbound.1.2⟩, fun p known => ?_⟩
  rw [peer] at known
  exact ⟨p, List.mem_of_find?_eq_some known, rfl, rfl⟩

/-- A selected job of this machine's own queue is the row its ID names. -/
theorem own_selected (unique : d.store.desk.Unique) {j : Job} (member : j ∈ d.store.jobs)
    (queued : Dispatch.isLocal d.store j = true) : d.store.desk.Own j.row := by
  simp only [Dispatch.isLocal, Bool.and_eq_true, decide_eq_true_eq] at queued
  have found : d.store.desk.row? j.id = some j.row :=
    List.find?_key_of_mem (fun r : Row => r.id) unique (List.mem_map_of_mem member)
  exact ⟨queued.1.1, j.row, found, rfl, rfl, rfl⟩

/-- The admission of a run: its job was saved as running before it became a task. -/
structure Admits (c : Crypto) (env : Env) (d d' : Daemon) (task : Task) : Prop where
  pending : task.phase = .pending
  does : d.store.Does (.accept task.run.row task.grant) d'.store
  clock : task.admission.clock = env.now
  before : task.admission.before = d.store
  saved : task.admission.saved = d'.store
  granted : ∃ cert, d.Granted c task.admission.requester task.admission.clock task.run cert task.grant
  durable : d'.cell.file = d'.cell.mem ∧ d'.cell.replaced = none
  acts : d'.acts = .admitted task.run.id task.grant :: d.acts
  starts : d'.starts = d.starts

/-- What a step other than a restart does to the tasks and the children. -/
inductive Flow (c : Crypto) (env : Env) (d d' : Daemon) : Prop
  | kept (tasks : d'.tasks = d.tasks) (starts : d'.starts = d.starts)
  | moved (task : Task) (found : d.task? task.run.id = some task) (phase : Phase)
      (tasks : d'.tasks = (d.setPhase task.run.id phase).tasks) (begun : phase ≠ .pending)
      (starts : d'.starts = d.starts)
  | launched (task : Task) (found : d.task? task.run.id = some task) (pending : task.phase = .pending)
      (command : Exec.Command) (made : Exec.command task.grant task.run.argv = .ok command)
      (tasks : d'.tasks = (d.setPhase task.run.id .running).tasks)
      (starts : d'.starts = ⟨command, task.run, task.grant, task.admission⟩ :: d.starts)
  | admitted (task : Task) (admits : Admits c env d d' task) (tasks : d'.tasks = d.tasks ++ [task])
  | erased (id : String) (tasks : d'.tasks = d.tasks.eraseP (fun t => t.run.id == id))
      (starts : d'.starts = d.starts)

theorem flow_core (core : Core c env d d') : Flow c env d d' := by
  cases core with
  | idle _ tasks starts | exited _ _ _ _ _ tasks starts => exact .kept tasks starts
  | noted _ _ _ _ tasks starts | saved _ _ _ _ _ _ _ tasks starts => exact .kept tasks starts
  | admitted requester job grant next cert granted does valid cell tasks starts =>
    cases fault : env.fault with
    | some failure =>
      rw [fault] at tasks
      exact .kept tasks starts
    | none =>
      rw [fault] at tasks cell
      have store : d'.store = next := by rw [store, cell, mem_commit_none]
      refine .admitted _ ⟨rfl, store.symm ▸ does, rfl, rfl, store.symm, ⟨cert, granted⟩, ?_, ?_, starts⟩ tasks
      · rw [cell]
        exact ⟨rfl, rfl⟩
      · rw [acts, cell]
        rfl
  | launched task found pending cell exits outcome =>
    rcases outcome with ⟨e, tasks, starts⟩ | ⟨command, made, tasks, starts⟩
    · exact .moved task found _ tasks nofun starts
    · exact .launched task found pending command made tasks starts
  | collected task found _ _ _ _ tasks starts => exact .moved task found _ tasks nofun starts
  | refused task found _ _ _ _ tasks starts => exact .moved task found _ tasks nofun starts
  | gaveUp task found _ _ _ tasks starts => exact .moved task found _ tasks nofun starts
  | finished task found outcome ended next fault does valid cell tasks starts =>
    obtain ⟨phase, kind, tasks⟩ := tasks
    refine .moved task found phase tasks ?_ starts
    rcases kind with ⟨rfl, -⟩ | ⟨e, rfl, -⟩ <;> nofun
  | released task _ _ _ tasks starts => exact .erased task.run.id tasks starts

/-- A task after a step other than a restart is an earlier one, or was just admitted. -/
theorem Flow.task? (flow : Flow c env d d') (distinct : (d.tasks.map (·.run.id)).Nodup) {id : String}
    {task : Task} (found : d'.task? id = some task) :
    (∃ old, d.task? id = some old ∧ old.run = task.run ∧ old.grant = task.grant ∧
      old.admission = task.admission) ∨ (task.run.id = id ∧ Admits c env d d' task) := by
  cases flow with
  | kept tasks => exact .inl ⟨task, task?_congr tasks id ▸ found, rfl, rfl, rfl⟩
  | moved old there phase tasks | launched old there _ _ _ tasks =>
    rcases task?_setPhase there (task?_congr tasks id ▸ found) with ⟨rfl, rfl⟩ | ⟨-, before⟩
    · exact .inl ⟨old, there, rfl, rfl, rfl⟩
    · exact .inl ⟨task, before, rfl, rfl, rfl⟩
  | admitted new admits tasks =>
    rw [Daemon.task?, tasks, List.find?_append, Option.or_eq_some_iff] at found
    rcases found with before | ⟨-, found⟩
    · exact .inl ⟨task, before, rfl, rfl, rfl⟩
    · obtain rfl := List.mem_singleton.mp (List.mem_of_find?_eq_some found)
      exact .inr ⟨by simpa using List.find?_some found, admits⟩
  | erased other tasks => exact .inl ⟨task, (task?_eraseP distinct tasks found).2, rfl, rfl, rfl⟩

theorem sound_core {e : Event} (inv : Inv c d) (sound : Sound c d) (core : Core c env d d')
    (carried : Carried c e d d') : Sound c d' := by
  obtain ⟨deed, allowed, desk⟩ := desk_core sound core
  have named := isName_of_sound sound
  refine ⟨valid_core sound core, ?_, ?_, ?_, ?_, ?_, running_core sound inv.tasks core, ?_, ?_⟩
  · intro p member
    rw [desk]
    rcases carried.conns p member with old | new
    · exact (sound.conns p old).apply allowed
    · exact Desk.Knows.apply ⟨p, new.1, rfl, rfl⟩ allowed
  · intro x member
    rw [desk]
    rcases carried.authorized x member with old | new
    · exact (sound.authorized x old).apply allowed
    · exact (sound.conns x.1 new.1).apply allowed
  · intro x member
    rw [desk]
    rcases carried.dispatches x member with old | ⟨job, outbound, peer, -⟩
    · exact Desk.concerns_apply (sound.dispatches x old) allowed named
    · exact Desk.concerns_apply (concerns_selected inv.unique.1 job outbound peer) allowed named
  · intro x member
    rw [desk]
    rcases carried.undelivered x member with old | known
    · exact Desk.concerns_apply (sound.undelivered x old) allowed named
    · exact Desk.concerns_apply (sound.dispatches x.1 known) allowed named
  · intro j member
    rw [desk]
    rcases carried.locals j member with old | ⟨there, queued⟩
    · exact (sound.locals j old).apply allowed named
    · exact (own_selected inv.unique.1 there queued).apply allowed named
  · intro id task found
    rcases (flow_core core).task? inv.tasks found with ⟨old, before, run, grant, -⟩ | ⟨-, admits⟩
    · rw [← run, ← grant]
      exact sound.tools id old before
    · exact admits.does.1.2.2.1
  · intro x member
    rw [desk]
    rcases carried.syncs x member with old | ⟨⟨p, there, name⟩, -⟩
    · obtain ⟨p, known, name⟩ := sound.syncs x old
      exact ⟨p, known.apply allowed, name⟩
    · exact ⟨p, Desk.Knows.apply ⟨p, there, rfl, rfl⟩ allowed, name⟩

/-- An admitted run has an ID under which nothing was admitted or started before. -/
theorem fresh_of_does (inv : Inv c d) {row : Row} {grant : Grant} {next : Store}
    (does : d.store.Does (.accept row grant) next) :
    row.id ∉ d.tasks.map (·.run.id) ∧ row.id ∉ d.starts.map (·.run.id) := by
  refine ⟨fun member => ?_, fun member => ?_⟩
  · exact Desk.Settled.not_startable (inv.admitted row.id member).1 does.1.1
  · exact Desk.Settled.not_startable (inv.started row.id member).1 does.1.1

theorem settled_of_does {row : Row} {grant : Grant} {s next : Store} (named : Pair.isName s.bodyName = true)
    (does : s.Does (.accept row grant) next) : next.desk.Settled row.id := by
  obtain ⟨⟨⟨own, -⟩, running, -⟩, desk⟩ := does
  rw [desk]
  exact ⟨named, row, Desk.row?_putRow_self _ _, .inr ⟨running, own⟩⟩

theorem inv_core {e : Event} (inv : Inv c d) (live : d.live = true) (core : Core c env d d')
    (carried : Carried c e d d') : Inv c d' := by
  have sound := inv.live live
  have flow := flow_core core
  have kept (id : String) (settled : Everywhere (Closed id) d.cell) : Everywhere (Closed id) d'.cell :=
    everywhere_core (preserved_settled id) anyCompletion sound core settled
  have closed : ∀ task : Task, Admits c env d d' task → Everywhere (Closed task.run.id) d'.cell := by
    intro task admits
    have settled : Closed task.run.id d'.cell.mem := settled_of_does (isName_of_sound sound) admits.does
    refine ⟨settled, admits.durable.1.symm ▸ settled, fun old present => ?_⟩
    rw [admits.durable.2] at present
    cases present
  refine ⟨everywhere_core preserved_named anyCompletion sound core inv.named,
    everywhere_core preserved_unique anyCompletion sound core inv.unique,
    fun id => durable_core (settling_settled id) sound core (inv.durable id), ?_, ?_, ?_, ?_, ?_,
    fun _ => sound_core inv sound core carried, ?_⟩
  · cases flow with
    | kept tasks => exact tasks ▸ inv.tasks
    | moved task found phase tasks | launched task found _ _ _ tasks =>
      rw [tasks, setPhase_ids]
      exact inv.tasks
    | admitted task admits tasks =>
      rw [tasks, List.map_append, List.nodup_append]
      refine ⟨inv.tasks, List.nodup_singleton _, ?_⟩
      rintro id member other single rfl
      rw [List.map_singleton, List.mem_singleton] at single
      subst single
      exact (fresh_of_does inv admits.does).1 member
    | erased id tasks =>
      rw [tasks]
      exact inv.tasks.sublist (List.eraseP_sublist.map _)
  · cases flow with
    | kept _ starts | moved _ _ _ _ _ starts | erased _ _ starts => exact starts ▸ inv.starts
    | admitted _ admits => exact admits.starts ▸ inv.starts
    | launched task found pending command made tasks starts =>
      rw [starts, List.map_cons, List.nodup_cons]
      exact ⟨inv.pending _ task found pending, inv.starts⟩
  · intro id member
    cases flow with
    | kept tasks => exact kept id (inv.admitted id (tasks ▸ member))
    | moved task found phase tasks | launched task found _ _ _ tasks =>
      rw [tasks, setPhase_ids] at member
      exact kept id (inv.admitted id member)
    | admitted task admits tasks =>
      rw [tasks, List.map_append, List.mem_append, List.map_singleton, List.mem_singleton] at member
      rcases member with old | rfl
      · exact kept id (inv.admitted id old)
      · exact closed task admits
    | erased other tasks =>
      rw [tasks] at member
      exact kept id (inv.admitted id ((List.eraseP_sublist.map _).subset member))
  · intro id member
    cases flow with
    | kept _ starts | moved _ _ _ _ _ starts | erased _ _ starts =>
      exact kept id (inv.started id (starts ▸ member))
    | admitted _ admits => exact kept id (inv.started id (admits.starts ▸ member))
    | launched task found pending command made tasks starts =>
      rw [starts, List.map_cons, List.mem_cons] at member
      rcases member with rfl | old
      · exact kept _ (inv.admitted _ (List.mem_map_of_mem (List.mem_of_find?_eq_some found)))
      · exact kept id (inv.started id old)
  · intro id task found pending member
    cases flow with
    | kept tasks starts =>
      exact inv.pending id task (task?_congr tasks id ▸ found) pending (starts ▸ member)
    | moved old there phase tasks begun starts =>
      rcases task?_setPhase there (task?_congr tasks id ▸ found) with ⟨-, rfl⟩ | ⟨-, before⟩
      · exact begun pending
      · exact inv.pending id task before pending (starts ▸ member)
    | launched old there _ command made tasks starts =>
      rcases task?_setPhase there (task?_congr tasks id ▸ found) with ⟨-, rfl⟩ | ⟨other, before⟩
      · cases pending
      · rw [starts, List.map_cons, List.mem_cons] at member
        rcases member with same | earlier
        · exact other same.symm
        · exact inv.pending id task before pending earlier
    | admitted new admits tasks =>
      rw [admits.starts] at member
      rw [task?, tasks, List.find?_append, Option.or_eq_some_iff] at found
      rcases found with old | ⟨-, found⟩
      · exact inv.pending id task old pending member
      · obtain rfl := List.mem_singleton.mp (List.mem_of_find?_eq_some found)
        obtain rfl : task.run.id = id := by simpa using List.find?_some found
        exact (fresh_of_does inv admits.does).2 member
    | erased other tasks starts =>
      exact inv.pending id task (task?_eraseP inv.tasks tasks found).2 pending (starts ▸ member)
  · intro dead
    rw [carried.live, live] at dead
    cases dead

/-- What a step does to the exits: nothing, or one child that had been started exits. -/
inductive Exits (d : Daemon) (exits : List (String × Exec.ExitStatus)) : Prop
  | kept (same : exits = d.exits)
  | added (id : String) (status : Exec.ExitStatus) (started : ∃ start ∈ d.starts, start.run.id = id)
      (first : d.exitOf id = none) (same : exits = (id, status) :: d.exits)

theorem exits_core (core : Core c env d d') : Exits d d'.exits := by
  cases core with
  | exited id status started first _ _ _ exits => exact .added id status started first exits
  | idle _ _ _ exits | noted _ _ _ _ _ _ exits | saved _ _ _ _ _ _ _ _ _ exits
  | admitted _ _ _ _ _ _ _ _ _ _ _ exits | launched _ _ _ _ exits | collected _ _ _ _ _ _ _ _ exits
  | finished _ _ _ _ _ _ _ _ _ _ _ exits | refused _ _ _ _ _ _ _ _ exits | gaveUp _ _ _ _ _ _ _ exits
  | released _ _ _ _ _ _ exits => exact .kept exits

/-- A step of a machine, running or stopped. -/
inductive Step (c : Crypto) (d : Daemon) (e : Env × Event) (d' : Daemon) : Prop
  | live (running : d.live = true) (going : ∀ boot, e.2 ≠ .restart boot) (sound : Sound c d)
      (core : Core c e.1 d d') (carried : Carried c e.2 d d')
  | stopped (dead : d.live = false) (going : ∀ boot, e.2 ≠ .restart boot)
      (exits : List (String × Exec.ExitStatus)) (added : Exits d exits) (same : d' = { d with exits := exits })
  | restarted (boot : Boot) (same : d' = d.restart c e.1 boot)

theorem step_cases (inv : Inv c d) (e : Env × Event) : Step c d e (d.step c e) := by
  unfold step
  by_cases restarted : ∃ boot, e.2 = .restart boot
  · obtain ⟨boot, restarted⟩ := restarted
    rw [restarted]
    split_ifs <;> exact .restarted boot rfl
  rw [not_exists] at restarted
  cases live : d.live with
  | true =>
    rw [if_pos rfl]
    exact .live live restarted (inv.live live) (core_liveStep (inv.live live) e.1 e.2 restarted)
      (carried_liveStep e.1 e.2 restarted)
  | false =>
    rw [if_neg Bool.false_ne_true]
    split
    · next id status _ =>
      unfold exited
      split_ifs with known
      · obtain ⟨start, member, same⟩ := List.any_eq_true.mp known.1
        exact .stopped live restarted _ (.added id status ⟨start, member, by simpa using same⟩ known.2 rfl) rfl
      · exact .stopped live restarted d.exits (.kept rfl) rfl
    · next boot same => exact absurd same (restarted boot)
    · exact .stopped live restarted d.exits (.kept rfl) rfl

theorem inv_step (inv : Inv c d) (e : Env × Event) : Inv c (d.step c e) := by
  cases step_cases inv e with
  | live running _ sound core carried => exact inv_core inv running core carried
  | stopped dead _ exits _ same =>
    rw [same]
    exact { inv with live := fun running => absurd (dead.symm.trans running) Bool.false_ne_true }
  | restarted boot same =>
    rw [same]
    exact inv_restart inv e.1 boot

theorem run_append (d : Daemon) (before after : List (Env × Event)) :
    d.run c (before ++ after) = (d.run c before).run c after := List.foldl_append

theorem run_concat (d : Daemon) (before : List (Env × Event)) (e : Env × Event) :
    d.run c (before ++ [e]) = (d.run c before).step c e := run_append d before [e]

theorem reach_append (epoch hostname : String) (seed : Bytes) (before after : List (Env × Event)) :
    reach c epoch hostname seed (before ++ after) = (reach c epoch hostname seed before).run c after :=
  run_append _ before after

theorem reach_concat (epoch hostname : String) (seed : Bytes) (before : List (Env × Event)) (e : Env × Event) :
    reach c epoch hostname seed (before ++ [e]) = (reach c epoch hostname seed before).step c e :=
  run_concat _ before e

theorem inv_run (inv : Inv c d) (events : List (Env × Event)) : Inv c (d.run c events) := by
  induction events generalizing d with
  | nil => exact inv
  | cons e rest ih => exact ih (inv_step inv e)

theorem everywhere_installed {P : Image → Prop} {file : Store} (holds : P ⟨file, []⟩) :
    Everywhere P (installed file).cell :=
  ⟨holds, holds, fun _ absent => absurd absent (by simp [installed])⟩

/-- A machine that was just installed. -/
theorem inv_installed {file : Store} (named : Pair.isName file.bodyName = true)
    (unique : file.desk.Unique) : Inv c (installed file) where
  named := everywhere_installed named
  unique := everywhere_installed unique
  durable _ settled := (everywhere_installed settled).2
  tasks := List.nodup_nil
  starts := List.nodup_nil
  admitted _ member := absurd member List.not_mem_nil
  started _ member := absurd member List.not_mem_nil
  pending id task found := absurd found (by simp [task?, installed])
  live running := absurd running Bool.false_ne_true
  stopped _ := rfl

theorem desk_first (c : Crypto) (epoch hostname : String) (seed : Bytes) :
    (Store.first c epoch hostname seed).desk = ⟨Pair.sanitizeName hostname, [], [], []⟩ := by
  rw [Store.first]
  dsimp only
  exact (History.refreshTrust_samePublished c _).desk

theorem inv_fresh (epoch hostname : String) (seed : Bytes) : Inv c (fresh c epoch hostname seed) := by
  have desk := desk_first c epoch hostname seed
  refine inv_installed ?_ ?_
  · change Pair.isName (Store.first c epoch hostname seed).desk.name = true
    rw [desk]
    exact Pair.isName_sanitizeName hostname
  · rw [desk]
    exact List.nodup_nil

theorem task?_fresh (epoch hostname : String) (seed : Bytes) (id : String) :
    (fresh c epoch hostname seed).task? id = none := rfl

/-- The job is saved as running, in memory and on disk, and nothing was started under its ID. -/
def Accepted (d : Daemon) (run : Job) : Prop :=
  (∃ job, d.cell.file.store.job? run.id = some job ∧ job.row = run.row ∧ job.status = .running) ∧
    d.cell.mem = d.cell.file ∧ ∀ start ∈ d.starts, start.run.id ≠ run.id

theorem accepted_of_admits {d d' : Daemon} {env : Env} {task : Task}
    (inv : Inv c d) (admits : Admits c env d d' task) : Accepted d' task.run := by
  obtain ⟨⟨-, running, -⟩, desk⟩ := admits.does
  have row : d'.store.desk.row? task.run.id = some task.run.row := by
    rw [desk]
    exact Desk.row?_putRow_self _ task.run.row
  rw [Store.row?_desk, Option.map_eq_some_iff] at row
  obtain ⟨job, found, equal⟩ := row
  refine ⟨⟨job, ?_, equal, (congrArg Row.status equal).trans running⟩, admits.durable.1.symm, ?_⟩
  · rw [admits.durable.1]
    exact found
  · intro start member equal
    exact (fresh_of_does inv admits.does).2 (List.mem_map.mpr ⟨start, admits.starts ▸ member, equal⟩)

/-- What an admission establishes, and later steps keep, holds of every task and every child. -/
theorem run_traced {P : List (Env × Event) → Job → Grant → Admission → Prop} (epoch hostname : String)
    (seed : Bytes) (later : ∀ events e run grant admission, P events run grant admission →
      P (events ++ [e]) run grant admission)
    (admitted : ∀ events e task, Inv c (reach c epoch hostname seed events) →
      Sound c (reach c epoch hostname seed events) →
      Admits c e.1 (reach c epoch hostname seed events)
        (reach c epoch hostname seed (events ++ [e])) task →
      P (events ++ [e]) task.run task.grant task.admission) (events : List (Env × Event)) :
    (∀ task ∈ (reach c epoch hostname seed events).tasks, P events task.run task.grant task.admission) ∧
      ∀ start ∈ (reach c epoch hostname seed events).starts,
        P events start.run start.grant start.admission := by
  induction events using List.reverseRecOn with
  | nil => exact ⟨fun _ member => absurd member List.not_mem_nil, fun _ member => absurd member List.not_mem_nil⟩
  | append_singleton events e ih =>
    obtain ⟨tasks, starts⟩ := ih
    have inv := inv_run (inv_fresh (c := c) epoch hostname seed) events
    replace tasks := fun task member => later events e _ _ _ (tasks task member)
    replace starts := fun start member => later events e _ _ _ (starts start member)
    replace admitted := fun task sound admits => admitted events e task inv sound admits
    rw [reach_concat] at admitted ⊢
    cases step_cases inv e with
    | stopped dead _ exits _ same =>
      rw [same]
      exact ⟨tasks, starts⟩
    | restarted boot same =>
      have cleared := cleared_restart (c := c) e.1 boot (reach c epoch hostname seed events)
      rw [same, cleared.tasks, cleared.starts]
      exact ⟨fun _ member => absurd member List.not_mem_nil, starts⟩
    | live running _ sound core carried =>
      replace admitted := fun task admits => admitted task sound admits
      generalize Daemon.step c (reach c epoch hostname seed events) e = d' at core carried admitted
      cases flow_core core with
      | kept sameTasks sameStarts => exact ⟨sameTasks ▸ tasks, sameStarts ▸ starts⟩
      | moved task found phase moved begun sameStarts =>
        refine ⟨fun other member => ?_, sameStarts ▸ starts⟩
        rw [moved] at member
        rcases List.mem_modifyFirst member with old | ⟨old, there, -, rfl⟩
        · exact tasks other old
        · exact tasks old there
      | launched task found pending command made moved starting =>
        refine ⟨fun other member => ?_, fun start member => ?_⟩
        · rw [moved] at member
          rcases List.mem_modifyFirst member with old | ⟨old, there, -, rfl⟩
          · exact tasks other old
          · exact tasks old there
        · rw [starting] at member
          rcases List.mem_cons.mp member with rfl | old
          · exact tasks task (List.mem_of_find?_eq_some found)
          · exact starts start old
      | admitted task admits added =>
        refine ⟨fun other member => ?_, admits.starts ▸ starts⟩
        rw [added] at member
        rcases List.mem_append.mp member with old | new
        · exact tasks other old
        · obtain rfl := List.mem_singleton.mp new
          exact admitted other admits
      | erased id gone sameStarts =>
        refine ⟨fun other member => ?_, sameStarts ▸ starts⟩
        rw [gone] at member
        exact tasks other (List.mem_of_mem_eraseP member)

/-- Under a settled ID no task becomes pending again. -/
theorem begun_core (inv : Inv c d) {id : String} (closed : Closed id d.cell.mem) (core : Core c env d d')
    (begun : ∀ task, d.task? id = some task → task.phase ≠ .pending) :
    ∀ task, d'.task? id = some task → task.phase ≠ .pending := by
  intro task found pending
  cases flow_core core with
  | kept tasks => exact begun task (task?_congr tasks id ▸ found) pending
  | moved old there phase tasks new =>
    rcases task?_setPhase there (task?_congr tasks id ▸ found) with ⟨-, rfl⟩ | ⟨-, before⟩
    · exact new pending
    · exact begun task before pending
  | launched old there _ command made tasks =>
    rcases task?_setPhase there (task?_congr tasks id ▸ found) with ⟨-, rfl⟩ | ⟨-, before⟩
    · cases pending
    · exact begun task before pending
  | admitted new admits tasks =>
    rw [task?, tasks, List.find?_append, Option.or_eq_some_iff] at found
    rcases found with old | ⟨-, found⟩
    · exact begun task old pending
    · obtain rfl := List.mem_singleton.mp (List.mem_of_find?_eq_some found)
      obtain rfl : task.run.id = id := by simpa using List.find?_some found
      have settled : d.store.desk.Settled task.run.row.id := closed
      exact settled.not_startable admits.does.1.1
  | erased other tasks => exact begun task (task?_eraseP inv.tasks tasks found).2 pending

/-- Nothing is started under an ID without a pending task. -/
theorem starts_core {id : String} (core : Core c env d d')
    (begun : ∀ task, d.task? id = some task → task.phase ≠ .pending) :
    ∀ start ∈ d'.starts, start.run.id = id → start ∈ d.starts := by
  intro start member same
  cases flow_core core with
  | kept _ starts | moved _ _ _ _ _ starts | erased _ _ starts => exact starts ▸ member
  | admitted _ admits => exact admits.starts ▸ member
  | launched task found pending command made tasks starts =>
    rw [starts] at member
    rcases List.mem_cons.mp member with rfl | old
    · exact absurd pending (begun task (same ▸ found))
    · exact old

/-- Under a settled ID without a pending task, nothing is started any more. -/
theorem starts_run_of_closed (inv : Inv c d) {id : String} (closed : Everywhere (Closed id) d.cell)
    (begun : ∀ task, d.task? id = some task → task.phase ≠ .pending) (events : List (Env × Event)) :
    ∀ start ∈ (d.run c events).starts, start.run.id = id → start ∈ d.starts := by
  induction events generalizing d with
  | nil => exact fun start member _ => member
  | cons e rest ih =>
    have step := step_cases inv e
    have next := inv_step inv e
    change ∀ start ∈ ((d.step c e).run c rest).starts, start.run.id = id → start ∈ d.starts
    generalize d.step c e = d' at step next
    have rest (closed' : Everywhere (Closed id) d'.cell)
        (begun' : ∀ task, d'.task? id = some task → task.phase ≠ .pending)
        (starts : ∀ start ∈ d'.starts, start.run.id = id → start ∈ d.starts) :
        ∀ start ∈ (d'.run c rest).starts, start.run.id = id → start ∈ d.starts :=
      fun start member same => starts start (ih next closed' begun' start member same) same
    cases step with
    | stopped dead _ exits _ same =>
      rw [same] at rest ⊢
      exact rest closed begun (fun start member _ => member)
    | restarted boot same =>
      have cleared := cleared_restart (c := c) e.1 boot d
      rw [← same] at cleared
      refine rest (same ▸ everywhere_restart (preserved_settled id) e.1 boot closed) ?_ ?_
      · intro task found
        rw [task?, cleared.tasks] at found
        cases found
      · rw [cleared.starts]
        exact fun start member _ => member
    | live running _ sound core carried =>
      exact rest (everywhere_core (preserved_settled id) anyCompletion sound core closed)
        (begun_core inv closed.1 core begun) (starts_core core begun)

end Daemon

end Clix
