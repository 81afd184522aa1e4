import Mathlib.Data.List.TakeWhile
import Clix.Proofs.Ledger

/-! # A single-use grant is used once

Of the runs admitted under one single-use grant, between its commit and the next owner decision about
its tool, at most one succeeds, and no two are running or uncertain together. A reservation names such
a run in every saved state, and completing a run leaves every grant alone that the owner committed
after the run was admitted.
-/

namespace Clix

/-- A run that is recorded as going on, or as having perhaps taken effect. -/
def Store.Active (s : Store) (id : String) : Prop :=
  ∃ job, s.job? id = some job ∧ (job.status = .running ∨ ∃ reason, job.status = .uncertain reason)

namespace Daemon

open Except DurableCell Act

variable {c : Crypto} {d d' : Daemon} {env : Env}

/-- No child of this run succeeded, and none will. -/
structure Lost (d : Daemon) (id : String) : Prop where
  closed : Everywhere (Closed id) d.cell
  begun : ∀ task, d.task? id = some task → task.phase ≠ .pending
  failed : ∀ x ∈ d.exits, x.1 = id → x.2.success = false
  waited : ∀ start ∈ d.starts, start.run.id = id → ∃ x ∈ d.exits, x.1 = id

theorem exits_lost {id : String} {exits : List (String × Exec.ExitStatus)} (lost : Lost d id)
    (step : Exits d exits) : (∀ x ∈ exits, x.1 = id → x.2.success = false) ∧
      ∀ x ∈ d.exits, x ∈ exits := by
  cases step with
  | kept same => exact ⟨same ▸ lost.failed, fun x member => same ▸ member⟩
  | added other status started first same =>
    rw [same]
    refine ⟨fun x member named => ?_, fun x member => List.mem_cons_of_mem _ member⟩
    rcases List.mem_cons.mp member with rfl | old
    · obtain rfl : other = id := named
      obtain ⟨start, there, run⟩ := started
      obtain ⟨earlier, exited, equal⟩ := lost.waited start there run
      rw [exitOf, Option.map_eq_none_iff] at first
      exact absurd (by simpa using equal) (List.find?_eq_none.mp first earlier exited)
    · exact lost.failed x old named

theorem lost_core {id : String} (inv : Inv c d) (sound : Sound c d) (core : Core c env d d')
    (lost : Lost d id) : Lost d' id := by
  obtain ⟨failed, more⟩ := exits_lost lost (exits_core core)
  refine ⟨everywhere_core (preserved_settled id) anyCompletion sound core lost.closed,
    begun_core inv lost.closed.1 core lost.begun, failed, fun start member named => ?_⟩
  obtain ⟨x, there, same⟩ := lost.waited start (starts_core core lost.begun start member named) named
  exact ⟨x, more x there, same⟩

theorem lost_step {id : String} {e : Env × Event} (inv : Inv c d) (step : Step c d e d') (lost : Lost d id) :
    Lost d' id := by
  cases step with
  | live running going sound core carried => exact lost_core inv sound core lost
  | stopped dead going exits added same =>
    obtain ⟨failed, more⟩ := exits_lost lost added
    rw [same]
    refine ⟨lost.closed, lost.begun, failed, fun start member named => ?_⟩
    obtain ⟨x, there, equal⟩ := lost.waited start member named
    exact ⟨x, more x there, equal⟩
  | restarted boot same =>
    have cleared := cleared_restart (c := c) e.1 boot d
    rw [same]
    refine ⟨everywhere_restart (preserved_settled id) e.1 boot lost.closed, ?_, ?_, ?_⟩
    · intro task found
      rw [task?, cleared.tasks] at found
      cases found
    · rw [cleared.exits]
      exact lost.failed
    · rw [cleared.starts, cleared.exits]
      exact lost.waited

/-- A run with a recorded successful exit. -/
def Succeeded (d : Daemon) (id : String) : Prop := ∃ status, (id, status) ∈ d.exits ∧ status.success = true

theorem exited_of_exitOf {id : String} {status : Exec.ExitStatus} (exit : d.exitOf id = some status) :
    (id, status) ∈ d.exits := by
  obtain ⟨x, first, rfl⟩ := Option.map_eq_some_iff.mp exit
  obtain rfl : x.1 = id := by simpa using List.find?_some first
  exact List.mem_of_find?_eq_some first

theorem exits_grow {exits : List (String × Exec.ExitStatus)} (step : Exits d exits) : ∀ x ∈ d.exits, x ∈ exits := by
  cases step with
  | kept same => exact fun x member => same ▸ member
  | added id status started first same => exact fun x member => same ▸ List.mem_cons_of_mem _ member

/-- Runs that succeeded stay so. -/
theorem succeeded_step {id : String} {e : Env × Event} (step : Step c d e d') (won : Succeeded d id) :
    Succeeded d' id := by
  obtain ⟨status, exited, success⟩ := won
  refine ⟨status, ?_, success⟩
  cases step with
  | live running going sound core carried => exact exits_grow (exits_core core) _ exited
  | stopped dead going exits added same =>
    rw [same]
    exact exits_grow added _ exited
  | restarted boot same =>
    rw [same, (cleared_restart (c := c) e.1 boot d).exits]
    exact exited

/-- The acts of an image. -/
def Records (act : Act) : Image → Prop := Image.Has (fun _ acts => act ∈ acts)

theorem preserved_records (act : Act) : Preserved (fun _ _ _ _ => True) (fun _ acts => act ∈ acts) where
  deed _ _ _ _ _ member := List.mem_append_right _ member
  reload _ _ member := member

/-- What holds of the accounts, the tasks and the children of a machine. -/
structure Books (d : Daemon) : Prop where
  ledger : Everywhere (Image.Has (Ledger (Lost d))) d.cell
  recorded : ∀ id task, d.task? id = some task → Everywhere (Records (.admitted id task.grant)) d.cell
  started : ∀ start ∈ d.starts, Everywhere (Records (.admitted start.run.id start.grant)) d.cell
  exits : ∀ x ∈ d.exits, ∃ start ∈ d.starts, start.run.id = x.1
  exitIds : (d.exits.map (·.1)).Nodup
  ended : ∀ id task outcome, d.task? id = some task → task.phase = .ended outcome →
    outcome.success = some false → Lost d id
  won : ∀ id task outcome, d.task? id = some task → task.phase = .ended outcome →
    outcome.success = some true → Succeeded d id

theorem Books.completes (books : Books d) : Completes (Ledger.Known (Lost d)) d := by
  intro id task outcome found ended
  have named : task.run.id = id := task?_id found
  rw [Exec.finished_row]
  subst named
  exact ⟨(books.recorded _ task found).1, books.ended _ task outcome found ended⟩

/-- A task that ended either had before, or ended in this step. -/
theorem ended_core (inv : Inv c d) (core : Core c env d d') {id : String} {task : Task}
    {outcome : Exec.RunOutcome} (found : d'.task? id = some task) (ended : task.phase = .ended outcome) :
    d.task? id = some task ∨ (d'.starts = d.starts ∧ d'.exits = d.exits ∧
      ∃ old, d.task? id = some old ∧ ((old.phase = .pending ∧ outcome.success = some false) ∨
        (outcome.success.isSome = true → ∃ status, d.exitOf id = some status ∧ outcome.success = some status.success))) := by
  have other {moved : Task} {phase : Phase} (there : d.task? moved.run.id = some moved)
      (tasks : d'.tasks = (d.setPhase moved.run.id phase).tasks) (running : ∀ outcome, phase ≠ .ended outcome) :
      d.task? id = some task := by
    rcases task?_setPhase there (task?_congr tasks id ▸ found) with ⟨-, rfl⟩ | ⟨-, before⟩
    · exact absurd ended (running outcome)
    · exact before
  cases core with
  | idle _ tasks | exited _ _ _ _ _ tasks => exact .inl (task?_congr tasks id ▸ found)
  | noted _ _ _ _ tasks | saved _ _ _ _ _ _ _ tasks => exact .inl (task?_congr tasks id ▸ found)
  | admitted requester job grant next cert granted does valid cell tasks =>
    refine .inl ?_
    split_ifs at tasks
    · rw [task?, tasks, List.find?_append, Option.or_eq_some_iff] at found
      rcases found with before | ⟨-, new⟩
      · exact before
      · obtain rfl := List.mem_singleton.mp (List.mem_of_find?_eq_some new)
        cases ended
    · exact task?_congr tasks id ▸ found
  | launched moved there pending cell exits started =>
    rcases started with ⟨e, tasks, starts⟩ | ⟨command, -, tasks, -⟩
    · rcases task?_setPhase there (task?_congr tasks id ▸ found) with ⟨rfl, rfl⟩ | ⟨-, before⟩
      · cases ended
        exact .inr ⟨starts, exits, moved, there, .inl ⟨pending, rfl⟩⟩
      · exact .inl before
    · exact .inl (other there tasks (by intro outcome same; cases same))
  | collected moved there running collected known cell tasks starts exits =>
    rcases task?_setPhase there (task?_congr tasks id ▸ found) with ⟨rfl, rfl⟩ | ⟨-, before⟩
    · cases ended
      exact .inr ⟨starts, exits, moved, there, .inr known⟩
    · exact .inl before
  | finished moved there _ _ _ _ _ _ _ tasks =>
    obtain ⟨phase, kind, tasks⟩ := tasks
    refine .inl (other there tasks ?_)
    rcases kind with ⟨rfl, -⟩ | ⟨e, rfl, -⟩ <;>
    · intro outcome same
      cases same
  | refused moved there _ _ _ _ tasks => exact .inl (other there tasks (by intro outcome same; cases same))
  | gaveUp moved there _ _ _ tasks => exact .inl (other there tasks (by intro outcome same; cases same))
  | released _ _ _ _ tasks => exact .inl (task?_eraseP inv.tasks tasks found).2

theorem exitIds_step {exits : List (String × Exec.ExitStatus)} (books : Books d) (step : Exits d exits) :
    (exits.map (·.1)).Nodup ∧ ∀ x ∈ exits, ∃ start ∈ d.starts, start.run.id = x.1 := by
  cases step with
  | kept same => exact same ▸ ⟨books.exitIds, books.exits⟩
  | added id status started first same =>
    rw [same]
    refine ⟨List.nodup_cons.mpr ⟨fun member => ?_, books.exitIds⟩, fun x member => ?_⟩
    · obtain ⟨x, there, equal⟩ := List.mem_map.mp member
      rw [exitOf, Option.map_eq_none_iff] at first
      exact absurd (by simpa using equal) (List.find?_eq_none.mp first x there)
    · rcases List.mem_cons.mp member with rfl | old
      · exact started
      · exact books.exits x old

theorem books_core (inv : Inv c d) (sound : Sound c d) (core : Core c env d d') (next : Inv c d')
    (books : Books d) : Books d' := by
  have flow := flow_core core
  have lost {id : String} (before : Lost d id) : Lost d' id := lost_core inv sound core before
  have keeps {act : Act} (there : Everywhere (Records act) d.cell) : Everywhere (Records act) d'.cell :=
    everywhere_core (preserved_records act) anyCompletion sound core there
  have grown : ∀ start ∈ d.starts, start ∈ d'.starts := by
    intro start member
    cases flow with
    | kept _ starts | moved _ _ _ _ _ starts | erased _ _ starts => exact starts ▸ member
    | admitted _ admits => exact admits.starts ▸ member
    | launched _ _ _ _ _ _ starts => exact starts ▸ List.mem_cons_of_mem _ member
  obtain ⟨exitIds, exited⟩ := exitIds_step books (exits_core core)
  refine ⟨?_, ?_, ?_, ?_, exitIds, ?_, ?_⟩
  · have ledger := everywhere_core (Ledger.preserved (Lost d)) books.completes sound core books.ledger
    have mono : ∀ image, Image.Has (Ledger (Lost d)) image → Image.Has (Ledger (Lost d')) image :=
      fun image account => Ledger.mono account (fun _ before => lost before)
    exact ⟨mono _ ledger.1, mono _ ledger.2.1, fun old same => mono _ (ledger.2.2 old same)⟩
  · intro id task found
    rcases flow.task? inv.tasks found with ⟨old, before, -, grant, -⟩ | ⟨named, admits⟩
    · rw [← grant]
      exact keeps (books.recorded id old before)
    · have there : Records (.admitted id task.grant) d'.cell.mem := by
        change Act.admitted id task.grant ∈ d'.acts
        rw [admits.acts, named]
        exact List.mem_cons_self
      refine ⟨there, admits.durable.1.symm ▸ there, fun old present => ?_⟩
      rw [admits.durable.2] at present
      cases present
  · intro start member
    cases flow with
    | kept _ starts | moved _ _ _ _ _ starts | erased _ _ starts =>
      exact keeps (books.started start (starts ▸ member))
    | admitted _ admits => exact keeps (books.started start (admits.starts ▸ member))
    | launched task found pending command made tasks starts =>
      rw [starts] at member
      rcases List.mem_cons.mp member with rfl | old
      · exact keeps (books.recorded _ task found)
      · exact keeps (books.started start old)
  · intro x member
    obtain ⟨start, there, same⟩ := exited x member
    exact ⟨start, grown start there, same⟩
  · intro id task outcome found ended unsuccessful
    rcases ended_core inv core found ended with before | ⟨starts, exits, old, there, how⟩
    · exact lost (books.ended id task outcome before ended unsuccessful)
    · have named : task.run.id = id := task?_id found
      have present : id ∈ d'.tasks.map (·.run.id) :=
        List.mem_map.mpr ⟨task, List.mem_of_find?_eq_some found, named⟩
      refine ⟨next.admitted id present, ?_, ?_, ?_⟩
      · intro other same pending
        obtain rfl : task = other := Option.some.inj (found.symm.trans same)
        rw [ended] at pending
        cases pending
      · intro x member same
        rw [exits] at member
        rcases how with ⟨pending, -⟩ | known
        · obtain ⟨start, started, equal⟩ := books.exits x member
          exact absurd (List.mem_map.mpr ⟨start, started, equal.trans same⟩) (inv.pending id old there pending)
        · obtain ⟨status, exit, success⟩ := known (by rw [unsuccessful]; rfl)
          obtain ⟨y, first, rfl⟩ := Option.map_eq_some_iff.mp exit
          have equal : x = y := List.eq_of_mem_of_key_eq (fun x : String × Exec.ExitStatus => x.1) books.exitIds
            member (List.mem_of_find?_eq_some first)
            (same.trans (by simpa using List.find?_some first : y.1 = id).symm)
          rw [equal]
          exact Option.some.inj (success.symm.trans unsuccessful)
      · intro start member same
        rw [starts] at member
        rw [exits]
        rcases how with ⟨pending, -⟩ | known
        · exact absurd (List.mem_map.mpr ⟨start, member, same⟩) (inv.pending id old there pending)
        · obtain ⟨status, exit, -⟩ := known (by rw [unsuccessful]; rfl)
          obtain ⟨y, first, -⟩ := Option.map_eq_some_iff.mp exit
          exact ⟨y, List.mem_of_find?_eq_some first, by simpa using List.find?_some first⟩
  · intro id task outcome found ended succeeded
    rcases ended_core inv core found ended with before | ⟨starts, exits, old, there, how⟩
    · obtain ⟨status, exited, success⟩ := books.won id task outcome before ended succeeded
      exact ⟨status, exits_grow (exits_core core) _ exited, success⟩
    · rcases how with ⟨-, failed⟩ | known
      · rw [failed] at succeeded
        cases succeeded
      · obtain ⟨status, exit, success⟩ := known (by rw [succeeded]; rfl)
        refine ⟨status, exits ▸ exited_of_exitOf exit, ?_⟩
        exact Option.some.inj (success.symm.trans succeeded)

theorem books_step {e : Env × Event} (inv : Inv c d) (step : Step c d e d') (next : Inv c d')
    (books : Books d) : Books d' := by
  have won {id : String} (before : Succeeded d id) : Succeeded d' id := succeeded_step step before
  have lost {id : String} (before : Lost d id) : Lost d' id := lost_step inv step before
  have mono {image : Image} (account : Image.Has (Ledger (Lost d)) image) :
      Image.Has (Ledger (Lost d')) image := Ledger.mono account (fun _ before => lost before)
  have everywhere (ledger : Everywhere (Image.Has (Ledger (Lost d))) d'.cell) :
      Everywhere (Image.Has (Ledger (Lost d'))) d'.cell :=
    ⟨mono ledger.1, mono ledger.2.1, fun old same => mono (ledger.2.2 old same)⟩
  cases step with
  | live running going sound core carried => exact books_core inv sound core next books
  | stopped dead going exits added same =>
    obtain ⟨exitIds, exited⟩ := exitIds_step books added
    subst same
    exact ⟨everywhere books.ledger, books.recorded, books.started, exited, exitIds,
      fun id task outcome found ended unsuccessful => lost (books.ended id task outcome found ended unsuccessful),
      fun id task outcome found ended succeeded => won (books.won id task outcome found ended succeeded)⟩
  | restarted boot same =>
    have cleared := cleared_restart (c := c) e.1 boot d
    have ledger := everywhere_restart (c := c) (Ledger.preserved (Lost d)) e.1 boot books.ledger
    have started := fun start member =>
      everywhere_restart (c := c) (preserved_records _) e.1 boot (books.started start member)
    rw [← same] at cleared ledger started
    refine ⟨everywhere ledger, ?_, ?_, ?_, ?_, ?_, ?_⟩
    · intro id task found
      rw [task?, cleared.tasks] at found
      cases found
    · rw [cleared.starts]
      exact started
    · rw [cleared.exits, cleared.starts]
      exact books.exits
    · rw [cleared.exits]
      exact books.exitIds
    · intro id task outcome found
      rw [task?, cleared.tasks] at found
      cases found
    · intro id task outcome found
      rw [task?, cleared.tasks] at found
      cases found

theorem books_run (epoch hostname : String) (seed : Bytes) (events : List (Env × Event)) :
    Books (reach c epoch hostname seed events) := by
  induction events using List.reverseRecOn with
  | nil =>
    have desk := desk_first c epoch hostname seed
    have empty : Ledger (Lost (fresh c epoch hostname seed)) (Store.first c epoch hostname seed).desk [] := by
      rw [desk]
      refine ⟨Pair.isName_sanitizeName hostname, List.nodup_nil, fun _ member => absurd member List.not_mem_nil,
        List.nodup_nil, fun _ member => absurd member List.not_mem_nil,
        fun _ member => absurd member List.not_mem_nil, ?_⟩
      intro rest suffix tool decided latest
      rw [List.suffix_nil.mp suffix] at latest
      cases latest
    have idle : ∀ id task, (fresh c epoch hostname seed).task? id ≠ some task := by
      intro id task
      rw [task?_fresh]
      nofun
    exact ⟨everywhere_installed empty, fun id task found => absurd found (idle id task),
      fun _ member => absurd member List.not_mem_nil, fun _ member => absurd member List.not_mem_nil,
      List.nodup_nil, fun id task outcome found => absurd found (idle id task),
      fun id task outcome found => absurd found (idle id task)⟩
  | append_singleton events e ih =>
    have inv := inv_run (inv_fresh (c := c) epoch hostname seed) events
    rw [reach_concat]
    exact books_step inv (step_cases inv e) (inv_step inv e) ih

/-- Among the runs admitted under one single-use grant, at most one succeeds and at most one is active. -/
def UsedOnce (d : Daemon) (image : Image) : Prop :=
  ∀ after during earlier tool grant, image.acts = after ++ (during ++ .owner tool (some grant) :: earlier) →
    grant.once = true → (∀ act ∈ during, act.decides tool = false) →
    ∀ id ∈ runs tool during, ∀ id' ∈ runs tool during, id ≠ id' →
      ¬(Succeeded d id ∧ Succeeded d id') ∧ ¬(image.store.Active id ∧ image.store.Active id')

/-- Every reservation names a run of this machine, admitted for the tool, that is running or uncertain. -/
def ReservedByRun (image : Image) : Prop :=
  ∀ grant ∈ image.store.grants, ∀ id, grant.reservation = some id →
    ∃ job, image.store.job? id = some job ∧ job.body.name = image.store.bodyName ∧
      job.argv.head? = some grant.tool ∧
      (job.status = .running ∨ ∃ reason, job.status = .uncertain reason) ∧
      ∃ admitted, .admitted id admitted ∈ image.acts

theorem usedOnce_of_ledger {image : Image} (ledger : Image.Has (Ledger (Lost d)) image) : UsedOnce d image := by
  intro after during earlier tool grant split once undecided id run id' run' differs
  have suffix : during ++ .owner tool (some grant) :: earlier <:+ image.acts := ⟨after, split.symm⟩
  have pending : ∀ act ∈ during, (!act.decides tool) = true := fun act member => by simp [undecided act member]
  have decided : Act.decides tool (.owner tool (some grant)) = true := by simp [Act.decides]
  have latest : decision? tool (during ++ .owner tool (some grant) :: earlier) =
      some (.owner tool (some grant)) := by
    rw [decision?, List.find?_append, List.find?_eq_none.mpr (fun act member => by simp [undecided act member]),
      Option.none_or, List.find?_cons_of_pos decided]
  have same : era tool (during ++ .owner tool (some grant) :: earlier) = during := by
    rw [era, List.takeWhile_append_of_pos pending, List.takeWhile_cons_of_neg (by simp [decided]), List.append_nil]
  obtain ⟨exempt, spent⟩ := ledger.past _ suffix tool grant latest once
  rw [same] at spent
  -- One of the two runs is not the exempt one, so it is over and did not succeed.
  have dead : ∃ other, (other = id ∨ other = id') ∧ image.store.desk.Dead (Lost d) other := by
    rcases spent id run with rfl | gone
    · exact ⟨id', .inr rfl, (spent id' run').resolve_left (Ne.symm differs)⟩
    · exact ⟨id, .inl rfl, gone⟩
  obtain ⟨other, which, lost, row, found, terminal, certain⟩ := dead
  have unsuccessful : ¬Succeeded d other := by
    rintro ⟨status, member, success⟩
    rw [lost.failed _ member rfl] at success
    cases success
  have inactive : ¬image.store.Active other := by
    rintro ⟨job, present, state⟩
    rw [Store.row?_desk, present] at found
    obtain rfl : job.row = row := Option.some.inj found
    rcases state with running | ⟨reason, uncertain⟩
    · rw [Job.row, running] at terminal
      cases terminal
    · exact certain reason uncertain
  rcases which with rfl | rfl
  · exact ⟨fun both => unsuccessful both.1, fun both => inactive both.1⟩
  · exact ⟨fun both => unsuccessful both.2, fun both => inactive both.2⟩

theorem reservedByRun_of_ledger {image : Image} (ledger : Image.Has (Ledger (Lost d)) image) :
    ReservedByRun image := by
  intro grant member id reservation
  obtain ⟨⟨row, found, own, argv, state⟩, admitted, since, -⟩ := ledger.reserved grant member id reservation
  rw [Store.row?_desk, Option.map_eq_some_iff] at found
  obtain ⟨job, present, rfl⟩ := found
  exact ⟨job, present, own, argv, state, admitted, (era_sublist _ _).subset since⟩

/-- A grant the owner committed after a run was admitted is not reserved by that run. -/
theorem reservation_ne_of_newer {desk : Desk} {acts newer older : List Act} {Lost : String → Prop}
    (ledger : Ledger Lost desk acts) {grant admitted : Grant} {decided : Option Grant} {id : String}
    (member : grant ∈ desk.grants) (split : acts = newer ++ .admitted id admitted :: older)
    (decision : .owner grant.tool decided ∈ newer) : grant.reservation ≠ some id := by
  intro reservation
  obtain ⟨-, other, since, -⟩ := ledger.reserved grant member id reservation
  have stops : ¬∀ act ∈ newer, (!act.decides grant.tool) = true := by
    intro all
    simpa [Act.decides] using all _ decision
  have inside : Act.admitted id other ∈ newer := by
    rw [era, split, List.takeWhile_append] at since
    split_ifs at since with all
    · have whole := (List.takeWhile_sublist _).eq_of_length all
      exact absurd (List.takeWhile_eq_self_iff.mp whole) stops
    · exact (List.takeWhile_sublist _).subset since
  have distinct := ledger.distinct
  rw [split, ids, List.filterMap_append, List.nodup_append] at distinct
  exact distinct.2.2 id (mem_ids inside) id List.mem_cons_self rfl

theorem mem_settle_of_ne {grants : List Grant} {grant g : Grant} {id : String} {success : Option Bool}
    (member : g ∈ grants) (free : g.reservation ≠ some id) :
    g ∈ Exec.settleGrant grants grant id success := by
  have unheld : (g.tool == grant.tool && g.reservation == some id) = false := by simp [free]
  unfold Exec.settleGrant
  dsimp only
  split_ifs
  · split
    · exact (List.mem_eraseP_of_neg (by rw [unheld]; nofun)).mpr member
    · exact List.mem_modifyFirst_of_neg member unheld
    · exact member
  · exact member

/-- Completing a run leaves every grant that the owner committed after the run was admitted, in memory
and in the file. -/
theorem finish_keeps_newer (sound : Sound c d) (books : Books d) (env : Env) {id : String}
    {grant admitted : Grant} (member : grant ∈ d.store.grants) {newer older : List Act}
    {decided : Option Grant} (split : d.acts = newer ++ .admitted id admitted :: older)
    (decision : .owner grant.tool decided ∈ newer) :
    grant ∈ (d.finish c env id).store.grants ∧ ((d.finish c env id).cell.file = d.cell.file ∨
      grant ∈ (d.finish c env id).cell.file.store.grants) := by
  have free := reservation_ne_of_newer books.ledger.1 member split decision
  rcases finish_cases (c := c) sound env id with same | ⟨other, outcome, there, ended, ⟨e, same⟩ | saved⟩
  · rw [same]
    exact ⟨member, .inl rfl⟩
  · rw [same]
    exact ⟨member, .inl rfl⟩
  · obtain ⟨next, phase, does, valid, kind, same⟩ := saved
    have kept : grant ∈ next.grants := by
      have grants : next.grants = Exec.settleGrant d.store.grants other.grant
          (Exec.finished other.grant.tool other.run outcome).row.id outcome.success := congrArg Desk.grants does.2
      have named : other.run.id = id := task?_id there
      rw [grants, Exec.finished_row]
      exact mem_settle_of_ne member (by rw [Job.row, named]; exact free)
    rw [same]
    change grant ∈ (d.commit ⟨next, d.acts⟩ env.fault).mem.store.grants ∧
      ((d.commit ⟨next, d.acts⟩ env.fault).file = d.cell.file ∨
        grant ∈ (d.commit ⟨next, d.acts⟩ env.fault).file.store.grants)
    cases env.fault with
    | none => exact ⟨kept, .inr kept⟩
    | some fault =>
      rw [mem_commit_some]
      refine ⟨member, ?_⟩
      rw [commit, Daemon.outcome, Fault.outcome]
      split_ifs
      · exact .inr kept
      · exact .inl rfl

/-- Single-use grants: under each committed single-use grant at most one run succeeds and no two are active
together; every reservation names such a run; every child's run is on record; and completing a run never
touches a grant committed after it was admitted. -/
theorem single_use (c : Crypto) (epoch hostname : String) (seed : Bytes) (events : List (Env × Event)) :
    Everywhere (fun image => UsedOnce (reach c epoch hostname seed events) image ∧ ReservedByRun image)
        (reach c epoch hostname seed events).cell ∧
      (∀ start ∈ (reach c epoch hostname seed events).starts,
        .admitted start.run.id start.grant ∈ (reach c epoch hostname seed events).acts) ∧
      ∀ env id admitted grant newer older decided, (reach c epoch hostname seed events).live = true →
        grant ∈ (reach c epoch hostname seed events).store.grants →
        (reach c epoch hostname seed events).acts = newer ++ .admitted id admitted :: older →
        .owner grant.tool decided ∈ newer →
        grant ∈ (reach c epoch hostname seed (events ++ [(env, .finish id)])).store.grants ∧
          ((reach c epoch hostname seed (events ++ [(env, .finish id)])).cell.file =
              (reach c epoch hostname seed events).cell.file ∨
            grant ∈ (reach c epoch hostname seed (events ++ [(env, .finish id)])).cell.file.store.grants) := by
  have books := books_run (c := c) epoch hostname seed events
  have inv := inv_run (inv_fresh (c := c) epoch hostname seed) events
  refine ⟨?_, fun start member => (books.started start member).1, ?_⟩
  · have both {image : Image} (ledger : Image.Has (Ledger (Lost (reach c epoch hostname seed events))) image) :=
      And.intro (usedOnce_of_ledger ledger) (reservedByRun_of_ledger ledger)
    exact ⟨both books.ledger.1, both books.ledger.2.1, fun old same => both (books.ledger.2.2 old same)⟩
  · intro env id admitted grant newer older decided live member split decision
    have step : (reach c epoch hostname seed events).step c (env, .finish id) =
        (reach c epoch hostname seed events).finish c env id := by
      rw [step, if_pos live]
      rfl
    rw [reach_concat, step]
    exact finish_keeps_newer (inv.live live) books env member split decision

end Daemon

end Clix
