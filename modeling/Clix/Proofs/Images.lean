import Clix.Proofs.Desk
import Clix.Proofs.Carried

/-! # What a machine may find again

A property of desks and acts that every deed preserves holds of everything a machine has in memory or
may find on disk, whatever fails and whenever it restarts. Identifiers that are settled in memory are
settled in every saved state, so a restart cannot unsettle them.
-/

namespace Clix

open Except DurableCell

/-- A property of the desk and the acts of an image. -/
def Image.Has (Q : Desk → List Act → Prop) (image : Image) : Prop := Q image.store.desk image.acts

/-- An image whose store has a property. -/
abbrev Image.Being (P : Store → Prop) (image : Image) : Prop := P image.store

theorem Desk.Settled.reloaded {s : Store} {id : String} (settled : s.desk.Settled id) :
    s.reloaded.desk.Settled id := settled

/-- What is known of a completion besides that it is allowed. -/
abbrev Completion := Row → Grant → Option Bool → List Act → Prop

def Deed.Fits (Known : Completion) (acts : List Act) : Deed → Prop
  | .finish row grant success => Known row grant success acts
  | _ => True

theorem Deed.fits_of_isPlain {Known : Completion} {deed : Deed} (plain : deed.isPlain = true) (acts : List Act) :
    deed.Fits Known acts := by cases deed <;> first | exact trivial | cases plain

namespace Daemon

variable {c : Crypto} {d d' : Daemon} {env : Env}

/-- Properties that deeds and reloading preserve, given what is known of completions. -/
structure Preserved (Known : Completion) (Q : Desk → List Act → Prop) : Prop where
  deed : ∀ d deed acts, Desk.Allows d deed → deed.Fits Known acts → Q d acts →
    Q (d.apply deed) (deed.acts ++ acts)
  reload : ∀ (s : Store) acts, Q s.desk acts → Q s.reloaded.desk acts

variable {Q : Desk → List Act → Prop} {Known : Completion}

theorem Preserved.does (keeps : Preserved Known Q) {s t : Store} {deed : Deed} {acts : List Act}
    (does : s.Does deed t) (fits : deed.Fits Known acts) (holds : Q s.desk acts) : Q t.desk (deed.acts ++ acts) := by
  rw [does.2]
  exact keeps.deed _ _ _ does.1 fits holds

theorem everywhere_commit (holds : Everywhere (Image.Has Q) d.cell) {saved : Image}
    (new : Image.Has Q saved) (fault : Option Fault) : Everywhere (Image.Has Q) (d.commit saved fault) := by
  refine holds.replace new ?_ _
  cases fault <;> exact holds.1

theorem everywhere_setStore (holds : Everywhere (Image.Has Q) d.cell) {f : Store → Store}
    (keeps : Q d.store.desk d.acts → Q (f d.store).desk d.acts) :
    Everywhere (Image.Has Q) (d.setStore f).cell := holds.tweak keeps

/-- What is known of the completions of the tasks of a machine. -/
def Completes (Known : Completion) (d : Daemon) : Prop :=
  ∀ id task outcome, d.task? id = some task → task.phase = .ended outcome →
    Known (Exec.finished task.grant.tool task.run outcome).row task.grant outcome.success d.acts

theorem everywhere_core (keeps : Preserved Known Q) (known : Completes Known d) (sound : Sound c d)
    (core : Core c env d d')
    (holds : Everywhere (Image.Has Q) d.cell) : Everywhere (Image.Has Q) d'.cell := by
  cases core with
  | idle cell | launched _ _ _ cell | exited _ _ _ _ cell | collected _ _ _ _ _ cell
  | refused _ _ _ _ _ cell | released _ _ _ cell => exact cell ▸ holds
  | noted f desk key cell =>
    rw [cell]
    exact everywhere_setStore holds (fun kept => desk ▸ kept)
  | saved deed plain next fault does valid cell =>
    rw [cell]
    have new : Image.Has Q ⟨next, deed.acts ++ d.acts⟩ :=
      keeps.does does (Deed.fits_of_isPlain plain _) holds.1
    exact everywhere_commit holds new fault
  | admitted requester job grant next cert granted does valid cell =>
    rw [cell]
    have new : Image.Has Q ⟨next, [.admitted job.id grant] ++ d.acts⟩ := keeps.does does trivial holds.1
    exact everywhere_commit holds new env.fault
  | finished task found outcome ended next fault does valid cell =>
    rw [cell]
    have new : Image.Has Q ⟨next, d.acts⟩ := keeps.does does (known _ task outcome found ended) holds.1
    exact everywhere_commit holds new fault
  | gaveUp task found e unsaved cell =>
    rw [cell]
    apply everywhere_setStore holds
    intro kept
    obtain ⟨old, present, going, body, -, -, own⟩ := sound.running _ _ found (by rw [unsaved]; nofun)
    rw [Exec.setStatus, Store.desk_setStatus]
    exact keeps.deed _ (.lose task.run.id (Exec.unsavedReason e)) _
      ⟨old, present, going, by rw [body]; exact own⟩ trivial kept

theorem everywhere_saveOpened (holds : Everywhere (Image.Has Q) d.cell) (needed : Bool)
    (f : Store → Store) (fault : Option Fault)
    (keeps : needed = true → Q d.store.desk d.acts → Q (f d.store).desk d.acts) :
    Everywhere (Image.Has Q) (d.saveOpened needed f fault).cell := by
  unfold saveOpened
  split_ifs with skipped
  · exact holds
  · rw [not_or, Bool.not_eq_false] at skipped
    have new : Image.Has Q ⟨f d.store, d.acts⟩ := keeps skipped.1 holds.1
    exact holds.replace new holds.1 _

theorem everywhere_openStore (keeps : Preserved Known Q) (boot : Boot)
    (holds : Everywhere (Image.Has Q) d.cell) : Everywhere (Image.Has Q) (d.openStore boot).cell := by
  have reopened : Everywhere (Image.Has Q)
      (d.cell.reopen (fun image => { image with store := image.store.reloaded }) boot.reverted) :=
    holds.reopen _ (fun image kept => keeps.reload image.store image.acts kept)
  unfold openStore
  dsimp only
  split_ifs
  · exact reopened
  · apply everywhere_saveOpened
    · apply everywhere_saveOpened
      · exact reopened
      · intro unnamed kept
        simp only [isUnnamed, Bool.and_eq_true, beq_iff_eq, List.isEmpty_iff] at unnamed
        obtain ⟨⟨⟨name, peers⟩, -⟩, -⟩ := unnamed
        refine keeps.deed _ (.rename _) _ ⟨Pair.isName_sanitizeName _, peers, .inl ?_⟩ trivial kept
        exact (congrArg Pair.isName name).trans (by decide)
    · exact fun _ kept => kept

/-- What repairing the name does to the saved state. -/
theorem repairBodyName_cases (env : Env) (fault : Option Fault) (d : Daemon) :
    (∃ live, d.repairBodyName c env fault = { d with live := live }) ∨
      ∃ name next live, d.store.Does (.rename name) next ∧
        d.repairBodyName c env fault = { d with cell := d.commit ⟨next, d.acts⟩ fault, live := live } := by
  unfold repairBodyName
  split_ifs with fine
  · exact .inl ⟨d.live, rfl⟩
  rw [not_or, not_not] at fine
  rcases update_cases (d := d) (c := c) env.epochId fault
      (fun s => .ok ({ s with bodyName := Pair.sanitizeName s.bodyName }, ())) (fun _ => []) with
    ⟨e, same⟩ | ⟨next, value, staged, same⟩
  · rw [same]
    exact .inl ⟨false, rfl⟩
  · rw [same]
    obtain ⟨edited, ran, desk, -⟩ := Store.stage_desk staged
    cases ran
    have does : d.store.Does (.rename (Pair.sanitizeName d.store.bodyName)) next := by
      refine ⟨⟨Pair.isName_sanitizeName _, fine.2, .inl ?_⟩, desk⟩
      by_contra named
      exact fine.1 (refuseIf_eq_ok.mpr named)
    cases fault with
    | none => exact .inr ⟨_, next, d.live, does, rfl⟩
    | some fault => exact .inr ⟨_, next, false, does, rfl⟩

/-- What recovery does to the saved state. -/
theorem recoverJobs_cases (env : Env) (d : Daemon) :
    d.recoverJobs c env = d ∨
      (∃ e, d.recoverJobs c env = d.setStore (fun s => s.recoveryFailed e)) ∨
      ∃ next, (d.store.Does (.recover Store.recoveryReason) next ∧ next.ownerSk = d.store.ownerSk) ∧
        (env.fault = none ∧ d.recoverJobs c env = { d with cell := d.commit ⟨next, d.acts⟩ none } ∨
          ∃ fault, env.fault = some fault ∧ d.recoverJobs c env =
            { d with cell := d.commit ⟨next, d.acts⟩ (some fault) }.setStore
              (fun s => s.recoveryFailed fault.error)) := by
  unfold recoverJobs
  split_ifs
  swap
  · exact .inl rfl
  unfold quietUpdate
  rcases update_cases (d := d) (c := c) env.epochId env.fault Store.recoverEdit (fun _ => []) with
    ⟨e, same⟩ | ⟨next, value, staged, same⟩
  · rw [same]
    exact .inr (.inl ⟨e, rfl⟩)
  · rw [same]
    obtain ⟨edited, ran, desk, key, -⟩ := Store.stage_desk staged
    cases ran
    refine .inr (.inr ⟨next, ⟨⟨trivial, desk.trans (Store.desk_markInterrupted _ _)⟩, key⟩, ?_⟩)
    cases env.fault with
    | none => exact .inl ⟨rfl, rfl⟩
    | some fault => exact .inr ⟨fault, rfl, rfl⟩

theorem desk_recoveryFailed (s : Store) (e : ClixError) :
    (s.recoveryFailed e).desk = s.desk.interrupt Store.unsavedRecoveryReason :=
  Store.desk_markInterrupted _ _

theorem everywhere_repairBodyName (keeps : Preserved Known Q) (env : Env) (fault : Option Fault)
    (holds : Everywhere (Image.Has Q) d.cell) :
    Everywhere (Image.Has Q) (d.repairBodyName c env fault).cell := by
  rcases repairBodyName_cases (c := c) env fault d with ⟨live, same⟩ | ⟨name, next, live, does, same⟩
  · rw [same]
    exact holds
  · rw [same]
    have new : Image.Has Q ⟨next, d.acts⟩ := keeps.does does trivial holds.1
    exact everywhere_commit holds new fault

theorem everywhere_recoverJobs (keeps : Preserved Known Q) (env : Env)
    (holds : Everywhere (Image.Has Q) d.cell) : Everywhere (Image.Has Q) (d.recoverJobs c env).cell := by
  have failed : ∀ {d : Daemon} (e : ClixError), Everywhere (Image.Has Q) d.cell →
      Everywhere (Image.Has Q) (d.setStore (fun s => s.recoveryFailed e)).cell := by
    intro d e holds
    apply everywhere_setStore holds
    intro kept
    rw [desk_recoveryFailed]
    exact keeps.deed _ (.recover Store.unsavedRecoveryReason) _ trivial trivial kept
  have committed : ∀ {next : Store}, d.store.Does (.recover Store.recoveryReason) next →
      Everywhere (Image.Has Q) (d.commit ⟨next, d.acts⟩ env.fault) := by
    intro next does
    have new : Image.Has Q ⟨next, d.acts⟩ := keeps.does does trivial holds.1
    exact everywhere_commit holds new env.fault
  rcases recoverJobs_cases (c := c) env d with same | ⟨e, same⟩ | ⟨next, ⟨does, -⟩, ⟨fault, same⟩ | ⟨f, fault, same⟩⟩
  · rw [same]
    exact holds
  · rw [same]
    exact failed e holds
  · rw [same]
    exact fault ▸ committed does
  · rw [same]
    exact failed f.error (fault ▸ committed does)

/-- How far a restart gets. -/
theorem restart_cases (d : Daemon) (env : Env) (boot : Boot) :
    d.restart c env boot = d.openStore boot ∧ (d.openStore boot).live = false ∨
      d.restart c env boot = { (d.openStore boot).repairBodyName c env boot.repairFault with live := false } ∨
      (((d.openStore boot).repairBodyName c env boot.repairFault).live = true ∧
        Pair.validateStore c ((d.openStore boot).repairBodyName c env boot.repairFault).store = .ok () ∧
        d.restart c env boot = ((d.openStore boot).repairBodyName c env boot.repairFault).recoverJobs c env) := by
  dsimp only [restart]
  by_cases stopped : (d.openStore boot).live = false
  · rw [if_pos stopped]
    exact .inl ⟨rfl, stopped⟩
  rw [if_neg stopped]
  by_cases refused : ((d.openStore boot).repairBodyName c env boot.repairFault).live = false ∨
      Pair.validateStore c ((d.openStore boot).repairBodyName c env boot.repairFault).store ≠ .ok ()
  · rw [if_pos refused]
    exact .inr (.inl rfl)
  · rw [if_neg refused]
    rw [not_or, not_not, Bool.not_eq_false] at refused
    exact .inr (.inr ⟨refused.1, refused.2, rfl⟩)

theorem everywhere_restart (keeps : Preserved Known Q) (env : Env) (boot : Boot)
    (holds : Everywhere (Image.Has Q) d.cell) : Everywhere (Image.Has Q) (d.restart c env boot).cell := by
  have opened := everywhere_openStore keeps boot holds
  have repaired := everywhere_repairBodyName (c := c) keeps env boot.repairFault opened
  rcases restart_cases (c := c) d env boot with ⟨same, -⟩ | same | ⟨-, -, same⟩
  · rw [same]
    exact opened
  · rw [same]
    dsimp only
    exact repaired
  · rw [same]
    exact everywhere_recoverJobs keeps env repaired

/-! ### What memory has survives every restart -/

/-- A property of desks that deeds keep, and that giving up on runs does not bring about. -/
structure Settling (Q : Desk → Prop) : Prop where
  deed : ∀ d deed, Desk.Allows d deed → Q d → Q (d.apply deed)
  lost : ∀ d id reason, Desk.Allows d (.lose id reason) → Q (d.apply (.lose id reason)) → Q d
  interrupted : ∀ d reason, Q (d.interrupt reason) → Q d
  /-- The name of a machine without jobs and peers does not matter. -/
  unnamed : ∀ d name, d.rows = [] → d.peers = [] → Q d → Q { d with name := name }
  reload : ∀ s : Store, Q s.reloaded.desk ↔ Q s.desk

/-- An image whose desk has a property. -/
def Image.On (Q : Desk → Prop) : Image → Prop := Image.Has (fun desk _ => Q desk)

theorem Settling.preserved {Q : Desk → Prop} (settling : Settling Q) :
    Preserved (fun _ _ _ _ => True) (fun desk _ => Q desk) where
  deed d deed _ allowed _ holds := settling.deed d deed allowed holds
  reload s _ holds := (settling.reload s).mpr holds

section Settling

variable {Q : Desk → Prop}

theorem durable_commit (settling : Settling Q) (durable : Durable (Image.On Q) d.cell) {deed : Deed} {next : Store}
    (does : d.store.Does deed next) (acts : List Act) (fault : Option Fault) :
    Durable (Image.On Q) (d.commit ⟨next, acts⟩ fault) := by
  refine durable.replace (fun holds => ?_) ?_ _
  · change Q next.desk
    rw [does.2]
    exact settling.deed _ _ does.1 holds
  · cases fault <;> exact fun holds => holds

theorem durable_core (settling : Settling Q) (sound : Sound c d) (core : Core c env d d')
    (durable : Durable (Image.On Q) d.cell) : Durable (Image.On Q) d'.cell := by
  cases core with
  | idle cell | launched _ _ _ cell | exited _ _ _ _ cell | collected _ _ _ _ _ cell
  | refused _ _ _ _ _ cell | released _ _ _ cell => exact cell ▸ durable
  | noted f desk key cell =>
    rw [cell]
    refine durable.tweak (fun holds => ?_)
    exact (desk ▸ holds : Q d.store.desk)
  | saved deed plain next fault does valid cell => exact cell ▸ durable_commit settling durable does _ fault
  | admitted requester job grant next cert granted does valid cell =>
    exact cell ▸ durable_commit settling durable does _ env.fault
  | finished task found outcome ended next fault does valid cell =>
    exact cell ▸ durable_commit settling durable does _ fault
  | gaveUp task found e unsaved cell =>
    rw [cell]
    refine durable.tweak (fun holds => ?_)
    obtain ⟨old, present, going, body, -, -, own⟩ := sound.running _ _ found (by rw [unsaved]; nofun)
    change Q (Exec.setStatus d.store task.run.id (Exec.unsavedStatus e)).desk at holds
    rw [Exec.setStatus, Store.desk_setStatus] at holds
    exact settling.lost _ _ _ ⟨old, present, going, by rw [body]; exact own⟩ holds

theorem durable_saveOpened (durable : Durable (Image.On Q) d.cell) (needed : Bool)
    (f : Store → Store) (fault : Option Fault)
    (keeps : needed = true → Q d.store.desk → Q (f d.store).desk) :
    Durable (Image.On Q) (d.saveOpened needed f fault).cell := by
  unfold saveOpened
  split_ifs with skipped
  · exact durable
  · rw [not_or, Bool.not_eq_false] at skipped
    have kept : Image.On Q d.cell.mem → Image.On Q ⟨f d.store, d.acts⟩ := keeps skipped.1
    exact durable.replace kept (fun holds => holds) _

theorem durable_openStore (settling : Settling Q) (boot : Boot) (d : Daemon) :
    Durable (Image.On Q) (d.openStore boot).cell := by
  have reopened : Durable (Image.On Q)
      (d.cell.reopen (fun image => { image with store := image.store.reloaded }) boot.reverted) :=
    Durable.reopen _ (fun holds => (settling.reload _).mp holds)
  unfold openStore
  dsimp only
  split_ifs
  · exact reopened
  · apply durable_saveOpened
    · apply durable_saveOpened
      · exact reopened
      · intro unnamed holds
        simp only [isUnnamed, Bool.and_eq_true, List.isEmpty_iff] at unnamed
        refine settling.unnamed _ _ ?_ unnamed.1.1.2 holds
        exact congrArg (List.map Job.row) unnamed.1.2
    · exact fun _ holds => holds

theorem durable_recoverJobs (settling : Settling Q) (env : Env) (durable : Durable (Image.On Q) d.cell) :
    Durable (Image.On Q) (d.recoverJobs c env).cell := by
  have failed : ∀ {d : Daemon} (e : ClixError), Durable (Image.On Q) d.cell →
      Durable (Image.On Q) (d.setStore (fun s => s.recoveryFailed e)).cell := by
    intro d e durable
    refine durable.tweak (fun holds => ?_)
    change Q (d.store.recoveryFailed e).desk at holds
    rw [desk_recoveryFailed] at holds
    exact settling.interrupted _ _ holds
  rcases recoverJobs_cases (c := c) env d with same | ⟨e, same⟩ | ⟨next, ⟨does, -⟩, ⟨fault, same⟩ | ⟨f, fault, same⟩⟩
  · rw [same]
    exact durable
  · rw [same]
    exact failed e durable
  · rw [same]
    exact durable_commit settling durable does _ none
  · rw [same]
    exact failed f.error (durable_commit settling durable does _ (some f))

theorem durable_restart (settling : Settling Q) (env : Env) (boot : Boot) (d : Daemon) :
    Durable (Image.On Q) (d.restart c env boot).cell := by
  have opened : Durable (Image.On Q) (d.openStore boot).cell := durable_openStore settling boot d
  have repaired : Durable (Image.On Q) ((d.openStore boot).repairBodyName c env boot.repairFault).cell := by
    rcases repairBodyName_cases (c := c) env boot.repairFault (d.openStore boot) with
      ⟨live, same⟩ | ⟨name, next, live, does, same⟩
    · rw [same]
      exact opened
    · rw [same]
      exact durable_commit settling opened does _ _
  rcases restart_cases (c := c) d env boot with ⟨same, -⟩ | same | ⟨-, -, same⟩
  · rw [same]
    exact opened
  · rw [same]
    dsimp only
    exact repaired
  · rw [same]
    exact durable_recoverJobs settling env repaired

/-- A restart reads one of the contents of the file. -/
theorem restart_found (env : Env) (boot : Boot) (d : Daemon) : d.restart c env boot =
    { d with cell := ⟨d.cell.mem, d.cell.found boot.reverted, none⟩ }.restart c env boot := by
  unfold restart openStore
  cases found : boot.reverted <;> rfl

/-- What memory has it has after a restart. -/
theorem everywhere_restart_of_durable (settling : Settling Q) (env : Env) (boot : Boot)
    (holds : Q d.store.desk) (durable : Durable (Image.On Q) d.cell) :
    Everywhere (Image.On Q) (d.restart c env boot).cell := by
  rw [restart_found]
  have found : Image.On Q (d.cell.found boot.reverted) := durable.found holds boot.reverted
  exact everywhere_restart settling.preserved env boot ⟨holds, found, nofun⟩

end Settling

/-- An image under whose saved jobs an ID is settled. -/
def Closed (id : String) : Image → Prop := Image.Has (fun desk _ => desk.Settled id)

theorem settling_settled (id : String) : Settling (fun desk => desk.Settled id) where
  deed _ _ allowed settled := settled.apply allowed
  lost _ _ _ allowed settled := Desk.Settled.of_lose settled allowed
  interrupted _ _ settled := settled.of_interrupt
  unnamed d _ rows _ settled := by
    obtain ⟨-, row, found, -⟩ := settled
    rw [Desk.row?, rows] at found
    cases found
  reload _ := Iff.rfl

end Daemon

end Clix
