import Clix.Proofs.Steps

/-! # What a machine carries between the sections of a task

Accepted connections, authorized certificates, drafts, delivery attempts and their failures, and the
local queue's selections only grow while a machine runs, each from what its own section checked.
-/

namespace Clix.Daemon

open Except

variable {c : Crypto} {d : Daemon} {e : Event}

/-- What a step adds to the work in progress. -/
structure Carried (c : Crypto) (e : Event) (d d' : Daemon) : Prop where
  live : d'.live = d.live
  conns : ∀ p ∈ d'.conns, p ∈ d.conns ∨ (p ∈ d.store.peers ∧ e = .accept p.ownerPk)
  authorized : ∀ x ∈ d'.authorized, x ∈ d.authorized ∨
    (x.1 ∈ d.conns ∧ e = .authorize x.1 x.2 ∧ History.authorizeExecution c d.store x.1 x.2 = .ok ())
  dispatches : ∀ x ∈ d'.dispatches, x ∈ d.dispatches ∨
    (x.job ∈ d.store.jobs ∧ Dispatch.isOutbound d.store x.job = true ∧
      x.peer = d.store.peer? x.job.body ∧
      x.certificate = (History.forJob d.store x.job).map (fun e => e.record.certificate))
  undelivered : ∀ x ∈ d'.undelivered, x ∈ d.undelivered ∨ x.1 ∈ d.dispatches
  locals : ∀ j ∈ d'.locals, j ∈ d.locals ∨ (j ∈ d.store.jobs ∧ Dispatch.isLocal d.store j = true)
  syncs : ∀ x ∈ d'.syncs, x ∈ d.syncs ∨
    ((∃ p ∈ d.store.peers, p.name = x.peer) ∧ x.progress = History.progress d.store x.peer)

/-- A step that adds nothing. -/
structure SameWork (d d' : Daemon) : Prop where
  live : d'.live = d.live
  conns : d'.conns = d.conns
  authorized : d'.authorized = d.authorized
  dispatches : d'.dispatches = d.dispatches
  undelivered : d'.undelivered = d.undelivered
  locals : d'.locals = d.locals
  syncs : d'.syncs = d.syncs

theorem SameWork.carried {d' : Daemon} (same : SameWork d d') : Carried c e d d' where
  live := same.live
  conns _ member := .inl (same.conns ▸ member)
  authorized _ member := .inl (same.authorized ▸ member)
  dispatches _ member := .inl (same.dispatches ▸ member)
  undelivered _ member := .inl (same.undelivered ▸ member)
  locals _ member := .inl (same.locals ▸ member)
  syncs _ member := .inl (same.syncs ▸ member)

theorem SameWork.refl (d : Daemon) : SameWork d d := ⟨rfl, rfl, rfl, rfl, rfl, rfl, rfl⟩

theorem update_sameWork {α : Type} (epochId : Result String) (fault : Option Fault)
    (edit : Store → Result (Store × α)) (acts : α → List Act) :
    SameWork d (d.update c epochId fault edit acts).1 := by
  rcases update_cases (d := d) (c := c) epochId fault edit acts with ⟨e, same⟩ | ⟨next, value, -, same⟩ <;>
  · rw [same]
    exact ⟨rfl, rfl, rfl, rfl, rfl, rfl, rfl⟩

theorem submit_sameWork (env : Env) (requester : Requester) (origin : BodyId) (argv : List String)
    (id : String) (cert : Option Certificate) :
    SameWork d (d.submit c env requester origin argv id cert).1 := by
  unfold submit
  cases Exec.precheck c d.store origin argv id cert with
  | error e => exact .refl d
  | ok found =>
  cases found with
  | some job => exact .refl d
  | none =>
  have work := update_sameWork (c := c) (d := d) env.epochId env.fault
    (Exec.admitEdit c (d.surroundings env) origin argv id cert)
    (fun admitted => (admitted.2.map (Act.admitted id)).toList)
  dsimp only
  split
  · next same => rw [same] at work; exact work
  · next same => rw [same] at work; exact work
  · next same =>
    rw [same] at work
    exact ⟨work.live, work.conns, work.authorized, work.dispatches, work.undelivered, work.locals, work.syncs⟩

theorem attempt_carried {α : Type} {dispatch : Dispatch} {done : Daemon × Result α}
    (known : dispatch ∈ d.dispatches) (work : SameWork d done.1) : Carried c e d (attempt dispatch done) := by
  obtain ⟨after, result⟩ := done
  cases result with
  | ok value => exact work.carried
  | error failure =>
    refine { work.carried (c := c) (e := e) with undelivered := fun x member => ?_ }
    rcases List.mem_cons.mp member with rfl | earlier
    · exact .inr known
    · exact .inl (work.undelivered ▸ earlier)

theorem launch_sameWork (id : String) (spawnError : Option String) :
    SameWork d (d.launch id spawnError) := by
  unfold launch
  split
  · split <;> exact ⟨rfl, rfl, rfl, rfl, rfl, rfl, rfl⟩
  · exact .refl d

theorem finish_sameWork (env : Env) (id : String) : SameWork d (d.finish c env id) := by
  unfold finish
  split
  · next run grant outcome _ _ =>
    have work := update_sameWork (c := c) (d := d) env.epochId env.fault
      (Exec.finishEdit grant run outcome) (fun _ => [])
    rw [quietUpdate]
    split <;>
    · next same =>
      rw [same] at work
      exact ⟨work.live, work.conns, work.authorized, work.dispatches, work.undelivered, work.locals, work.syncs⟩
  · exact .refl d

/-- Every step of a live machine but a restart. -/
theorem carried_liveStep (env : Env) (e : Event) (running : ∀ boot, e ≠ .restart boot) :
    Carried c e d (d.liveStep c env e) := by
  cases e with
  | accept key =>
    change Carried c _ d (d.accept c key)
    unfold accept
    split_ifs
    · exact (SameWork.refl d).carried
    split
    · exact (SameWork.refl d).carried
    · next peer found =>
      refine { (SameWork.refl d).carried (c := c) (e := _) with conns := fun p member => ?_ }
      rcases List.mem_cons.mp member with rfl | earlier
      · have key : p.ownerPk = key := by simpa using List.find?_some found
        exact .inr ⟨List.mem_of_find?_eq_some found, by rw [key]⟩
      · exact .inl earlier
  | exec peer id argv =>
    change Carried c _ d (d.exec c env peer id argv)
    unfold exec
    split_ifs
    · exact (SameWork.refl d).carried
    · exact (submit_sameWork env _ _ _ _ _).carried
  | authorize peer cert =>
    change Carried c _ d (d.authorize c peer cert)
    unfold authorize
    split
    · exact (SameWork.refl d).carried
    next accepted =>
    split
    · exact (SameWork.refl d).carried
    · next checked =>
      refine { (SameWork.refl d).carried (c := c) (e := _) with authorized := fun x member => ?_ }
      rcases List.mem_cons.mp member with rfl | earlier
      · rw [bind_eq_ok] at checked
        exact .inr ⟨not_not.mp accepted, rfl, checked.choose_spec.2⟩
      · exact .inl earlier
  | execCertified peer cert =>
    change Carried c _ d (d.execCertified c env peer cert)
    unfold execCertified
    dsimp only
    split_ifs
    · exact (SameWork.refl d).carried
    · exact (submit_sameWork env _ _ _ _ _).carried
  | request peer tool deliveryId =>
    dsimp only [liveStep]
    split
    · exact (SameWork.refl d).carried
    · exact (update_sameWork _ _ _ _).carried
  | add tool allow once expiry schedule args => exact (update_sameWork _ _ _ _).carried
  | remove tool => exact (update_sameWork _ _ _ _).carried
  | decide id decision => exact (update_sameWork _ _ _ _).carried
  | ask tool => exact (update_sameWork _ _ _ _).carried
  | prune keep => exact (update_sameWork _ _ _ _).carried
  | pin index enabled => exact (update_sameWork _ _ _ _).carried
  | sendRequest body tool =>
    change Carried c _ d (d.sendRequest c env body tool)
    unfold sendRequest
    split
    · exact (SameWork.refl d).carried
    · exact (update_sameWork _ _ _ _).carried
  | settleRequest id result =>
    change Carried c _ d (d.settleRequest c env id result)
    unfold settleRequest
    split
    · exact (SameWork.refl d).carried
    · split_ifs
      · exact (SameWork.refl d).carried
      · exact (update_sameWork _ _ _ _).carried
  | compose body argv =>
    change Carried c _ d (d.compose body argv)
    unfold compose
    split <;> exact SameWork.carried ⟨rfl, rfl, rfl, rfl, rfl, rfl, rfl⟩
  | retry id =>
    change Carried c _ d (d.retry id)
    unfold retry
    split <;> exact SameWork.carried ⟨rfl, rfl, rfl, rfl, rfl, rfl, rfl⟩
  | submit draft =>
    change Carried c _ d (d.submitDraft c env draft)
    unfold submitDraft
    split
    · exact (SameWork.refl d).carried
    · split_ifs
      · exact (SameWork.refl d).carried
      · exact (update_sameWork _ _ _ _).carried
  | rename name =>
    change Carried c _ d (d.rename c env name)
    unfold rename
    dsimp only
    split
    · exact (SameWork.refl d).carried
    · exact (update_sameWork _ _ _ _).carried
  | pair name key peer =>
    change Carried c _ d (d.pair c env name key peer)
    unfold pair
    split_ifs
    · exact (SameWork.refl d).carried
    · exact (update_sameWork _ _ _ _).carried
  | selectJob id =>
    change Carried c _ d (d.selectJob id)
    unfold selectJob
    split
    · next job found _ =>
      refine { (SameWork.refl d).carried (c := c) (e := _) with dispatches := fun x member => ?_ }
      rcases List.mem_cons.mp member with rfl | earlier
      · have chosen := List.find?_some found
        rw [Bool.and_eq_true] at chosen
        exact .inr ⟨List.mem_of_find?_eq_some found, chosen.2, rfl, rfl⟩
      · exact .inl earlier
    · exact (SameWork.refl d).carried
  | answer dispatch incoming =>
    change Carried c _ d (d.answer c env dispatch incoming)
    unfold answer
    split
    · exact (SameWork.refl d).carried
    · split_ifs with absent
      · exact (SameWork.refl d).carried
      rw [not_or, not_not] at absent
      split
      · exact attempt_carried absent.1 (.refl d)
      · exact (SameWork.refl d).carried
      · exact attempt_carried absent.1 (update_sameWork _ _ _ _)
  | answerCertified dispatch published =>
    change Carried c _ d (d.answerCertified c env dispatch published)
    unfold answerCertified
    split
    · exact (SameWork.refl d).carried
    · split_ifs with absent
      · exact (SameWork.refl d).carried
      rw [not_or, not_not] at absent
      exact attempt_carried absent.1 (update_sameWork _ _ _ _)
  | fail dispatch e =>
    dsimp only [liveStep]
    split
    · exact (SameWork.refl d).carried
    next known =>
    refine { (SameWork.refl d).carried (c := c) (e := _) with undelivered := fun x member => ?_ }
    rcases List.mem_cons.mp member with rfl | earlier
    · exact .inr (not_not.mp known)
    · exact .inl earlier
  | settle dispatch e =>
    change Carried c _ d (d.settle c env dispatch e)
    unfold settle
    split_ifs
    · split
      · exact (SameWork.refl d).carried
      · exact (update_sameWork _ _ _ _).carried
    · exact (SameWork.refl d).carried
  | selectLocal id =>
    change Carried c _ d (d.selectLocal id)
    unfold selectLocal
    split
    · exact (SameWork.refl d).carried
    · next job found =>
      refine { (SameWork.refl d).carried (c := c) (e := _) with locals := fun x member => ?_ }
      rcases List.mem_cons.mp member with rfl | earlier
      · have chosen := List.find?_some found
        rw [Bool.and_eq_true] at chosen
        exact .inr ⟨List.mem_of_find?_eq_some found, chosen.2⟩
      · exact .inl earlier
  | submitLocal job =>
    change Carried c _ d (d.submitLocal c env job)
    unfold submitLocal
    split
    · exact (SameWork.refl d).carried
    have work := submit_sameWork (c := c) (d := d) env .own job.origin job.argv job.id none
    split <;>
    · next same =>
      rw [same] at work
      exact SameWork.carried ⟨work.live, work.conns, work.authorized, work.dispatches, work.undelivered,
        work.locals, work.syncs⟩
  | settleLocal job e =>
    change Carried c _ d (d.settleLocal c env job e)
    unfold settleLocal
    split
    · exact (SameWork.refl d).carried
    · exact (update_sameWork _ _ _ _).carried
  | startSync peer =>
    change Carried c _ d (d.startSync peer)
    unfold startSync
    split
    · next known found _ =>
      refine { (SameWork.refl d).carried (c := c) (e := _) with syncs := fun x member => ?_ }
      rcases List.mem_cons.mp member with rfl | earlier
      · exact .inr ⟨⟨known, List.mem_of_find?_eq_some found, by simpa using List.find?_some found⟩, rfl⟩
      · exact .inl earlier
    · exact (SameWork.refl d).carried
  | mergePage sync page =>
    change Carried c _ d (d.mergePage c env sync page)
    unfold mergePage
    split_ifs
    · exact (SameWork.refl d).carried
    · exact (update_sameWork _ _ _ _).carried
  | contact peer lastContact e => exact SameWork.carried ⟨rfl, rfl, rfl, rfl, rfl, rfl, rfl⟩
  | launch id spawnError => exact (launch_sameWork id spawnError).carried
  | exited id status =>
    change Carried c _ d (d.exited id status)
    unfold exited
    split_ifs <;> exact SameWork.carried ⟨rfl, rfl, rfl, rfl, rfl, rfl, rfl⟩
  | collect id streams waitError =>
    change Carried c _ d (d.collect id streams waitError)
    unfold collect
    split
    · split <;> exact SameWork.carried ⟨rfl, rfl, rfl, rfl, rfl, rfl, rfl⟩
    · exact (SameWork.refl d).carried
  | finish id => exact (finish_sameWork env id).carried
  | giveUp id =>
    change Carried c _ d (d.giveUp id)
    unfold giveUp
    split <;> exact SameWork.carried ⟨rfl, rfl, rfl, rfl, rfl, rfl, rfl⟩
  | release id =>
    change Carried c _ d (d.release id)
    unfold release
    split <;> exact SameWork.carried ⟨rfl, rfl, rfl, rfl, rfl, rfl, rfl⟩
  | restart boot => exact absurd rfl (running boot)

end Clix.Daemon
