import Clix.Proofs.Reachable

/-! # A job is started at most once

Whatever is delivered, lost, repeated or saved in vain, and however often the machine restarts: an ID
is started at most once, only after its job was saved as running, and never again once it is over.
-/

namespace Clix.Daemon

open Except DurableCell

variable {c : Crypto} {epoch hostname : String} {seed : Bytes}

/-- Every child was started after its job was saved as running. -/
theorem accepted_before (events : List (Env × Event)) :
    ∀ start ∈ (reach c epoch hostname seed events).starts, ∃ before after, events = before ++ after ∧
      Accepted (reach c epoch hostname seed before) start.run := by
  refine (run_traced (P := fun events run _ _ => ∃ before after, events = before ++ after ∧
    Accepted (reach c epoch hostname seed before) run) epoch hostname seed ?_ ?_ events).2
  · rintro events e run grant admission ⟨before, after, rfl, accepted⟩
    exact ⟨before, after ++ [e], List.append_assoc .., accepted⟩
  · intro events e task inv sound admits
    exact ⟨events ++ [e], [], (List.append_nil _).symm, accepted_of_admits inv admits⟩

/-- Nothing is started under an ID whose job is over. -/
theorem no_start_of_terminal {d : Daemon} (inv : Inv c d) {id : String} {job : Job}
    (recorded : d.store.job? id = some job) (spent : job.status.isTerminal = true)
    (events : List (Env × Event)) :
    ∀ start ∈ (d.run c events).starts, start.run.id = id → start ∈ d.starts := by
  have row : d.store.desk.row? id = some job.row := by rw [Store.row?_desk, recorded, Option.map_some]
  have settled : d.store.desk.Settled id := ⟨inv.named.1, job.row, row, .inl spent⟩
  refine starts_run_of_closed inv ⟨settled, inv.durable id settled⟩ (fun task found pending => ?_) events
  cases live : d.live with
  | false =>
    rw [task?, inv.stopped live] at found
    cases found
  | true =>
    obtain ⟨old, present, running, -⟩ := (inv.live live).running id task found (by rw [pending]; intro same; cases same)
    have named : task.run.id = id := task?_id found
    have same : old = job.row := by
      rw [Job.row, named] at present
      exact Option.some.inj (present.symm.trans row)
    rw [same] at running
    change job.status = .running at running
    rw [running] at spent
    cases spent

/-- At-most-once execution: no ID is started twice; a child is started only after its job was saved as
running; and an ID that is recorded as over is not started afterwards. -/
theorem at_most_once (c : Crypto) (epoch hostname : String) (seed : Bytes) (events : List (Env × Event)) :
    ((reach c epoch hostname seed events).starts.map (·.run.id)).Nodup ∧
      (∀ start ∈ (reach c epoch hostname seed events).starts, ∃ before after, events = before ++ after ∧
        Accepted (reach c epoch hostname seed before) start.run) ∧
      ∀ before after id job, events = before ++ after →
        (reach c epoch hostname seed before).store.job? id = some job → job.status.isTerminal = true →
        ∀ start ∈ (reach c epoch hostname seed events).starts, start.run.id = id →
          start ∈ (reach c epoch hostname seed before).starts := by
  refine ⟨(inv_run (inv_fresh epoch hostname seed) events).starts, accepted_before events, ?_⟩
  rintro before after id job rfl recorded spent
  rw [reach_append]
  exact no_start_of_terminal (inv_run (inv_fresh epoch hostname seed) before) recorded spent after

end Clix.Daemon
