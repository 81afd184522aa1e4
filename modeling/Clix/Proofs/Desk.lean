import Clix.Model.Desk

/-! # What deeds do to rows

Only a row waiting in the local queue, or an ID without a row, can be started. Once a run of this
machine was started or recorded as over, no deed brings its ID back to such a state.
-/

namespace Clix.Desk

variable {d : Desk} {deed : Deed}

theorem row?_id {id : String} {row : Row} (found : d.row? id = some row) : row.id = id := by
  simpa using List.find?_some found

theorem row?_putRow_self (d : Desk) (row : Row) : (d.putRow row).row? row.id = some row :=
  List.find?_put _ row d.rows (by simp)

theorem row?_putRow_of_ne (d : Desk) (row : Row) {id : String} (differs : row.id ≠ id) :
    (d.putRow row).row? id = d.row? id := by
  refine List.find?_put_of_ne _ _ row d.rows ?_ (by simpa using differs)
  intro other same
  have equal : other.id = row.id := by simpa using same
  simpa [equal] using differs

theorem row?_setStatus_self (d : Desk) (id : String) (status : JobStatus) :
    (d.setStatus id status).row? id = (d.row? id).map (fun r => { r with status := status }) :=
  List.find?_modifyFirst (fun r : Row => r.id == id) (fun r => { r with status := status })
    (fun _ same => same) d.rows

theorem row?_setStatus_of_ne (d : Desk) {id id' : String} (status : JobStatus) (differs : id ≠ id') :
    (d.setStatus id status).row? id' = d.row? id' := by
  refine List.find?_modifyFirst_of_ne _ _ _ d.rows ?_ ?_ <;>
  · intro row same
    have equal : row.id = id := by simpa using same
    simpa [equal] using differs

theorem row?_interrupt (d : Desk) (reason id : String) :
    (d.interrupt reason).row? id = (d.row? id).map (fun r =>
      if r.body.name = d.name ∧ r.status = .running then { r with status := .uncertain reason } else r) := by
  have kept : ∀ r : Row, (if r.body.name = d.name ∧ r.status = .running
      then ({ r with status := .uncertain reason } : Row) else r).id = r.id := by
    intro r
    split_ifs <;> rfl
  rw [row?, interrupt, List.find?_map]
  simp only [Function.comp_def, kept]
  rfl

theorem row?_enqueue (d : Desk) (row : Row) {id : String} {old : Row} (found : d.row? id = some old) :
    (d.apply (.enqueue row)).row? id = some old := by
  have first : d.rows.find? (fun r => r.id == id) = some old := found
  rw [row?, apply, List.find?_append, first]
  rfl

theorem isTerminal_of_isOutcome {success : Option Bool} {status : JobStatus}
    (outcome : isOutcome success status = true) : status.isTerminal = true := by
  cases status <;> first | rfl | exact absurd outcome (by simp [isOutcome])

/-- A row keeps its machine, requester and command. -/
theorem row?_apply (allowed : d.Allows deed) {id : String} {row : Row} (found : d.row? id = some row) :
    ∃ after, (d.apply deed).row? id = some after ∧ after.body = row.body ∧ after.origin = row.origin ∧
      after.argv = row.argv := by
  have put : ∀ new : Row, (∀ old, d.row? new.id = some old →
      old.body = new.body ∧ old.origin = new.origin ∧ old.argv = new.argv) →
      ∃ after, (d.putRow new).row? id = some after ∧ after.body = row.body ∧ after.origin = row.origin ∧
        after.argv = row.argv := by
    intro new same
    by_cases equal : new.id = id
    · subst equal
      obtain ⟨body, origin, argv⟩ := same row found
      exact ⟨new, row?_putRow_self d new, body.symm, origin.symm, argv.symm⟩
    · exact ⟨row, (row?_putRow_of_ne d new equal).trans found, rfl, rfl, rfl⟩
  have set : ∀ (other : String) (status : JobStatus), ∃ after, (d.setStatus other status).row? id = some after ∧
      after.body = row.body ∧ after.origin = row.origin ∧ after.argv = row.argv := by
    intro other status
    by_cases equal : other = id
    · subst equal
      exact ⟨{ row with status := status }, (row?_setStatus_self d other status).trans (by rw [found]; rfl),
        rfl, rfl, rfl⟩
    · exact ⟨row, (row?_setStatus_of_ne d status equal).trans found, rfl, rfl, rfl⟩
  cases deed with
  | quiet | rename _ | pair _ | owner _ _ _ => exact ⟨row, found, rfl, rfl, rfl⟩
  | enqueue new => exact ⟨row, row?_enqueue d new found, rfl, rfl, rfl⟩
  | accept new grant =>
    obtain ⟨⟨-, same⟩, -⟩ := allowed
    exact put new (fun old present => (same old present).2)
  | deny new =>
    obtain ⟨⟨-, same⟩, -⟩ := allowed
    exact put new (fun old present => (same old present).2)
  | finish new grant success =>
    obtain ⟨⟨old, present, -, body, origin, argv, -⟩, -⟩ := allowed
    refine put new (fun other there => ?_)
    obtain rfl : old = other := Option.some.inj (present.symm.trans there)
    exact ⟨body, origin, argv⟩
  | note other status | requeue other status => exact set other status
  | lose other reason => exact set other _
  | recover reason =>
    refine ⟨_, (row?_interrupt d reason id).trans (by rw [found]; rfl), ?_⟩
    dsimp only
    split_ifs <;> exact ⟨rfl, rfl, rfl⟩

/-- A machine with a row keeps its name. -/
theorem name_apply (allowed : d.Allows deed) (named : Pair.isName d.name = true) {id : String} {row : Row}
    (found : d.row? id = some row) : (d.apply deed).name = d.name := by
  cases deed with
  | rename name =>
    exfalso
    obtain ⟨-, -, unnamed | ⟨empty, -⟩⟩ := allowed
    · rw [named] at unnamed
      cases unnamed
    · rw [row?, empty] at found
      cases found
  | _ => rfl

theorem isName_apply (allowed : d.Allows deed) (named : Pair.isName d.name = true) :
    Pair.isName (d.apply deed).name = true := by
  cases deed with
  | rename name => exact allowed.1
  | _ => exact named

theorem Foreign.apply {id : String} (foreign : d.Foreign id) (allowed : d.Allows deed)
    (named : Pair.isName d.name = true) : (d.apply deed).Foreign id := by
  obtain ⟨row, found, other⟩ := foreign
  obtain ⟨after, present, body, -⟩ := row?_apply allowed found
  exact ⟨after, present, by rw [body, name_apply allowed named found]; exact other⟩

theorem Own.apply {row : Row} (own : d.Own row) (allowed : d.Allows deed)
    (named : Pair.isName d.name = true) : (d.apply deed).Own row := by
  obtain ⟨origin, old, found, body, same, argv⟩ := own
  obtain ⟨after, present, body', same', argv'⟩ := row?_apply allowed found
  exact ⟨by rw [name_apply allowed named found]; exact origin, after, present, body'.trans body,
    same'.trans same, argv'.trans argv⟩

theorem Knows.apply {p : Peer} (known : d.Knows p) (allowed : d.Allows deed) : (d.apply deed).Knows p := by
  cases deed with
  | pair peers =>
    obtain ⟨q, member, name, key⟩ := known
    obtain ⟨r, there, name', key'⟩ := allowed q member
    exact ⟨r, there, name'.trans name, key'.trans key⟩
  | _ => exact known

/-- A finished row never changes. -/
theorem row?_apply_of_terminal (allowed : d.Allows deed) {id : String} {row : Row}
    (found : d.row? id = some row) (terminal : row.status.isTerminal = true) :
    (d.apply deed).row? id = some row := by
  have queuedElsewhere : ∀ old : Row, d.row? id = some old → old.status.isLocalQueue = false := by
    intro old present
    obtain rfl : row = old := Option.some.inj (found.symm.trans present)
    by_contra queued
    rw [JobStatus.not_isTerminal_of_isLocalQueue (by simpa using queued)] at terminal
    cases terminal
  cases deed with
  | quiet | rename _ | pair _ | owner _ _ _ => exact found
  | enqueue new => exact row?_enqueue d new found
  | accept new grant =>
    obtain ⟨⟨-, same⟩, -⟩ := allowed
    refine (row?_putRow_of_ne d new ?_).trans found
    rintro rfl
    exact absurd (same row found).1 (by rw [queuedElsewhere row found]; decide)
  | deny new =>
    obtain ⟨⟨-, same⟩, -⟩ := allowed
    refine (row?_putRow_of_ne d new ?_).trans found
    rintro rfl
    exact absurd (same row found).1 (by rw [queuedElsewhere row found]; decide)
  | finish new grant success =>
    obtain ⟨⟨old, present, running, -⟩, -⟩ := allowed
    refine (row?_putRow_of_ne d new ?_).trans found
    rintro rfl
    obtain rfl : row = old := Option.some.inj (found.symm.trans present)
    rw [running] at terminal
    cases terminal
  | note other status =>
    obtain ⟨old, present, active, -⟩ := allowed
    refine (row?_setStatus_of_ne d status ?_).trans found
    rintro rfl
    obtain rfl : row = old := Option.some.inj (found.symm.trans present)
    exact absurd terminal (by rw [active]; decide)
  | requeue other status =>
    obtain ⟨old, present, queued, -⟩ := allowed
    refine (row?_setStatus_of_ne d status ?_).trans found
    rintro rfl
    exact absurd queued (by rw [queuedElsewhere old present]; decide)
  | lose other reason =>
    obtain ⟨old, present, running, -⟩ := allowed
    refine (row?_setStatus_of_ne d _ ?_).trans found
    rintro rfl
    obtain rfl : row = old := Option.some.inj (found.symm.trans present)
    rw [running] at terminal
    cases terminal
  | recover reason =>
    rw [apply, row?_interrupt, found, Option.map_some, if_neg]
    rintro ⟨-, running⟩
    rw [running] at terminal
    cases terminal

/-- A settled ID stays settled. -/
theorem Settled.apply {id : String} (settled : d.Settled id) (allowed : d.Allows deed) :
    (d.apply deed).Settled id := by
  obtain ⟨named, row, found, state⟩ := settled
  rcases state with terminal | ⟨running, body⟩
  · cases deed with
    | rename name =>
      exact ⟨allowed.1, row, found, .inl terminal⟩
    | _ => exact ⟨named, row, row?_apply_of_terminal allowed found terminal, .inl terminal⟩
  have active : row.status.isLocalQueue = false := by rw [running]; rfl
  cases deed with
  | quiet | pair _ | owner _ _ _ => exact ⟨named, row, found, .inr ⟨running, body⟩⟩
  | rename name =>
    exfalso
    obtain ⟨-, -, unnamed | ⟨empty, -⟩⟩ := allowed
    · rw [named] at unnamed
      cases unnamed
    · rw [row?, empty] at found
      cases found
  | enqueue new => exact ⟨named, row, row?_enqueue d new found, .inr ⟨running, body⟩⟩
  | accept new grant =>
    obtain ⟨⟨-, same⟩, -⟩ := allowed
    refine ⟨named, row, (row?_putRow_of_ne d new ?_).trans found, .inr ⟨running, body⟩⟩
    rintro rfl
    exact absurd (same row found).1 (by rw [active]; decide)
  | deny new =>
    obtain ⟨⟨-, same⟩, -⟩ := allowed
    refine ⟨named, row, (row?_putRow_of_ne d new ?_).trans found, .inr ⟨running, body⟩⟩
    rintro rfl
    exact absurd (same row found).1 (by rw [active]; decide)
  | finish new grant success =>
    by_cases equal : new.id = id
    · subst equal
      exact ⟨named, new, row?_putRow_self d new, .inl (isTerminal_of_isOutcome allowed.2.2)⟩
    · exact ⟨named, row, (row?_putRow_of_ne d new equal).trans found, .inr ⟨running, body⟩⟩
  | note other status =>
    obtain ⟨old, present, -, elsewhere⟩ := allowed
    refine ⟨named, row, (row?_setStatus_of_ne d status ?_).trans found, .inr ⟨running, body⟩⟩
    rintro rfl
    obtain rfl : row = old := Option.some.inj (found.symm.trans present)
    exact elsewhere body
  | requeue other status =>
    obtain ⟨old, present, queued, -⟩ := allowed
    refine ⟨named, row, (row?_setStatus_of_ne d status ?_).trans found, .inr ⟨running, body⟩⟩
    rintro rfl
    obtain rfl : row = old := Option.some.inj (found.symm.trans present)
    exact absurd queued (by rw [active]; decide)
  | lose other reason =>
    by_cases equal : other = id
    · subst equal
      exact ⟨named, { row with status := .uncertain reason },
        (row?_setStatus_self d other _).trans (by rw [found]; rfl), .inl rfl⟩
    · exact ⟨named, row, (row?_setStatus_of_ne d _ equal).trans found, .inr ⟨running, body⟩⟩
  | recover reason =>
    refine ⟨named, { row with status := .uncertain reason }, ?_, .inl rfl⟩
    rw [Desk.apply, row?_interrupt, found, Option.map_some, if_pos ⟨body, running⟩]

/-- Giving up on a run settles nothing that was not settled before. -/
theorem Settled.of_lose {id other reason : String} (settled : (d.setStatus other (.uncertain reason)).Settled id)
    (allowed : d.Allows (.lose other reason)) : d.Settled id := by
  obtain ⟨named, row, found, state⟩ := settled
  by_cases equal : other = id
  · subst equal
    obtain ⟨old, present, going, own⟩ := allowed
    exact ⟨named, old, present, .inr ⟨going, own⟩⟩
  · exact ⟨named, row, (row?_setStatus_of_ne d _ equal).symm.trans found, state⟩

theorem Settled.of_interrupt {id reason : String} (settled : (d.interrupt reason).Settled id) :
    d.Settled id := by
  obtain ⟨named, row, found, state⟩ := settled
  rw [row?_interrupt, Option.map_eq_some_iff] at found
  obtain ⟨old, present, changed⟩ := found
  refine ⟨named, old, present, ?_⟩
  split_ifs at changed with interrupted
  · exact .inr ⟨interrupted.2, interrupted.1⟩
  · rw [changed]
    exact state

/-- Nothing can be started under a settled ID. -/
theorem Settled.not_startable {row : Row} (settled : d.Settled row.id) : ¬d.Startable row := by
  rintro ⟨-, same⟩
  obtain ⟨-, old, found, state⟩ := settled
  have queued := (same old found).1
  rcases state with terminal | ⟨running, -⟩
  · rw [JobStatus.not_isTerminal_of_isLocalQueue queued] at terminal
    cases terminal
  · rw [running] at queued
    cases queued

theorem Unique.apply (unique : d.Unique) (allowed : d.Allows deed) : (d.apply deed).Unique := by
  have put : ∀ row : Row, (d.putRow row).Unique := by
    intro row
    rw [Unique, putRow]
    cases found : d.rows.find? (fun r => r.id == row.id) with
    | none =>
      rw [List.put_of_find?_none found, List.map_append, List.nodup_append]
      refine ⟨unique, List.nodup_singleton _, ?_⟩
      rintro id member other single rfl
      obtain ⟨old, there, rfl⟩ := List.mem_map.mp member
      rw [List.map_singleton, List.mem_singleton] at single
      exact List.find?_eq_none.mp found old there (by simpa using single)
    | some old =>
      have kept : (d.rows.modifyFirst (fun r => r.id == row.id) (fun _ => row)).map (·.id) =
          d.rows.map (·.id) :=
        List.map_modifyFirst_of_eq _ _ _ _ (fun r _ same => by
          have equal : r.id = row.id := by simpa using same
          exact equal.symm)
      rw [List.put_of_find? found, kept]
      exact unique
  have set : ∀ (id : String) (status : JobStatus), (d.setStatus id status).Unique := by
    intro id status
    have kept : (d.setStatus id status).rows.map (·.id) = d.rows.map (·.id) :=
      List.map_modifyFirst_of_eq _ _ _ _ (fun _ _ _ => rfl)
    rw [Unique, kept]
    exact unique
  cases deed with
  | quiet | rename _ | pair _ | owner _ _ _ => exact unique
  | enqueue row =>
    have appended := put row
    have fresh : d.rows.find? (fun r => r.id == row.id) = none := allowed.2
    rw [putRow, List.put_of_find?_none fresh] at appended
    exact appended
  | accept row grant => exact put row
  | deny row => exact put row
  | finish row grant success => exact put row
  | note id status | requeue id status => exact set id status
  | lose id reason => exact set id _
  | recover reason =>
    have kept : (d.interrupt reason).rows.map (·.id) = d.rows.map (·.id) := by
      rw [interrupt, List.map_map]
      apply List.map_congr_left
      intro r _
      simp only [Function.comp_apply]
      split_ifs <;> rfl
    rw [Unique, Desk.apply, kept]
    exact unique

theorem not_ends_of_isPlain {deed : Deed} (plain : deed.isPlain = true) (id : String) : ¬deed.Ends id := by
  cases deed <;> first | exact not_false | cases plain

/-- The run of a task goes on while other deeds are done. -/
theorem Running.apply {row : Row} (running : d.Running row) (named : Pair.isName d.name = true)
    (allowed : d.Allows deed) (kept : ¬deed.Ends row.id) :
    (d.apply deed).Running row := by
  obtain ⟨old, found, going, body, origin, argv, own⟩ := running
  have settled : d.Settled row.id := ⟨named, old, found, .inr ⟨going, by rw [body]; exact own⟩⟩
  have same : (d.apply deed).row? row.id = some old ∧ (d.apply deed).name = d.name := by
    cases deed with
    | quiet | pair _ | owner _ _ _ => exact ⟨found, rfl⟩
    | rename name =>
      exfalso
      obtain ⟨-, -, unnamed | ⟨empty, -⟩⟩ := allowed
      · rw [named] at unnamed
        cases unnamed
      · rw [row?, empty] at found
        cases found
    | enqueue new => exact ⟨row?_enqueue d new found, rfl⟩
    | accept new grant =>
      refine ⟨(row?_putRow_of_ne d new ?_).trans found, rfl⟩
      intro equal
      exact (equal ▸ settled : d.Settled new.id).not_startable allowed.1
    | deny new =>
      refine ⟨(row?_putRow_of_ne d new ?_).trans found, rfl⟩
      intro equal
      exact (equal ▸ settled : d.Settled new.id).not_startable allowed.1
    | finish new grant success => exact ⟨(row?_putRow_of_ne d new kept).trans found, rfl⟩
    | note id status =>
      refine ⟨(row?_setStatus_of_ne d status ?_).trans found, rfl⟩
      rintro rfl
      obtain ⟨present, there, -, elsewhere⟩ := allowed
      obtain rfl : old = present := Option.some.inj (found.symm.trans there)
      exact elsewhere (by rw [body]; exact own)
    | requeue id status =>
      refine ⟨(row?_setStatus_of_ne d status ?_).trans found, rfl⟩
      rintro rfl
      obtain ⟨present, there, queued, -⟩ := allowed
      obtain rfl : old = present := Option.some.inj (found.symm.trans there)
      rw [going] at queued
      cases queued
    | lose id reason => exact ⟨(row?_setStatus_of_ne d _ kept).trans found, rfl⟩
    | recover reason => exact absurd trivial kept
  exact ⟨old, same.1, going, body, origin, argv, by rw [same.2]; exact own⟩

end Clix.Desk
