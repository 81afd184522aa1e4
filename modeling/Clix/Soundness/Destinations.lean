import Clix.Soundness.Standing

/-! # From the words typed to the words run

What is typed behind the name of a machine is what its job asks for: in every content of this machine, in every attempt
to deliver it, and in every child that runs it, here or on the machine that was named.
-/

namespace Clix

open Except Json DurableCell

namespace Cli

/-! ## The words typed -/

/-- The ways to type a command for a machine without any option of it being read. -/
inductive Typed (body : String) (words : List String) : Bool → List String → Prop
  | explicit (program : String) : Typed body words false (program :: "--" :: body :: words)
  | explicitNoWait (program : String) : Typed body words true (program :: "--no-wait" :: "--" :: body :: words)
  | marked (program : String) : Typed body words false (program :: ("@" ++ body) :: words)
  | markedNoWait (program : String) : Typed body words true (program :: "--no-wait" :: ("@" ++ body) :: words)

variable {typed parts toolArgv words : List String} {body marked : String} {noWait : Bool} {cmd : Cmd}

theorem startsWithAt_at (body : String) : startsWithAt ("@" ++ body) = true := by
  rw [startsWithAt, String.toList_append]
  rfl

theorem at_ne {word : String} (body : String) (unmarked : startsWithAt word = false) : "@" ++ body ≠ word := by
  rintro rfl
  rw [startsWithAt_at] at unmarked
  cases unmarked

theorem eq_at_of_startsWithAt (starts : startsWithAt marked = true) : ∃ body, marked = "@" ++ body := by
  rw [startsWithAt, beq_iff_eq] at starts
  refine ⟨String.ofList marked.toList.tail, String.toList_inj.mp ?_⟩
  rw [String.toList_append]
  exact (List.eq_cons_of_mem_head? starts).trans (congrArg _ String.toList_ofList.symm)

theorem ofList_drop_at (body : String) : String.ofList (("@" ++ body).toList.drop 1) = body := by
  rw [String.toList_append]
  exact String.ofList_toList

theorem eq_of_second {word : String} (found : typed[1]? = some word) :
    ∃ program rest, typed = program :: word :: rest := by
  rcases typed with _ | ⟨program, _ | ⟨first, rest⟩⟩
  · cases found
  · cases found
  · cases found
    exact ⟨program, rest, rfl⟩

theorem eq_of_third {word other : String} (found : typed[1]? = some word) (next : typed[2]? = some other) :
    ∃ program rest, typed = program :: word :: other :: rest := by
  obtain ⟨program, rest, rfl⟩ := eq_of_second found
  cases rest with
  | nil => cases next
  | cons second rest =>
    cases next
    exact ⟨program, rest, rfl⟩

theorem explicitStart_eq_some {start : ℕ × Bool} (found : explicitStart typed = some start) :
    (∃ program parts, typed = program :: "--" :: parts ∧ start = (2, false)) ∨
      ∃ program parts, typed = program :: "--no-wait" :: "--" :: parts ∧ start = (3, true) := by
  rw [explicitStart] at found
  split_ifs at found with dashes patient
  · cases found
    obtain ⟨program, parts, rfl⟩ := eq_of_second dashes
    exact .inl ⟨program, parts, rfl, rfl⟩
  · cases found
    obtain ⟨program, parts, rfl⟩ := eq_of_third patient.1 patient.2
    exact .inr ⟨program, parts, rfl, rfl⟩

theorem markedIndex_eq_some {index : ℕ × Bool} (found : markedIndex typed = some index) :
    (∃ program body words, typed = program :: ("@" ++ body) :: words ∧ index = (1, false)) ∨
      ∃ program body words, typed = program :: "--no-wait" :: ("@" ++ body) :: words ∧ index = (2, true) := by
  rw [markedIndex] at found
  split_ifs at found with marks patient
  · cases found
    obtain ⟨first, second, starts⟩ := (Option.any_eq_true ..).mp marks
    obtain ⟨program, words, rfl⟩ := eq_of_second second
    obtain ⟨body, rfl⟩ := eq_at_of_startsWithAt starts
    exact .inl ⟨program, body, words, rfl, rfl⟩
  · cases found
    obtain ⟨second, third, starts⟩ := (Option.any_eq_true ..).mp patient.2
    obtain ⟨program, words, rfl⟩ := eq_of_third patient.1 third
    obtain ⟨body, rfl⟩ := eq_at_of_startsWithAt starts
    exact .inr ⟨program, body, words, rfl, rfl⟩

theorem parseExplicit_eq_ok : parseExplicit parts noWait = .ok cmd ↔
    ∃ body words, parts = body :: words ∧ words ≠ [] ∧ Pair.isName body = true ∧ cmd = .exec body words noWait := by
  rw [parseExplicit, refuseIf_bind_eq_ok, Pair.validateName, refuseIf_bind_eq_ok, Bool.not_eq_false]
  constructor
  · rintro ⟨long, named, success⟩
    cases success
    rcases parts with _ | ⟨body, _ | ⟨word, words⟩⟩
    · exact absurd Nat.zero_lt_two long
    · exact absurd Nat.one_lt_two long
    · exact ⟨body, word :: words, rfl, List.cons_ne_nil _ _, named, rfl⟩
  · rintro ⟨body, words, rfl, given, named, rfl⟩
    have positive := List.length_pos_of_ne_nil given
    refine ⟨?_, named, rfl⟩
    rw [List.length_cons]
    omega

theorem parseMarked_eq_ok (body : String) : parseMarked ("@" ++ body) words noWait = .ok cmd ↔
    words ≠ [] ∧ Pair.isName body = true ∧ cmd = .exec body words noWait := by
  rw [parseMarked, ofList_drop_at, refuseIf_bind_eq_ok, Pair.validateName, refuseIf_bind_eq_ok, Bool.not_eq_false]
  refine and_congr_right (fun _ => and_congr_right (fun _ => ?_))
  exact ⟨fun success => by cases success; rfl, fun same => by rw [same]; rfl⟩

/-- A command line that names the machine first asks for exactly the words behind it. -/
theorem parseDestination_eq_ok : parseDestination typed = some (.ok cmd) ↔
    ∃ body words noWait, Typed body words noWait typed ∧ words ≠ [] ∧ Pair.isName body = true ∧
      cmd = .exec body words noWait := by
  rw [parseDestination, Option.or_eq_some_iff, Option.map_eq_some_iff, Option.map_eq_some_iff]
  constructor
  · rintro (⟨start, found, parsed⟩ | ⟨-, index, found, parsed⟩)
    · obtain ⟨body, words, same, given, named, rfl⟩ := parseExplicit_eq_ok.mp parsed
      rcases explicitStart_eq_some found with ⟨program, parts, rfl, rfl⟩ | ⟨program, parts, rfl, rfl⟩
      · obtain rfl : parts = body :: words := same
        exact ⟨body, words, false, .explicit program, given, named, rfl⟩
      · obtain rfl : parts = body :: words := same
        exact ⟨body, words, true, .explicitNoWait program, given, named, rfl⟩
    · rcases markedIndex_eq_some found with ⟨program, body, words, rfl, rfl⟩ | ⟨program, body, words, rfl, rfl⟩
      · obtain ⟨given, named, rfl⟩ := (parseMarked_eq_ok body).mp parsed
        exact ⟨body, words, false, .marked program, given, named, rfl⟩
      · obtain ⟨given, named, rfl⟩ := (parseMarked_eq_ok body).mp parsed
        exact ⟨body, words, true, .markedNoWait program, given, named, rfl⟩
  · rintro ⟨body, words, noWait, typed, given, named, rfl⟩
    have explicit : parseExplicit (body :: words) noWait = .ok (.exec body words noWait) :=
      parseExplicit_eq_ok.mpr ⟨body, words, rfl, given, named, rfl⟩
    have marked : parseMarked ("@" ++ body) words noWait = .ok (.exec body words noWait) :=
      (parseMarked_eq_ok body).mpr ⟨given, named, rfl⟩
    have dashes : "@" ++ body ≠ "--" := at_ne body rfl
    have patient : "@" ++ body ≠ "--no-wait" := at_ne body rfl
    cases typed with
    | explicit program => exact .inl ⟨(2, false), if_pos rfl, explicit⟩
    | explicitNoWait program =>
      refine .inl ⟨(3, true), ?_, explicit⟩
      rw [explicitStart, if_neg (by simp), if_pos ⟨rfl, rfl⟩]
    | marked program =>
      refine .inr ⟨?_, (1, false), if_pos (startsWithAt_at body), marked⟩
      rw [explicitStart, if_neg (by simpa using dashes), if_neg (by simp [patient]), Option.map_none]
    | markedNoWait program =>
      refine .inr ⟨?_, (2, true), ?_, marked⟩
      · rw [explicitStart, if_neg (by simp), if_neg (by simp [dashes]), Option.map_none]
      · rw [markedIndex, if_neg (fun marks => by cases marks), if_pos ⟨rfl, startsWithAt_at body⟩]

/-- At most one `--no-wait` is taken, from the place that is looked at. -/
theorem takeNoWait_eq {stripped : List String × Bool} (front : List String) {rest : List String}
    (taken : (takeNoWait front.length stripped).1 = front ++ rest) : ∃ mid : List String,
      (mid = [] ∨ mid = ["--no-wait"]) ∧ stripped.1 = front ++ (mid ++ rest) ∧
        (takeNoWait front.length stripped).2 = (stripped.2 || !mid.isEmpty) := by
  rw [takeNoWait] at taken ⊢
  split_ifs at taken ⊢ with found
  · obtain ⟨inside, there⟩ := List.getElem?_eq_some_iff.mp found
    rw [List.eraseIdx_eq_take_drop_succ] at taken
    obtain ⟨before, behind⟩ := List.append_inj taken (List.length_take_of_le inside.le)
    refine ⟨["--no-wait"], .inr rfl, ?_, (Bool.or_true _).symm⟩
    calc stripped.1 = stripped.1.take front.length ++ stripped.1.drop front.length := (List.take_append_drop _ _).symm
      _ = front ++ (["--no-wait"] ++ rest) := by
        rw [before, List.drop_eq_getElem_cons inside, there, behind]
        rfl
  · exact ⟨[], .inl rfl, taken, (Bool.or_false _).symm⟩

/-- Behind the options, too, the words after the machine are those of the command, and `--no-wait` is not taken from
among them. -/
theorem parseExternal_eq_ok (success : parseExternal parts noWait = .ok cmd) : ∃ lead mid body words,
    (lead = [] ∨ lead = ["--no-wait"]) ∧ (mid = [] ∨ mid = ["--no-wait"]) ∧ parts = lead ++ body :: (mid ++ words) ∧
      words ≠ [] ∧ cmd = .exec body words (noWait || !lead.isEmpty || !mid.isEmpty) := by
  rw [parseExternal, refuseIf_bind_eq_ok] at success
  obtain ⟨long, success⟩ := success
  cases success
  rcases stripped : (stripNoWait parts noWait).1 with _ | ⟨body, _ | ⟨word, words⟩⟩
  · rw [stripped] at long
    exact absurd Nat.zero_lt_two long
  · rw [stripped] at long
    exact absurd Nat.one_lt_two long
  · obtain ⟨mid, between, rest, second⟩ := takeNoWait_eq [body] stripped
    obtain ⟨lead, before, same, first⟩ := takeNoWait_eq [] rest
    refine ⟨lead, mid, body, word :: words, before, between, same, List.cons_ne_nil _ _, ?_⟩
    have patient : (stripNoWait parts noWait).2 = (noWait || !lead.isEmpty || !mid.isEmpty) :=
      second.trans (congrArg (· || !mid.isEmpty) first)
    rw [patient]
    rfl

end Cli

theorem History.matchesJob_of_forJob {s : Store} {job : Job} {entry : Entry} (found : forJob s job = some entry) :
    matchesJob entry.record.certificate job = true := by
  rw [forJob] at found
  split at found
  · cases found
  · have kept := (Option.filter_eq_some_iff.mp found).2
    rw [Bool.and_eq_true] at kept
    exact kept.2

namespace Desk

variable {d : Desk} {deed : Deed} {row other : Row}

/-! ## The words saved -/

/-- There is a row for a job, with its machine, requester and command, whatever its status. -/
def Holds (d : Desk) (row : Row) : Prop :=
  ∃ old, d.row? row.id = some old ∧ old.body = row.body ∧ old.origin = row.origin ∧ old.argv = row.argv

theorem Holds.apply (holds : d.Holds row) (allowed : d.Allows deed) : (d.apply deed).Holds row := by
  obtain ⟨old, found, body, origin, argv⟩ := holds
  obtain ⟨after, present, sameBody, sameOrigin, sameArgv⟩ := row?_apply allowed found
  exact ⟨after, present, sameBody.trans body, sameOrigin.trans origin, sameArgv.trans argv⟩

theorem Holds.agree (holds : d.Holds row) (others : d.Holds other) (same : row.id = other.id) :
    row.body = other.body ∧ row.origin = other.origin ∧ row.argv = other.argv := by
  obtain ⟨old, found, body, origin, argv⟩ := holds
  obtain ⟨again, there, otherBody, otherOrigin, otherArgv⟩ := others
  rw [same, there] at found
  cases found
  exact ⟨body.symm.trans otherBody, origin.symm.trans otherOrigin, argv.symm.trans otherArgv⟩

/-- A row that is appended under a new ID is the row of that ID. -/
theorem holds_enqueue (absent : d.row? row.id = none) : (d.apply (.enqueue row)).Holds row := by
  refine ⟨row, ?_, rfl, rfl, rfl⟩
  have first : d.rows.find? (fun r => r.id == row.id) = none := absent
  rw [row?, apply, List.find?_append, first]
  simp

end Desk

namespace Daemon

variable {c : Crypto} {epoch hostname : String} {seed : Bytes} {d : Daemon} {env : Env} {draft : Draft} {job : Job}

theorem preserved_holds (row : Row) : Preserved (fun _ _ _ _ => True) (fun desk _ => desk.Holds row) where
  deed _ _ _ allowed _ holds := holds.apply allowed
  reload _ _ holds := holds

/-- A command of the owner that was saved as a new job, and acknowledged. -/
structure Queued (c : Crypto) (d : Daemon) (env : Env) (draft : Draft) (job : Job) : Prop where
  drafted : draft ∈ d.drafts
  made : Dispatch.newJob env.newId draft.origin draft.body draft.argv = .ok job
  absent : d.store.job? job.id = none
  saved : (d.quietUpdate c env (Dispatch.appendEdit job draft.retryOf)).2 = .ok ()

theorem Queued.row_eq (queued : Queued c d env draft job) :
    job.row = ⟨job.id, draft.body, draft.origin, draft.argv, .queued⟩ := by
  have made := queued.made
  rw [Dispatch.newJob, bind_eq_ok] at made
  obtain ⟨id, -, made⟩ := made
  rw [bind_eq_ok] at made
  obtain ⟨⟨⟩, -, made⟩ := made
  cases made
  rfl

theorem holds_of_stage {epochId : Result String} {next : Store} {retryOf : Option String} {s : Store}
    (absent : s.job? job.id = none)
    (staged : Store.stage c epochId s (Dispatch.appendEdit job retryOf) = .ok (next, ())) :
    next.desk.Holds job.row := by
  obtain ⟨edited, ran, desk, -⟩ := Store.stage_desk staged
  have appended : edited.desk = s.desk.apply (.enqueue job.row) := by
    cases ran
    rw [History.linkRetry_frame]
    simp [Store.desk, Desk.apply]
  rw [desk, appended]
  refine Desk.holds_enqueue ?_
  rw [Store.row?_desk, show job.row.id = job.id from rfl, absent]
  rfl

/-- A job whose saving was acknowledged is in memory and in the file, and no older content can come back. -/
theorem everywhere_queued (live : d.live = true) (queued : Queued c d env draft job) :
    Everywhere (Image.Has (fun desk _ => desk.Holds job.row)) (d.step c (env, .submit draft)).cell := by
  have submitted : d.step c (env, .submit draft) =
      (d.quietUpdate c env (Dispatch.appendEdit job draft.retryOf)).1 := by
    rw [step, if_pos live]
    change d.submitDraft c env draft = _
    rw [submitDraft, queued.made]
    dsimp only
    rw [if_neg]
    simp [queued.drafted, queued.absent]
  rw [submitted]
  exact everywhere_of_update queued.saved (fun next staged => holds_of_stage queued.absent staged)

/-! ## The words sent and run -/

/-- The job of a child is in every content of the machine. -/
theorem everywhere_started {events : List (Env × Event)} {start : Start}
    (started : start ∈ (reach c epoch hostname seed events).starts) :
    Everywhere (Image.Has (fun desk _ => desk.Holds start.run.row)) (reach c epoch hostname seed events).cell := by
  refine (run_traced (P := fun events run _ _ => Everywhere (Image.Has (fun desk _ => desk.Holds run.row))
    (reach c epoch hostname seed events).cell) epoch hostname seed ?_ ?_ events).2 start started
  · exact fun events e run grant admission holds => everywhere_after (preserved_holds run.row) [e] holds
  · intro events e task inv sound admits
    obtain ⟨file, replaced⟩ := admits.durable
    have held : (reach c epoch hostname seed (events ++ [e])).store.desk.Holds task.run.row := by
      refine ⟨task.run.row, ?_, rfl, rfl, rfl⟩
      rw [admits.does.2]
      exact Desk.row?_putRow_self _ task.run.row
    refine ⟨held, ?_, fun old there => ?_⟩
    · rw [file]
      exact held
    · rw [replaced] at there
      cases there

/-- What an attempt to deliver a job carries: its row, and a certificate of it. -/
theorem attempts_held (events : List (Env × Event)) : ∀ x ∈ (reach c epoch hostname seed events).dispatches,
    (reach c epoch hostname seed events).store.desk.Holds x.job.row ∧
      ∀ cert, x.certificate = some cert → History.matchesJob cert x.job = true := by
  induction events using List.reverseRecOn with
  | nil => exact fun _ member => absurd member List.not_mem_nil
  | append_singleton events e ih =>
    have inv := inv_run (inv_fresh (c := c) epoch hostname seed) events
    have step := step_cases inv e
    rw [reach_concat]
    generalize Daemon.step c (reach c epoch hostname seed events) e = d' at step
    cases step with
    | stopped dead going exits _ same =>
      rw [same]
      exact ih
    | restarted boot same =>
      rw [same, (cleared_restart e.1 boot _).dispatches]
      exact fun _ member => absurd member List.not_mem_nil
    | live running going sound core carried =>
      obtain ⟨deed, allowed, desk⟩ := desk_core sound core
      intro x member
      rw [desk]
      rcases carried.dispatches x member with old | ⟨there, -, -, certified⟩
      · exact ⟨(ih x old).1.apply allowed, (ih x old).2⟩
      · refine ⟨Desk.Holds.apply ?_ allowed, fun cert present => ?_⟩
        · have found : (reach c epoch hostname seed events).store.desk.row? x.job.id = some x.job.row :=
            List.find?_key_of_mem (fun r : Row => r.id) inv.unique.1 (List.mem_map_of_mem there)
          exact ⟨x.job.row, found, rfl, rfl, rfl⟩
        · rw [certified, Option.map_eq_some_iff] at present
          obtain ⟨entry, found, rfl⟩ := present
          exact History.matchesJob_of_forJob found

/-- A child is given the words of its run: the first one names the tool of its grant. -/
theorem run_words {events : List (Env × Event)} {start : Start}
    (started : start ∈ (reach c epoch hostname seed events).starts) :
    start.run.argv.head? = some start.grant.tool ∧
      start.command = ⟨start.grant.binary, start.grant.tool, start.run.argv.drop 1⟩ := by
  obtain ⟨before, e, after, -, -, -, permits, -⟩ := run_admitted events start started
  exact ⟨permits.tool, Exec.command_eq_ok (run_command events start started)⟩

/-- A child that a machine admitted under a certificate has the job, the requester and the words of that certificate. -/
theorem run_certified {events : List (Env × Event)} {start : Start}
    (started : start ∈ (reach c epoch hostname seed events).starts) {p : Peer} {cert : Certificate}
    (admitted : start.admission.requester = .certified p cert) :
    start.run.id = cert.invocation.id ∧ start.run.origin = cert.invocation.origin ∧
      cert.invocation.argv.head? = some start.grant.tool ∧
      start.command = ⟨start.grant.binary, start.grant.tool, cert.invocation.argv.drop 1⟩ := by
  obtain ⟨tool, command⟩ := run_words started
  obtain ⟨before, e, after, -, -, -, -, speaks, -⟩ := run_admitted events start started
  rw [admitted] at speaks
  obtain ⟨origin, -, -, ⟨-, presents⟩, id, argv⟩ := speaks
  rw [argv] at tool command
  exact ⟨id, origin.trans presents.origin.symm, tool, command⟩

/-- Whatever happens after a command was saved as a job: its row, what is sent for it and what runs for it, here or under
the certificate that was sent, have the machine, the requester and the words of the command. -/
theorem queued_kept {before after : List (Env × Event)} (live : (reach c epoch hostname seed before).live = true)
    (queued : Queued c (reach c epoch hostname seed before) env draft job) :
    let later := reach c epoch hostname seed (before ++ (env, .submit draft) :: after)
    Everywhere (fun image => ∃ saved, image.store.job? job.id = some saved ∧ saved.body = draft.body ∧
        saved.origin = draft.origin ∧ saved.argv = draft.argv) later.cell ∧
      (∀ x ∈ later.dispatches, x.job.id = job.id → x.job.body = draft.body ∧ x.job.argv = draft.argv ∧
        ∀ cert, x.certificate = some cert → cert.invocation.body = draft.body ∧ cert.invocation.argv = draft.argv ∧
          ∀ epoch hostname seed events, ∀ start ∈ (reach c epoch hostname seed events).starts,
            ∀ p, start.admission.requester = .certified p cert → start.run.id = job.id ∧
              start.run.origin = draft.origin ∧ draft.argv.head? = some start.grant.tool ∧
              start.command = ⟨start.grant.binary, start.grant.tool, draft.argv.drop 1⟩) ∧
      ∀ start ∈ later.starts, start.run.id = job.id → start.run.origin = draft.origin ∧
        draft.argv.head? = some start.grant.tool ∧
        start.command = ⟨start.grant.binary, start.grant.tool, draft.argv.drop 1⟩ := by
  intro later
  have held : Everywhere (Image.Has (fun desk _ => desk.Holds job.row)) later.cell := by
    have now := everywhere_queued live queued
    rw [← reach_concat] at now
    have kept := everywhere_after (preserved_holds job.row) after now
    rwa [List.append_assoc, List.singleton_append] at kept
  have row := queued.row_eq
  refine ⟨held.mono (fun image holds => ?_), fun x member same => ?_, fun start started same => ?_⟩
  · obtain ⟨old, found, body, origin, argv⟩ := holds
    rw [Store.row?_desk, Option.map_eq_some_iff] at found
    obtain ⟨saved, there, rfl⟩ := found
    rw [row] at body origin argv
    exact ⟨saved, there, body, origin, argv⟩
  · obtain ⟨holds, certified⟩ := attempts_held _ x member
    obtain ⟨body, origin, argv⟩ := holds.agree held.1 same
    rw [row] at body origin argv
    refine ⟨body, argv, fun cert present => ?_⟩
    obtain ⟨sameId, sameOrigin, sameBody, sameArgv⟩ := History.matchesJob_eq_true (certified cert present)
    refine ⟨sameBody.trans body, sameArgv.trans argv, fun _ _ _ events start started p admitted => ?_⟩
    obtain ⟨ran, asked, tool, command⟩ := run_certified started admitted
    rw [sameArgv.trans argv] at tool command
    exact ⟨ran.trans (sameId.trans same), asked.trans (sameOrigin.trans origin), tool, command⟩
  · obtain ⟨-, origin, argv⟩ := Desk.Holds.agree (everywhere_started started).1 held.1 same
    rw [row] at origin argv
    obtain ⟨tool, command⟩ := run_words started
    have words : start.run.argv = draft.argv := argv
    rw [words] at tool command
    exact ⟨origin, tool, command⟩

end Daemon

namespace Owner

open Daemon

variable {c : Crypto} {epoch hostname : String} {seed : Bytes} {word : ℕ} {fs : FileSystem} {body : String}
  {words typed : List String} {noWait : Bool} {request : Value}

/-- From the words typed to the words run: a command line that names the machine first asks the sidecar for exactly the
words behind the name, and once that command was saved as a job, every content of this machine has the job with these
words, every attempt to deliver it carries them, under a certificate of them, and a child that runs it, on this machine
or on any other that admitted that certificate, is given them. -/
theorem typed_kept (small : word ≤ 2 ^ 64)
    (parsed : Cli.parseDestination typed = some (.ok (.exec body words noWait)))
    (written : rpcFromCmd fs (.exec body words noWait) = .ok request)
    (short : request.text.length < Limits.ownerRequestBytes) {before between after : List (Env × Event)}
    {env env' : Env} {draft : Draft} {job : Job}
    (composed : draft = ⟨⟨(reach c epoch hostname seed before).store.bodyName⟩, ⟨body⟩, words, none⟩)
    (live : (reach c epoch hostname seed (before ++ (env, .compose body words) :: between)).live = true)
    (queued : Queued c (reach c epoch hostname seed (before ++ (env, .compose body words) :: between)) env' draft job) :
    let later := reach c epoch hostname seed
      (before ++ (env, .compose body words) :: between ++ (env', .submit draft) :: after)
    Cli.Typed body words noWait typed ∧
      (∀ now rest, receive word now (payload request ++ rest) = (some (.ok (.exec body words noWait)), rest)) ∧
      Everywhere (fun image => ∃ saved, image.store.job? job.id = some saved ∧ saved.body = ⟨body⟩ ∧
        saved.origin = ⟨(reach c epoch hostname seed before).store.bodyName⟩ ∧ saved.argv = words) later.cell ∧
      (∀ x ∈ later.dispatches, x.job.id = job.id → x.job.body = ⟨body⟩ ∧ x.job.argv = words ∧
        ∀ cert, x.certificate = some cert → cert.invocation.body = ⟨body⟩ ∧ cert.invocation.argv = words ∧
          ∀ epoch' hostname' seed' events, ∀ start ∈ (reach c epoch' hostname' seed' events).starts,
            ∀ p, start.admission.requester = .certified p cert → start.run.id = job.id ∧
              start.run.origin = ⟨(reach c epoch hostname seed before).store.bodyName⟩ ∧
              words.head? = some start.grant.tool ∧
              start.command = ⟨start.grant.binary, start.grant.tool, words.drop 1⟩) ∧
      ∀ start ∈ later.starts, start.run.id = job.id →
        start.run.origin = ⟨(reach c epoch hostname seed before).store.bodyName⟩ ∧
        words.head? = some start.grant.tool ∧
        start.command = ⟨start.grant.binary, start.grant.tool, words.drop 1⟩ := by
  intro later
  obtain ⟨_, _, _, asked, given, -, same⟩ := Cli.parseDestination_eq_ok.mp parsed
  cases same
  subst composed
  obtain ⟨saved, sent, run⟩ : _ ∧ _ ∧ ∀ start ∈ later.starts, _ := queued_kept live queued
  refine ⟨asked, fun now rest => ?_, saved, sent, run⟩
  obtain ⟨fits, read⟩ : Fits inOrder maxDepth request ∧
      readOp word now request = Cli.Cmd.op fs now (.exec body words noWait) := readOp_request small trivial written
  rw [receive_payload fits short rest, read, Cli.Cmd.op, if_neg given]

end Owner

namespace DestinationExample

set_option maxRecDepth 40000

open Daemon EnforcementExample StandingExample

/-- `clix --no-wait @bob git status`. -/
def typed : List String := ["clix", "--no-wait", "@bob", "git", "status"]

def words : List String := ["git", "status"]

def draft : Draft := ⟨⟨"alice"⟩, bob, words, none⟩

def job : Job := ⟨"id", bob, words, ⟨"alice"⟩, .queued, [], []⟩

def command : Event := .compose "bob" words

theorem parsed : Cli.parseDestination typed = some (.ok (.exec "bob" words true)) :=
  Cli.parseDestination_eq_ok.mpr ⟨"bob", words, true, .markedNoWait "clix", by decide, by decide, rfl⟩

def request : Value := Owner.message "exec" ["body", "argv", "no_wait"] [.string "bob", toValue inOrder words, .bool true]

theorem written : Owner.rpcFromCmd fs (.exec "bob" words true) = .ok request := rfl

theorem short : request.text.length < Limits.ownerRequestBytes := by decide +kernel

theorem composed : draft = ⟨⟨(alice paired).store.bodyName⟩, ⟨"bob"⟩, words, none⟩ := by decide

theorem live : (alice (paired ++ (first, command) :: [])).live = true := by decide

theorem queued : Queued crypto (alice (paired ++ (first, command) :: [])) first draft job where
  drafted := by decide
  made := by decide
  absent := by decide
  saved := by decide

abbrev later : Daemon := alice (paired ++ (first, command) :: [] ++ (first, .submit draft) :: [(first, .selectJob "id")])

theorem selected : later.dispatches.map (fun x => (x.job.id, x.certificate.isSome)) = [("id", true)] := by decide

/-- The job that is saved and sent to Bob is what was typed. -/
theorem status_kept :
    Everywhere (fun image => ∃ saved, image.store.job? "id" = some saved ∧ saved.argv = words) later.cell ∧
    ∃ x ∈ later.dispatches, x.job.argv = words ∧ ∃ cert, x.certificate = some cert ∧ cert.invocation.argv = words := by
  obtain ⟨-, -, saved, sent, -⟩ : _ ∧ _ ∧ _ ∧ _ ∧ ∀ start ∈ later.starts, _ :=
    Owner.typed_kept le_rfl parsed written short composed live queued
  obtain ⟨x, rest, all, equal, -⟩ := List.map_eq_cons_iff.mp selected
  obtain ⟨named, certified⟩ := Prod.mk.inj equal
  obtain ⟨cert, present⟩ := Option.isSome_iff_exists.mp certified
  have member : x ∈ later.dispatches := all ▸ List.mem_cons_self
  obtain ⟨-, argv, certs⟩ := sent x member named
  refine ⟨saved.mono (fun image holds => ?_), x, member, argv, cert, present, (certs cert present).2.1⟩
  obtain ⟨kept, found, -, -, same⟩ := holds
  exact ⟨kept, found, same⟩

end DestinationExample

end Clix
