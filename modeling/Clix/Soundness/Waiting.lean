import Clix.Soundness.Retrying

/-! # When waiting agrees with inspecting

A client that waits for its command is answered from the local row, and an inspection from the entry that leads to the
row of the job. What is told of the output is the same as long as the row has it exactly when the entry does.
-/

namespace Clix

open Except DurableCell

namespace History

variable {c : Crypto} {s : Store} {id text : String} {v : View} {j : Job} {key : String} {e : Entry} {fact : SignedFact}

/-! ## What is kept of an output -/

def rowOutput (j : Job) : CapturedOutput := ⟨j.stdout, j.stderr⟩

/-- Whether a row is of the admission of a key, and has the bytes that a fact tells of. -/
def HoldsOutput (c : Crypto) (s : Store) (key : String) (j : Job) (fact : Fact) : Prop :=
  s.jobCertificates.get? j.id = some key ∧ outputMatches c (rowOutput j) fact = true

/-- Whether an entry has a replica of the bytes that a fact tells of. -/
def CopiesOutput (c : Crypto) (e : Entry) (fact : Fact) : Prop := ∃ o, e.output = some o ∧ outputMatches c o fact = true

/-- Whether a fact tells of no output. -/
def NoOutput (fact : Fact) : Prop := fact.stdout.bytes = 0 ∧ fact.stderr.bytes = 0

def KeepsOutput (c : Crypto) (s : Store) (j : Job) (key : String) (e : Entry) (fact : Fact) : Prop :=
  s.historyPruned.contains key = false ∧
    ((s.outputPruned.contains j.id = false ∧ HoldsOutput c s key j fact) ∨ CopiesOutput c e fact)

theorem selectedOutput_eq_some (keyed : invocationHash c e.record.certificate = key)
    (about : invocationAbout e.record.certificate.invocation = jobAbout s j) (selected : e.record.selected = some fact)
    {o : CapturedOutput} : selectedOutput c s e (some j) = some o ↔ s.historyPruned.contains key = false ∧
      outputMatches c o fact.fact = true ∧
      (s.outputPruned.contains j.id = false ∧ HoldsOutput c s key j fact.fact ∧ o = rowOutput j ∨
        ¬(s.outputPruned.contains j.id = false ∧ HoldsOutput c s key j fact.fact) ∧ e.output = some o) := by
  have matched : matchesJob e.record.certificate j = true := by
    simp only [invocationAbout, jobAbout, Prod.mk.injEq] at about
    simp [matchesJob, about]
  have taken : (admittedUnder s key e.record.certificate j && holdsOutput c s j fact.fact) = true ↔
      s.outputPruned.contains j.id = false ∧ HoldsOutput c s key j fact.fact := by
    rw [admittedUnder, matched, holdsOutput, HoldsOutput, outputMatches, rowOutput]
    simp only [Bool.and_true, Bool.and_eq_true, beq_iff_eq, Bool.not_eq_true']
    tauto
  rw [selectedOutput, selected]
  dsimp only
  rw [keyed]
  split_ifs with pruned
  · rw [pruned]
    exact iff_of_false (by simp) (fun held => absurd held.1 (by simp))
  · rw [Bool.not_eq_true] at pruned
    by_cases held : s.outputPruned.contains j.id = false ∧ HoldsOutput c s key j fact.fact
    · have chosen : Option.filter (fun job => admittedUnder s key e.record.certificate job &&
          holdsOutput c s job fact.fact) (some j) = some j := Option.filter_some_pos (taken.mpr held)
      rw [chosen]
      constructor
      · intro same
        obtain rfl : rowOutput j = o := Option.some.inj same
        exact ⟨pruned, held.2.2, .inl ⟨held.1, held.2, rfl⟩⟩
      · rintro ⟨-, -, ⟨-, -, rfl⟩ | ⟨other, -⟩⟩
        · rfl
        · exact absurd held other
    · have kept : Option.filter (fun job => admittedUnder s key e.record.certificate job &&
          holdsOutput c s job fact.fact) (some j) = none := by
        exact Option.filter_some_neg (Bool.eq_false_iff.mpr (fun there => held (taken.mp there)))
      rw [kept]
      dsimp only
      rw [Option.filter_eq_some_iff]
      constructor
      · rintro ⟨there, matched⟩
        exact ⟨pruned, matched, .inr ⟨held, there⟩⟩
      · rintro ⟨-, matched, ⟨row, holds, -⟩ | ⟨-, there⟩⟩
        · exact absurd ⟨row, holds⟩ held
        · exact ⟨there, matched⟩

/-- Some bytes are chosen for what leads to a row exactly if there are any. -/
theorem exists_selectedOutput (keyed : invocationHash c e.record.certificate = key)
    (about : invocationAbout e.record.certificate.invocation = jobAbout s j) (selected : e.record.selected = some fact) :
    (∃ o, selectedOutput c s e (some j) = some o) ↔ KeepsOutput c s j key e fact.fact := by
  simp only [selectedOutput_eq_some keyed about selected]
  constructor
  · rintro ⟨o, pruned, matched, ⟨row, holds, -⟩ | ⟨-, there⟩⟩
    · exact ⟨pruned, .inl ⟨row, holds⟩⟩
    · exact ⟨pruned, .inr ⟨o, there, matched⟩⟩
  · rintro ⟨pruned, kept⟩
    by_cases held : s.outputPruned.contains j.id = false ∧ HoldsOutput c s key j fact.fact
    · exact ⟨_, pruned, held.2.2, .inl ⟨held.1, held.2, rfl⟩⟩
    · obtain ⟨o, there, matched⟩ := kept.resolve_left held
      exact ⟨o, pruned, matched, .inr ⟨held, there⟩⟩

theorem bytes_of_noOutput {o : CapturedOutput} {fact : Fact} (none : NoOutput fact)
    (matched : outputMatches c o fact = true) : o = ⟨[], []⟩ := by
  rw [outputMatches, Bool.and_eq_true, beq_iff_eq, beq_iff_eq] at matched
  obtain ⟨stdout, stderr⟩ := o
  have out : stdout.length = 0 := (congrArg OutputRef.bytes matched.1).trans none.1
  have err : stderr.length = 0 := (congrArg OutputRef.bytes matched.2).trans none.2
  rw [List.length_eq_zero_iff.mp out, List.length_eq_zero_iff.mp err]

/-! ## The two answers -/

theorem execPoll_of_terminal (found : s.job? id = some j) (ended : j.status.isTerminal = true) (noWait reported : Bool) :
    execPoll s id noWait reported = (do
      s.ensureWritable
      refuseIf (s.outputPruned.contains j.id = true) (noLongerRetained j.id)
      return .answer j) := by
  rw [execPoll, found]
  dsimp only
  rw [if_pos (.inl ended)]

theorem jobOutput_eq_ok (valid : Limits.identifier id = .ok ()) (only : inspected c s id = .ok v)
    (ended : v.job.status.isTerminal = true) {stderr : Bool} {out : Bytes} : jobOutput c s id stderr = .ok out ↔
      v.outputAvailable = true ∧ (if stderr then v.job.stderr else v.job.stdout) = out := by
  rw [jobOutput, valid, ok_bind, only, ok_bind, refuseIf_bind_eq_ok, refuseIf_bind_eq_ok]
  simp [ended, pure, Except.pure]

/-- The diagnostic of a lost outcome leaves the output as it is. -/
theorem output_warned (ids : (s.jobs.map (·.id)).Nodup) (v : View) :
    (warned s v).outputAvailable = v.outputAvailable ∧ rowOutput (warned s v).job = rowOutput v.job := by
  rcases warned_cases ids v with ⟨j, -, same⟩ | ⟨-, same⟩ <;> rw [same]
  · exact ⟨rfl, rfl⟩
  · exact ⟨rfl, rfl⟩

/-- What a row shows of the output of its job: what it has itself, or what is kept of what leads to it. -/
theorem output_of_job (ids : (s.jobs.map (·.id)).Nodup) (filed : s.Filed c) (listed : j ∈ s.jobs) (shown : v ∈ views c s)
    (about : v.about = jobAbout s j) :
    ((∀ key e, ¬Leads s (jobGroup s j) key e) ∧ v.outputAvailable = !s.outputPruned.contains j.id ∧
      rowOutput v.job = rowOutput j) ∨
    ∃ key e fact, Leads s (jobGroup s j) key e ∧ e.record.selected = some fact ∧
      (v.outputAvailable = true ↔ NoOutput fact.fact ∨ KeepsOutput c s j key e fact.fact) ∧
      rowOutput v.job = (selectedOutput c s e (some j)).getD ⟨[], []⟩ := by
  rcases view_of_job ids listed shown about with ⟨silent, rfl⟩ | ⟨key, e, fact, observations, leads, selected, same⟩
  · refine .inl ⟨fun key e leads => ?_, rfl, rfl⟩
    exact absurd silent (groupRows_ne_nil.mpr ⟨key, e, leads.found, leads.told, leads.group⟩)
  · have keyed : invocationHash c e.record.certificate = key := (filed.entries key e leads.found).keyed
    have told : invocationAbout e.record.certificate.invocation = jobAbout s j := by
      refine groupOf_injective ?_
      rw [← invocationGroup_eq, ← jobGroup_eq, leads.group]
    refine .inr ⟨key, e, fact, leads, selected, ?_, ?_⟩
    · rw [same, (output_warned ids _).1, ← exists_selectedOutput keyed told selected, ← Option.isSome_iff_exists]
      change (_ || (decide _ && decide _)) = true ↔ _
      rw [Bool.or_eq_true, Bool.and_eq_true, decide_eq_true_iff, decide_eq_true_iff, or_comm]
      exact .rfl
    · rw [same, (output_warned ids _).2]
      cases chosen : selectedOutput c s e (some j) <;> simp [rowOutput, entryView, chosen]

/-- What waiting and inspecting tell of the output of a job. -/
structure ToldAlike (c : Crypto) (s : Store) (j : Job) (v : View) : Prop where
  refusal : ∀ noWait reported, execPoll s j.id noWait reported = .error (noLongerRetained j.id) ↔ v.outputAvailable = false
  bytes : ∀ noWait reported out, execPoll s j.id noWait reported = .ok (.answer out) →
    jobOutput c s j.id false = .ok out.stdout ∧ jobOutput c s j.id true = .ok out.stderr

/-- What is kept of the output under the entry that leads to a row, against what the row has itself. -/
structure KeptAlike (c : Crypto) (s : Store) (j : Job) : Prop where
  stopped : s.writeError ≠ none →
    ((∀ key e, ¬Leads s (jobGroup s j) key e) → s.outputPruned.contains j.id = false) ∧
    ∀ key e fact, Leads s (jobGroup s j) key e → e.record.selected = some fact →
      NoOutput fact.fact ∨ KeepsOutput c s j key e fact.fact
  pruned : s.writeError = none → s.outputPruned.contains j.id = true →
    ∀ key e fact, Leads s (jobGroup s j) key e → e.record.selected = some fact →
      ¬NoOutput fact.fact ∧ ¬KeepsOutput c s j key e fact.fact
  answered : s.writeError = none → s.outputPruned.contains j.id = false →
    ∀ key e fact, Leads s (jobGroup s j) key e → e.record.selected = some fact →
      (NoOutput fact.fact ∧ rowOutput j = ⟨[], []⟩) ∨
      (s.historyPruned.contains key = false ∧ outputMatches c (rowOutput j) fact.fact = true ∧
        (s.jobCertificates.get? j.id = some key ∨ e.output = some (rowOutput j)))

/-- What a client is told when the storage has stopped, when the row has no output, and otherwise. -/
theorem toldAlike_cases (found : s.job? j.id = some j) (ended : j.status.isTerminal = true)
    (asked : jobInspect c s j.id = .ok (text, v)) (same : v.job.status = j.status) : ToldAlike c s j v ↔
      (s.writeError ≠ none → v.outputAvailable = true) ∧
      (s.writeError = none → s.outputPruned.contains j.id = true → v.outputAvailable = false) ∧
      (s.writeError = none → s.outputPruned.contains j.id = false →
        v.outputAvailable = true ∧ rowOutput v.job = rowOutput j) := by
  obtain ⟨valid, only, -⟩ := jobInspect_eq_ok.mp asked
  have over' : v.job.status.isTerminal = true := by rw [same, ended]
  have poll := execPoll_of_terminal found ended
  cases stopped : s.writeError with
  | some reason =>
    have answer (noWait reported : Bool) : execPoll s j.id noWait reported = .error (Store.storageError reason) := by
      rw [poll, Store.ensureWritable, stopped]
      rfl
    have other : Store.storageError reason ≠ noLongerRetained j.id := by
      intro same
      cases same
    have failed : some reason ≠ none := Option.some_ne_none reason
    constructor
    · intro told
      refine ⟨fun _ => ?_, fun absent => absurd absent failed, fun absent => absurd absent failed⟩
      rw [← Bool.not_eq_false, ← told.refusal false false, answer]
      exact fun same => other (Except.error.inj same)
    · rintro ⟨available, -, -⟩
      refine ⟨fun noWait reported => ?_, fun noWait reported out answered => ?_⟩
      · rw [answer, available failed]
        exact iff_of_false (fun same => other (Except.error.inj same)) (by decide)
      · rw [answer] at answered
        cases answered
  | none =>
    have writable : s.ensureWritable = .ok () := by rw [Store.ensureWritable, stopped]
    cases pruned : s.outputPruned.contains j.id with
    | true =>
      have answer (noWait reported : Bool) : execPoll s j.id noWait reported = .error (noLongerRetained j.id) := by
        rw [poll, writable, pruned]
        rfl
      constructor
      · intro told
        exact ⟨fun absent => absurd rfl absent, fun _ _ => (told.refusal false false).mp (answer false false),
          fun _ stays => absurd stays (by decide)⟩
      · rintro ⟨-, unavailable, -⟩
        refine ⟨fun noWait reported => iff_of_true (answer noWait reported) (unavailable rfl rfl), ?_⟩
        intro noWait reported out answered
        rw [answer] at answered
        cases answered
    | false =>
      have answer (noWait reported : Bool) : execPoll s j.id noWait reported = .ok (.answer j) := by
        rw [poll, writable, pruned]
        rfl
      constructor
      · intro told
        refine ⟨fun absent => absurd rfl absent, fun _ gone => absurd gone (by decide), fun _ _ => ?_⟩
        obtain ⟨out, err⟩ := told.bytes false false j (answer false false)
        rw [jobOutput_eq_ok valid only over'] at out err
        exact ⟨out.1, congrArg₂ CapturedOutput.mk out.2 err.2⟩
      · rintro ⟨-, -, answered⟩
        obtain ⟨available, bytes⟩ := answered rfl rfl
        have streams := CapturedOutput.mk.inj bytes
        refine ⟨fun noWait reported => ?_, fun noWait reported out answered => ?_⟩
        · rw [answer, available]
          exact iff_of_false (by intro same; cases same) (by decide)
        · rw [answer] at answered
          cases answered
          rw [jobOutput_eq_ok valid only over', jobOutput_eq_ok valid only over']
          exact ⟨⟨available, streams.1⟩, available, streams.2⟩

/-- A row that has its output shows it exactly if it is what is kept. -/
theorem answered_iff (keyed : invocationHash c e.record.certificate = key)
    (about : invocationAbout e.record.certificate.invocation = jobAbout s j) (selected : e.record.selected = some fact)
    (pruned : s.outputPruned.contains j.id = false) :
    ((NoOutput fact.fact ∨ KeepsOutput c s j key e fact.fact) ∧
      (selectedOutput c s e (some j)).getD ⟨[], []⟩ = rowOutput j) ↔
    (NoOutput fact.fact ∧ rowOutput j = ⟨[], []⟩) ∨
      (s.historyPruned.contains key = false ∧ outputMatches c (rowOutput j) fact.fact = true ∧
        (s.jobCertificates.get? j.id = some key ∨ e.output = some (rowOutput j))) := by
  have exact' := exists_selectedOutput keyed about selected
  cases chosen : selectedOutput c s e (some j) with
  | none =>
    have lost : ¬KeepsOutput c s j key e fact.fact := by
      rw [← exact', chosen]
      rintro ⟨o, absent⟩
      cases absent
    rw [or_iff_left lost, Option.getD_none, eq_comm, or_iff_left]
    rintro ⟨kept, matched, bound | copied⟩
    · exact lost ⟨kept, .inl ⟨pruned, bound, matched⟩⟩
    · exact lost ⟨kept, .inr ⟨_, copied, matched⟩⟩
  | some o =>
    have keeps : KeepsOutput c s j key e fact.fact := exact'.mp ⟨o, chosen⟩
    obtain ⟨kept, matched, source⟩ := (selectedOutput_eq_some keyed about selected).mp chosen
    rw [Option.getD_some]
    constructor
    · rintro ⟨-, rfl⟩
      refine .inr ⟨kept, matched, ?_⟩
      exact source.imp (fun row => row.2.1.1) And.right
    · rintro (⟨none, empty⟩ | ⟨-, rows, bound | copied⟩)
      · exact ⟨.inl none, (bytes_of_noOutput none matched).trans empty.symm⟩
      · rcases source with ⟨-, -, same⟩ | ⟨other, -⟩
        · exact ⟨.inr keeps, same⟩
        · exact absurd ⟨pruned, bound, rows⟩ other
      · rcases source with ⟨-, -, same⟩ | ⟨-, there⟩
        · exact ⟨.inr keeps, same⟩
        · exact ⟨.inr keeps, Option.some.inj (there.symm.trans copied)⟩

/-- Waiting and inspecting tell the same of an output exactly if what is kept of it is what the row has. -/
theorem toldAlike_iff (ids : (s.jobs.map (·.id)).Nodup) (filed : s.Filed c) (listed : j ∈ s.jobs)
    (ended : j.status.isTerminal = true) (asked : jobInspect c s j.id = .ok (text, v)) (same : v.job.status = j.status) :
    ToldAlike c s j v ↔ KeptAlike c s j := by
  obtain ⟨valid, only, -⟩ := jobInspect_eq_ok.mp asked
  obtain ⟨alone, shown, about⟩ := (inspected_of_job ids listed).mp only
  rw [toldAlike_cases (List.find?_key_of_mem (fun j : Job => j.id) ids listed) ended asked same]
  rcases output_of_job ids filed listed shown about with
    ⟨quiet, available, bytes⟩ | ⟨key, e, fact, leads, selected, available, bytes⟩
  · rw [available, bytes]
    constructor
    · rintro ⟨stopped, -, -⟩
      refine ⟨fun failed => ⟨fun _ => by simpa using stopped failed, fun key e fact leads => ?_⟩, ?_, ?_⟩
      · exact absurd leads (quiet key e)
      · exact fun _ _ key e fact leads => absurd leads (quiet key e)
      · exact fun _ _ key e fact leads => absurd leads (quiet key e)
    · intro kept
      refine ⟨fun failed => ?_, fun _ pruned => by rw [pruned]; rfl, fun _ pruned => ⟨by rw [pruned]; rfl, rfl⟩⟩
      rw [(kept.stopped failed).1 quiet]
      rfl
  · have keyed : invocationHash c e.record.certificate = key := (filed.entries key e leads.found).keyed
    have told : invocationAbout e.record.certificate.invocation = jobAbout s j := by
      refine groupOf_injective ?_
      rw [← invocationGroup_eq, ← jobGroup_eq, leads.group]
    rw [← Bool.not_eq_true, available, bytes]
    constructor
    · rintro ⟨stopped, pruned, answered⟩
      refine ⟨fun failed => ⟨fun quiet => absurd leads (quiet key e), ?_⟩, fun works gone => ?_, fun works held => ?_⟩ <;>
        intro key' e' fact' leads' selected' <;> obtain ⟨rfl, rfl⟩ := leads.unique leads' <;>
        rw [selected] at selected' <;> cases selected'
      · exact stopped failed
      · exact not_or.mp (pruned works gone)
      · exact (answered_iff keyed told selected held).mp (answered works held)
    · intro kept
      refine ⟨fun failed => (kept.stopped failed).2 key e fact leads selected, fun works gone => ?_, fun works held => ?_⟩
      · exact not_or.mpr (kept.pruned works gone key e fact leads selected)
      · exact (answered_iff keyed told selected held).mpr (kept.answered works held key e fact leads selected)

end History

open History

/-- In every run, waiting for a finished job and inspecting it tell the same of its output exactly if what is kept of it
is what the row has. -/
theorem Daemon.waiting_agrees_iff (c : Crypto) (file : Store) (initial : file.Initial) (events : List (Env × Event)) :
    Everywhere (fun image => ∀ j ∈ image.store.jobs, j.status.isTerminal = true → ∀ text v,
      jobInspect c image.store j.id = .ok (text, v) → v.job.status = j.status →
        (ToldAlike c image.store j v ↔ KeptAlike c image.store j)) ((installed file).run c events).cell := by
  refine (everywhere_filed c file initial events).mono (fun image stands j listed ended text v asked same => ?_)
  exact toldAlike_iff stands.1 stands.2 listed ended asked same

/-! ## A replica that comes after the answer -/

namespace WaitExample

set_option maxRecDepth 40000

def crypto : Crypto := Crypto.transparent

def aliceKey : Bytes := List.replicate 32 1

def bobKey : Bytes := List.replicate 32 2

def bob : Peer := ⟨⟨"bob"⟩, bobKey, none⟩

def carol : Peer := ⟨⟨"carol"⟩, List.replicate 32 3, none⟩

def env : Env where
  now := ⟨0, .mon, 0, 0⟩
  newId := .ok "job"
  epochId := .ok "epoch"
  fs := ⟨fun _ => .error .unreachable, fun _ => .error .unreachable⟩
  fault := none
  meshBusy := false

def file : Store := { Store.first crypto "alices" "alice" aliceKey with peers := [bob, carol] }

theorem initial : file.Initial where
  named := by rfl
  unique := List.nodup_nil
  unbound := by rfl
  unlabelled := by rfl
  unrecorded := by rfl

def draft : Draft := ⟨⟨"alice"⟩, ⟨"bob"⟩, ["tool"], none⟩

def invocation : Invocation := ⟨"job", ⟨"alice"⟩, aliceKey, ⟨"bob"⟩, bobKey, ["tool"], none, none⟩

def certificate : Certificate := ⟨invocation, crypto.sign aliceKey (bytes "invocation" invocation)⟩

def job : Job := ⟨"job", ⟨"bob"⟩, ["tool"], ⟨"alice"⟩, .queued, [], []⟩

def dispatch : Dispatch := ⟨job, some bob, some certificate⟩

def fact : Fact :=
  ⟨invocationHash crypto certificate, .runner, 1, .done 0, OutputRef.of crypto [104], OutputRef.of crypto []⟩

def record : Record := ⟨certificate, none, some ⟨fact, crypto.sign bobKey (bytes "fact" fact)⟩⟩

/-- The runner has pruned the output that it tells of. -/
def answered : List (Env × Event) := [
  (env, .restart ⟨false, "alice", aliceKey, none, none, none⟩),
  (env, .compose "bob" ["tool"]),
  (env, .submit draft),
  (env, .selectJob "job"),
  (env, .answerCertified dispatch ⟨record, none, 1⟩)]

def asking : Daemon := (Daemon.installed file).run crypto answered

def sync : Sync := ⟨⟨"carol"⟩, progress asking.store ⟨"carol"⟩, asking.store.history.trust⟩

def page : Page := ⟨"carols", true, 1, 1, true, [⟨record, some ⟨[104], []⟩, 1⟩]⟩

/-- A third machine still has a replica. -/
def copied : List (Env × Event) := answered ++ [(env, .startSync ⟨"carol"⟩), (env, .mergePage sync page)]

def waiting : Daemon := (Daemon.installed file).run crypto copied

/-- What the row of the job shows: its status, and whether there is output. -/
def shown (d : Daemon) : Option (JobStatus × Bool) :=
  (jobInspect crypto d.store "job").toOption.map (fun answer => (answer.2.job.status, answer.2.outputAvailable))

theorem unlike_of_shown {d : Daemon} {j : Job} (found : d.store.job? "job" = some j) (status : j.status = .done 0)
    (writable : d.store.writeError = none) (pruned : d.store.outputPruned.contains "job" = true)
    (available : shown d = some (.done 0, true)) : ∃ text v, jobInspect crypto d.store j.id = .ok (text, v) ∧
      v.job.status = j.status ∧ ¬ToldAlike crypto d.store j v := by
  have named : j.id = "job" := by
    have holds := List.find?_some found
    exact beq_iff_eq.mp holds
  cases asked : jobInspect crypto d.store "job" with
  | error e =>
    rw [shown, asked] at available
    cases available
  | ok answer =>
    obtain ⟨text, v⟩ := answer
    rw [shown, asked] at available
    obtain ⟨same, there⟩ := Prod.ext_iff.mp (Option.some.inj available)
    refine ⟨text, v, by rw [named, asked], same.trans status.symm, fun told => ?_⟩
    rw [← named] at found pruned asked
    have lost := ((toldAlike_cases found (by rw [status]; rfl) asked (same.trans status.symm)).mp told).2.1 writable pruned
    rw [show v.outputAvailable = true from there] at lost
    cases lost

def done : Job := { job with status := .done 0 }

theorem wait_seen : waiting.store.jobs = [done] ∧ waiting.store.bodyName = "alice" ∧ waiting.store.writeError = none ∧
    waiting.store.outputPruned.contains "job" = true ∧ shown waiting = some (.done 0, true) := by
  decide

/-- The waiting client is told that the output is gone, and an inspection shows it. -/
theorem waiting_unlike : ∃ j ∈ waiting.store.jobs, j.origin.name = waiting.store.bodyName ∧ j.status.isTerminal = true ∧
    ∃ text v, jobInspect crypto waiting.store j.id = .ok (text, v) ∧ v.job.status = j.status ∧
      ¬ToldAlike crypto waiting.store j v := by
  obtain ⟨jobs, own, writable, pruned, available⟩ := wait_seen
  refine ⟨done, by rw [jobs]; exact List.mem_singleton_self _, by rw [own]; rfl, rfl, ?_⟩
  exact unlike_of_shown (by rw [Store.job?, jobs]; rfl) rfl writable pruned available

theorem waiting_iff : Everywhere (fun image => ∀ j ∈ image.store.jobs, j.status.isTerminal = true → ∀ text v,
    jobInspect crypto image.store j.id = .ok (text, v) → v.job.status = j.status →
      (ToldAlike crypto image.store j v ↔ KeptAlike crypto image.store j)) waiting.cell :=
  Daemon.waiting_agrees_iff crypto file initial copied

end WaitExample

end Clix
