import Clix.Proofs.Reachable

/-! # No child without a grant

Every child runs the program of a grant that allowed its whole command, at the time and in the state of
its admission, to a requester who is this machine's own queue or the peer that holds the connection. A
certificate speaks for the peer that presents it and for nobody else.
-/

namespace Clix

open Except

namespace History

variable {c : Crypto} {s : Store} {peer : Peer} {cert : Certificate}

/-- What a certificate says when its presenter may run it. -/
structure Presents (c : Crypto) (peer : Peer) (cert : Certificate) : Prop where
  modern : cert.invocation.legacyObserver = none
  origin : cert.invocation.origin = peer.name
  originKey : cert.invocation.originKey = peer.ownerPk
  /-- The presenter signed the invocation itself. -/
  signed : verify c "invocation" cert.invocation cert.signature peer.ownerPk = .ok ()

/-- A relay, or a third machine, is refused whatever certificate it presents. -/
theorem authorizeExecution_presents (success : authorizeExecution c s peer cert = .ok ()) :
    Presents c peer cert := by
  unfold authorizeExecution at success
  rw [bind_eq_ok] at success
  obtain ⟨⟨⟩, valid, success⟩ := success
  rw [bind_eq_ok] at success
  obtain ⟨own, -, success⟩ := success
  rw [refuseIf_eq_ok] at success
  simp only [not_or, not_not, Bool.not_eq_true, Option.isSome_eq_false_iff, Option.isNone_iff_eq_none] at success
  obtain ⟨modern, origin, originKey, -⟩ := success
  refine ⟨modern, origin, originKey, ?_⟩
  rw [validateInvocation, bind_eq_ok] at valid
  obtain ⟨⟨⟩, -, valid⟩ := valid
  rw [bind_eq_ok] at valid
  obtain ⟨⟨⟩, -, valid⟩ := valid
  rw [bind_eq_ok] at valid
  obtain ⟨signer, known, verified⟩ := valid
  unfold invocationSigner at known
  rw [modern] at known
  dsimp only at known
  rw [bind_eq_ok] at known
  obtain ⟨originKnown, -, known⟩ := known
  rw [refuseIf_bind_eq_ok] at known
  obtain ⟨-, known⟩ := known
  rw [bind_eq_ok] at known
  obtain ⟨runnerKnown, -, known⟩ := known
  rw [refuseIf_bind_eq_ok] at known
  obtain ⟨-, known⟩ := known
  cases known
  rw [originKey] at verified
  exact verified

end History

/-- A grant that allows a run to its requester at a time. -/
structure Grant.Permits (s : Store) (grant : Grant) (run : Job) (now : Clock) : Prop where
  held : s.grant? grant.tool = some grant
  tool : run.argv.head? = some grant.tool
  free : grant.reservation = none
  allowFrom : ∀ allowed, grant.allowFrom = some allowed → run.origin ∈ allowed
  «until» : ∀ expiry, grant.until = some expiry → now.instant ≤ expiry
  schedule : ∀ schedule, grant.schedule = some schedule → schedule.allowsAt now = true
  args : ∀ patterns, grant.args = some patterns → run.argv.drop 1 ∈ patterns

theorem Exec.permits_of_authorize {s : Store} {run : Job} {now : Clock} {grant : Grant}
    (nonempty : run.argv ≠ []) (success : Exec.authorize s run.origin run.argv now = .ok grant) :
    grant.Permits s run now := by
  obtain ⟨checked, listed⟩ := Exec.authorize_eq_ok success
  have named := Grant.checkAt_tool checked
  obtain ⟨held, free, allowed, current, scheduled⟩ := Grant.checkAt_eq_ok checked
  refine ⟨named ▸ held, ?_, free, allowed, current, scheduled, Grant.checkArgs_eq_ok.mp listed⟩
  rw [named]
  cases argv : run.argv with
  | nil => exact absurd argv nonempty
  | cons tool args => rfl

theorem Exec.command_eq_ok {grant : Grant} {argv : List String} {command : Exec.Command}
    (success : Exec.command grant argv = .ok command) :
    command = ⟨grant.binary, grant.tool, argv.drop 1⟩ := by
  rw [Exec.command, bind_eq_ok] at success
  obtain ⟨⟨⟩, -, success⟩ := success
  cases success
  rfl

namespace Daemon

variable {c : Crypto} {epoch hostname : String} {seed : Bytes}

/-- A peer whose connection was accepted, from the holder of its paired key, since the last restart. -/
def Connected (c : Crypto) (epoch hostname : String) (seed : Bytes) (events : List (Env × Event))
    (p : Peer) : Prop :=
  ∃ before env after, events = before ++ (env, .accept p.ownerPk) :: after ∧
    p ∈ (reach c epoch hostname seed before).store.peers ∧ ∀ x ∈ after, ∀ boot, x.2 ≠ .restart boot

/-- A certificate that a connected peer presented in its own name. -/
def Presented (c : Crypto) (epoch hostname : String) (seed : Bytes) (events : List (Env × Event))
    (p : Peer) (cert : Certificate) : Prop :=
  Connected c epoch hostname seed events p ∧ History.Presents c p cert

theorem Connected.later {events : List (Env × Event)} {p : Peer}
    (connected : Connected c epoch hostname seed events p) (e : Env × Event)
    (running : ∀ boot, e.2 ≠ .restart boot) : Connected c epoch hostname seed (events ++ [e]) p := by
  obtain ⟨before, env, after, rfl, paired, kept⟩ := connected
  refine ⟨before, env, after ++ [e], by rw [List.append_assoc, List.cons_append], paired, ?_⟩
  intro x member
  rcases List.mem_append.mp member with old | new
  · exact kept x old
  · rw [List.mem_singleton.mp new]
    exact running

/-- Every connection and every authorized certificate of a machine is what it claims to be. -/
theorem run_connected (events : List (Env × Event)) :
    (∀ p ∈ (reach c epoch hostname seed events).conns, Connected c epoch hostname seed events p) ∧
      ∀ x ∈ (reach c epoch hostname seed events).authorized,
        Presented c epoch hostname seed events x.1 x.2 := by
  induction events using List.reverseRecOn with
  | nil => exact ⟨fun _ member => absurd member List.not_mem_nil, fun _ member => absurd member List.not_mem_nil⟩
  | append_singleton events e ih =>
    obtain ⟨conns, authorized⟩ := ih
    have inv := inv_run (inv_fresh (c := c) epoch hostname seed) events
    rw [reach_concat]
    have step := step_cases inv e
    generalize Daemon.step c (reach c epoch hostname seed events) e = d' at step
    cases step with
    | stopped dead going exits _ same =>
      rw [same]
      exact ⟨fun p member => (conns p member).later e going,
        fun x member => ⟨(authorized x member).1.later e going, (authorized x member).2⟩⟩
    | restarted boot same =>
      have cleared := cleared_restart (c := c) e.1 boot (reach c epoch hostname seed events)
      rw [same, cleared.conns, cleared.authorized]
      exact ⟨fun _ member => absurd member List.not_mem_nil, fun _ member => absurd member List.not_mem_nil⟩
    | live running going sound core carried =>
      refine ⟨fun p member => ?_, fun x member => ?_⟩
      · rcases carried.conns p member with old | ⟨paired, accepted⟩
        · exact (conns p old).later e going
        · exact ⟨events, e.1, [], by rw [← accepted], paired, fun _ member => absurd member List.not_mem_nil⟩
      · rcases carried.authorized x member with old | ⟨connected, -, checked⟩
        · exact ⟨(authorized x old).1.later e going, (authorized x old).2⟩
        · exact ⟨(conns x.1 connected).later e going, History.authorizeExecution_presents checked⟩

/-- On whose authority a run was admitted: this machine's own queue, or the connected peer itself. -/
def Speaks (c : Crypto) (epoch hostname : String) (seed : Bytes) (events : List (Env × Event)) (s : Store)
    (run : Job) : Requester → Prop
  | .own => run.origin.name = s.bodyName ∧ ∃ job, s.job? run.id = some job ∧
      job.status.isLocalQueue = true ∧ job.body.name = s.bodyName ∧ job.origin = run.origin ∧
      job.argv = run.argv
  | .peer p => run.origin = p.name ∧ run.origin.name ≠ s.bodyName ∧ s.desk.Knows p ∧
      Connected c epoch hostname seed events p
  | .certified p cert => run.origin = p.name ∧ run.origin.name ≠ s.bodyName ∧ s.desk.Knows p ∧
      Presented c epoch hostname seed events p cert ∧ run.id = cert.invocation.id ∧
      run.argv = cert.invocation.argv

theorem speaks_of_granted {events : List (Env × Event)} {env : Env} {requester : Requester} {run : Job}
    {cert : Option Certificate} {grant : Grant}
    (sound : Sound c (reach c epoch hostname seed events))
    (granted : Granted c (reach c epoch hostname seed events) requester env.now run cert grant) :
    Speaks c epoch hostname seed events (reach c epoch hostname seed events).store run requester := by
  have connected : (∀ p ∈ (reach c epoch hostname seed events).conns,
      Connected c epoch hostname seed events p) ∧ _ := run_connected events
  obtain ⟨conns, authorized⟩ := connected
  obtain ⟨submits, checked, -⟩ := granted
  cases submits with
  | own run queued selected id origin argv =>
    obtain ⟨same, old, found, body, sender, args⟩ := sound.locals queued selected
    change (reach c epoch hostname seed events).store.desk.row? queued.id = some old at found
    rw [← id] at found
    obtain ⟨-, -, startable⟩ := Exec.precheck_eq_none checked
    obtain ⟨waiting, own, asked, command⟩ := (startable .running).2 old found
    rw [Store.row?_desk, Option.map_eq_some_iff] at found
    obtain ⟨job, present, rfl⟩ := found
    exact ⟨by rw [origin]; exact same, job, present, waiting, congrArg BodyId.name own, asked, command⟩
  | peer run p connected origin =>
    have known := sound.conns p connected
    exact ⟨origin, origin ▸ name_ne_of_knows sound.valid known, known, conns p connected⟩
  | certified run p cert presented id origin argv =>
    have known := sound.authorized _ presented
    have presents := authorized _ presented
    have sender : run.origin = p.name := origin.trans presents.2.origin
    exact ⟨sender, sender ▸ name_ne_of_knows sound.valid known, known, presents, id, argv⟩

/-- A child is started with the command of the grant of its run. -/
theorem run_command (events : List (Env × Event)) :
    ∀ start ∈ (reach c epoch hostname seed events).starts,
      Exec.command start.grant start.run.argv = .ok start.command := by
  induction events using List.reverseRecOn with
  | nil => exact fun _ member => absurd member List.not_mem_nil
  | append_singleton events e ih =>
    have step := step_cases (inv_run (inv_fresh (c := c) epoch hostname seed) events) e
    rw [reach_concat]
    generalize Daemon.step c (reach c epoch hostname seed events) e = d' at step
    cases step with
    | stopped dead going exits _ same =>
      rw [same]
      exact ih
    | restarted boot same =>
      rw [same, (cleared_restart e.1 boot _).starts]
      exact ih
    | live running going sound core carried =>
      cases flow_core core with
      | kept _ starts | moved _ _ _ _ _ starts | erased _ _ starts => exact starts ▸ ih
      | admitted _ admits => exact admits.starts ▸ ih
      | launched task found pending command made tasks starts =>
        intro start member
        rw [starts] at member
        rcases List.mem_cons.mp member with rfl | old
        · exact made
        · exact ih start old

/-- The admission of a run, by one step of the run of the machine. -/
def AdmittedIn (c : Crypto) (epoch hostname : String) (seed : Bytes) (events : List (Env × Event))
    (run : Job) (grant : Grant) (admission : Admission) : Prop :=
  ∃ before e after, events = before ++ e :: after ∧
    admission.before = (reach c epoch hostname seed before).store ∧ admission.clock = e.1.now ∧
    grant.Permits (reach c epoch hostname seed before).store run e.1.now ∧
    Speaks c epoch hostname seed before (reach c epoch hostname seed before).store run admission.requester ∧
    Accepted (reach c epoch hostname seed (before ++ [e])) run

theorem run_admitted (events : List (Env × Event)) :
    ∀ start ∈ (reach c epoch hostname seed events).starts,
      AdmittedIn c epoch hostname seed events start.run start.grant start.admission := by
  refine (run_traced (P := AdmittedIn c epoch hostname seed) epoch hostname seed ?_ ?_ events).2
  · rintro events e run grant admission ⟨before, step, after, rfl, admitted⟩
    exact ⟨before, step, after ++ [e], by rw [List.append_assoc, List.cons_append], admitted⟩
  · intro events e task inv sound admits
    have accepted := accepted_of_admits inv admits
    obtain ⟨cert, granted⟩ := admits.granted
    rw [admits.clock] at granted
    obtain ⟨admissible, -, -⟩ := Exec.precheck_eq_none granted.checked
    have nonempty := (Limits.invocation_eq_ok admissible).2.1
    exact ⟨events, e, [], rfl, admits.before, admits.clock, Exec.permits_of_authorize nonempty granted.granted,
      speaks_of_granted sound granted, accepted⟩

/-- Authorization soundness: a child runs exactly the program and arguments of a grant, and that grant
permitted them when the job was admitted, to this machine's own queue or to the connected peer that
asked for it. -/
theorem starts_authorized (c : Crypto) (epoch hostname : String) (seed : Bytes) (events : List (Env × Event)) :
    (∀ start ∈ (reach c epoch hostname seed events).starts,
      start.command = ⟨start.grant.binary, start.grant.tool, start.run.argv.drop 1⟩) ∧
    ∀ start ∈ (reach c epoch hostname seed events).starts,
      AdmittedIn c epoch hostname seed events start.run start.grant start.admission :=
  ⟨fun start member => Exec.command_eq_ok (run_command events start member), run_admitted events⟩

end Daemon

end Clix
