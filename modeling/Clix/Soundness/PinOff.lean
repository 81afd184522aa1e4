import Clix.Proofs.PinSession

/-! # Turning pin off

Requests of peers check the switch under the same lock as their writes. A session that this machine started
checks it once: a synchronization before it is called, the choice of a peer's version before its content is
fetched. So nothing is written while pin is off, provided that no such session was past its check when the
owner turned pin off.
-/

namespace Clix.Pin

variable {c : Crypto} {host : Host} {w : Weather} {ids : Ids} {answer : Answer} {m : Machine}
  {selected : PinConflictSnapshot} {stage : Stage} {taking : Taking} {session : Session} {b : Body}
  {event : Event} {events : List Event}

/-- A session that has ended, or will check the switch before it writes. -/
def Session.isCalm : Session → Bool
  | sync stage => stage.isEnded
  | take _ (.pulling ..) => false
  | take _ (.placing ..) => false
  | take _ _ => true

def Body.Calm (b : Body) : Prop := ∀ session ∈ b.sessions, session.isCalm = true

/-- An operation of pin: a step of a session, or a served request. -/
def Event.isPin : Event → Bool
  | advance .. => true
  | request .. => true
  | _ => false

theorem syncStep_sameOwner : m.store.SameOwner (syncStep c host w ids answer m stage).2.store := by
  unfold syncStep
  split <;> try exact .refl _
  all_goals split <;> try exact .refl _
  · split <;> exact .refl _
  · exact (record_cases rfl).1

theorem takeStep_sameOwner : m.store.SameOwner (takeStep c host ids selected answer m taking).2.store := by
  unfold takeStep
  split <;> try exact .refl _
  all_goals split <;> exact .refl _

theorem ownerPeer_of_off (name : String) (off : m.store.pinEnabled = false) :
    ∃ e, ownerPeer m.store name = .error e := by
  rw [ownerPeer, ensureEnabled, Except.refuseIf, if_pos off]
  exact ⟨_, rfl⟩

theorem takeOn_calm {α : Type} {result : Result α} {next : α → Taking}
    (calm : ∀ value, (Session.take selected (next value)).isCalm = true) :
    (Session.take selected (takeOn result next)).isCalm = true := by
  cases result with
  | error e => rfl
  | ok value => exact calm value

/-- While pin is off, a calm session stays calm and changes nothing. -/
theorem Session.step_of_calm (c : Crypto) (host : Host) (w : Weather) (ids : Ids) (answer : Answer)
    (off : m.store.pinEnabled = false) (calm : session.isCalm = true) :
    (session.step c host w ids answer m).1.isCalm = true ∧ (session.step c host w ids answer m).2 = m := by
  cases session with
  | sync stage =>
    cases stage with
    | ended result => exact ⟨rfl, rfl⟩
    | _ => cases calm
  | take selected taking =>
    cases taking with
    | called =>
      obtain ⟨e, refused⟩ := ownerPeer_of_off selected.peer off
      rw [Session.step, takeStep, refused]
      exact ⟨rfl, rfl⟩
    | scanning peer root base => exact ⟨takeOn_calm (fun _ => rfl), rfl⟩
    | listing peer base files =>
      cases answer with
      | listing result => exact ⟨takeOn_calm (fun _ => rfl), rfl⟩
      | content result => exact ⟨rfl, rfl⟩
      | done result => exact ⟨rfl, rfl⟩
      | none => exact ⟨rfl, rfl⟩
    | choosing =>
      obtain ⟨e, refused⟩ := ownerPeer_of_off selected.peer off
      rw [Session.step, takeStep, refused]
      exact ⟨rfl, rfl⟩
    | pulling peer root => cases calm
    | placing peer root bytes => cases calm
    | ended result => exact ⟨rfl, rfl⟩

theorem Session.step_sameOwner : m.store.SameOwner (session.step c host w ids answer m).2.store := by
  cases session with
  | sync stage => exact syncStep_sameOwner
  | take selected taking => exact takeStep_sameOwner

namespace Body

/-- Pin is on, or every session is calm. -/
def Settled (b : Body) : Prop := b.machine.store.pinEnabled = true ∨ b.Calm

/-- In a settled machine with pin off, an operation of pin changes nothing. -/
theorem step_of_off (settled : b.Settled) (off : b.machine.store.pinEnabled = false) (pin : event.isPin = true) :
    (b.step c host event).machine = b.machine ∧ (b.step c host event).Settled := by
  have calm : b.Calm := settled.resolve_left (by rw [off]; simp)
  cases event with
  | advance k w ids answer =>
    rw [step]
    split
    · exact ⟨rfl, settled⟩
    · next session found =>
      obtain ⟨still, same⟩ :=
        Session.step_of_calm c host w ids answer off (calm session (List.mem_of_getElem? found))
      refine ⟨same, .inr (fun other member => ?_)⟩
      rcases List.mem_or_eq_of_mem_set member with old | rfl
      · exact calm other old
      · exact still
  | request peer request w ids =>
    have same := serve_of_off c host w ids peer request off
    exact ⟨same, .inr calm⟩
  | switch enabled w => cases pin
  | update store => cases pin
  | edit tree => cases pin
  | begin name => cases pin
  | take selected => cases pin

/-- A machine stays settled when pin is turned off only while every session is calm. -/
theorem step_settled (settled : b.Settled) (calm : ∀ w, event = .switch false w → b.Calm) :
    (b.step c host event).Settled := by
  cases event with
  | switch enabled w =>
    rcases (switchPin_cases rfl).2 with same | switched
    · exact settled.imp (fun on => same.trans on) id
    · cases enabled with
      | true => exact .inl switched
      | false => exact .inr (calm w rfl)
  | update store => exact settled
  | edit tree => exact settled
  | begin name =>
    rw [step]
    split
    · exact settled
    · next enabled => exact .inl (ensureEnabled_eq_ok.mp enabled)
  | take selected =>
    refine settled.imp id (fun calm session member => ?_)
    rcases List.mem_append.mp member with old | new
    · exact calm session old
    · cases List.mem_singleton.mp new
      rfl
  | advance k w ids answer =>
    cases on : b.machine.store.pinEnabled with
    | false => exact (step_of_off settled on rfl).2
    | true =>
      rw [step]
      split
      · exact settled
      · exact .inl (Session.step_sameOwner.pinEnabled.trans on)
  | request peer request w ids =>
    cases on : b.machine.store.pinEnabled with
    | false => exact (step_of_off settled on rfl).2
    | true => exact .inl (serve_sameOwner.pinEnabled.trans on)

/-- Turning pin off takes effect in a run: while it is off, no operation of pin changes the live tree or a
baseline. -/
def OffTakesEffect (c : Crypto) (host : Host) (b : Body) (events : List Event) : Prop :=
  ∀ before event after, events = before ++ event :: after → event.isPin = true →
    (b.run c host before).machine.store.pinEnabled = false →
    Kept (b.run c host before).machine ((b.run c host before).step c host event).machine

/-- Whenever the owner turns pin off, no session is past its check. -/
def TurnedOffCalmly (c : Crypto) (host : Host) (b : Body) (events : List Event) : Prop :=
  ∀ before w after, events = before ++ .switch false w :: after → (b.run c host before).Calm

theorem run_settled (settled : b.Settled) (calmly : b.TurnedOffCalmly c host events) :
    (b.run c host events).Settled := by
  induction events using List.reverseRecOn with
  | nil => exact settled
  | append_singleton events event ih =>
    have earlier : b.TurnedOffCalmly c host events := fun before w after split =>
      calmly before w (after ++ [event]) (by rw [split, List.append_assoc, List.cons_append])
    rw [run, List.foldl_append, List.foldl_cons, List.foldl_nil]
    exact step_settled (ih earlier) (fun w switched => calmly events w [] (by rw [switched]))

/-- In a run with one switch-off, the sessions in flight there decide. -/
theorem turnedOffCalmly_once {before after : List Event} {w : Weather}
    (first : ∀ w, Event.switch false w ∉ before) (last : ∀ w, Event.switch false w ∉ after)
    (calm : ∀ session ∈ (b.run c host before).sessions, session.isCalm = true) :
    b.TurnedOffCalmly c host (before ++ .switch false w :: after) := by
  intro early w' late split
  obtain ⟨same, -⟩ := (List.append_cons_inj_of_notMem (first w') (last w')).mp split
  exact same ▸ calm

/-- Turning pin off takes effect in every run of a machine, from its start, in which the owner turns it off
only while no session is past its check. -/
theorem off_takes_effect (c : Crypto) (host : Host) (m : Machine) (events : List Event)
    (calmly : (Body.mk m []).TurnedOffCalmly c host events) :
    (Body.mk m []).OffTakesEffect c host events := by
  intro before event after split pin off
  have settled : ((Body.mk m []).run c host before).Settled := by
    refine run_settled (.inr (fun _ member => absurd member List.not_mem_nil)) (fun early w late early_split => ?_)
    exact calmly early w (late ++ event :: after) (by rw [split, early_split, List.append_assoc, List.cons_append])
  rw [(step_of_off settled off pin).1]
  exact .refl _

end Body

/-! ## A session that was past its check -/

namespace OffExample

set_option maxRecDepth 40000

def aliceHost : Host where
  root := ["home", "alice", "src"]
  canonicalize _ _ := none
  absolute binary := .ok (place binary)
  hasRecovery := false

def weather : Weather := ⟨.ok "epoch", none, 0⟩

def drawn : Ids := ⟨"v1", "t1", "t2"⟩

def bob : Peer := ⟨⟨"bob"⟩, List.replicate 32 2, none⟩

/-- A machine with pin on, one peer and an empty tree. -/
def alice : Machine where
  store := { Store.first Crypto.transparent "epoch" "alice" (List.replicate 32 1) with
    pinEnabled := true
    peers := [bob] }
  root := "src"
  tree := ⟨Live.empty, ∅⟩

/-- The peer has one file, which this machine fetches. -/
def fetched : List Event :=
  [.begin "bob", .advance 0 weather drawn .none, .advance 0 weather drawn .none,
    .advance 0 weather drawn (.listing (.ok ⟨(∅ : Manifest).insert "f" (fingerprint Crypto.transparent [104] 0o644), ∅⟩)),
    .advance 0 weather drawn .none, .advance 0 weather drawn .none,
    .advance 0 weather drawn (.content (.ok "68")), .switch false weather]

/-- Pin is off, and the next step of the session writes the file. -/
theorem write_after_off : ¬(Body.mk alice []).OffTakesEffect Crypto.transparent aliceHost
    (fetched ++ [.advance 0 weather drawn .none]) := by
  intro takesEffect
  have kept := takesEffect fetched _ [] rfl rfl (by decide)
  have same := congrArg (fun live : Live => live.file? ["f"]) kept.live
  revert same
  decide

def other : Manifest := (∅ : Manifest).insert "f" (fingerprint Crypto.transparent [105] 0o644)

def offer : Manifest := (∅ : Manifest).insert "f" (fingerprint Crypto.transparent [104] 0o644)

/-- The peer's version of the file as an inspection shows it: the peer had another one before. -/
def shown : PinConflictSnapshot :=
  conflictSnapshot Crypto.transparent bob "f" none (offer.get? "f") none (other.get? "f")

/-- A synchronization that the peer did not answer has ended, and the owner's choice of the peer's version
waits for its second check of the switch. -/
def chosen : List Event :=
  [.begin "bob", .advance 0 weather drawn .none, .advance 0 weather drawn .none,
    .advance 0 weather drawn (.listing (.error (.io "peer is unreachable"))),
    .take shown, .advance 1 weather drawn .none, .advance 1 weather drawn .none,
    .advance 1 weather drawn (.listing (.ok ⟨offer, other⟩))]

/-- After the switch: a file that the peer offers, a step of each session and a new call. -/
def afterwards : List Event :=
  [.request bob (.put ⟨some "g", some none, some (offer.get? "f"), some "68"⟩) weather drawn,
    .advance 1 weather drawn .none, .advance 0 weather drawn .none, .begin "bob"]

/-- With a synchronization that has ended, a choice before its second check and a peer that offers a file,
turning pin off takes effect; while pin is on, the same offer is taken. -/
theorem off_takes_effect_idle :
    ((Body.mk alice []).run Crypto.transparent aliceHost chosen).sessions.map Session.isEnded = [true, false] ∧
      ((Body.mk alice []).run Crypto.transparent aliceHost (chosen ++ afterwards)).machine.tree.live.file? ["g"] =
        some ⟨[104], 0o644⟩ ∧
      (Body.mk alice []).OffTakesEffect Crypto.transparent aliceHost
        (chosen ++ .switch false weather :: afterwards) :=
  ⟨by decide, by decide,
    Body.off_takes_effect _ _ _ _ (Body.turnedOffCalmly_once (by simp [chosen]) (by simp [afterwards])
      (by decide))⟩

end OffExample

end Clix.Pin
