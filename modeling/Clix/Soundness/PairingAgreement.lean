import Clix.Proofs.Handshake
import Mathlib.Data.List.Induction

/-! # Both sides of a pairing agree

A listener saves a peer only when a joiner under the same key has saved the listener before: the
confirmation it accepts can only have been written by that joiner, after its own save. Tags of one phase
are never accepted in another, so nothing can be reflected.
-/

namespace Clix.Pairing

open Except

variable {c : Crypto} {w : WireFormat} {i j : ℕ} {v v' : View} {s t s' : Session} {frame : Frame}
  {frames : List Frame} {d d' : State} {key : Key} {phase : Phase} {payload : Bytes}

namespace View

/-- What a session never takes back. -/
structure Grows (v v' : View) : Prop where
  side : v'.side = v.side
  here : v'.here = v.here
  code : v'.code = v.code
  fallback : v'.fallback = v.fallback
  key : ∀ key, v.key = some key → v'.key = some key
  remote : ∀ remote, v.remote = some remote → v'.remote = some remote
  saved : ∀ peer, v.saved = some peer → v'.saved = some peer
  localSaved : v.progress.localSaved = true → v'.progress.localSaved = true

theorem Grows.refl (v : View) : v.Grows v :=
  ⟨rfl, rfl, rfl, rfl, fun _ same => same, fun _ same => same, fun _ same => same, id⟩

/-- What a session knows: its key is its own half of an exchange, and it saved nobody but the other
machine it heard of. -/
structure Own (i : ℕ) (v : View) : Prop where
  code : ∀ key, v.key = some key → key.code = v.code
  joiner : ∀ key, v.key = some key → v.side = .joiner → key.a = .own i
  listener : ∀ key, v.key = some key → v.side = .listener → key.b = .own i
  keyed : ∀ remote, v.remote = some remote → ∃ key, v.key = some key
  saved : ∀ peer, v.saved = some peer → ∃ remote, v.remote = some remote ∧ peer = v.peer remote ∧
    (peer.name.name ≠ v.here.name ∧ peer.ownerPk ≠ v.here.ownerPk) ∧ v.progress.localPeer.isSome = true

theorem Own.of_saved (own : v.Own i) (heard : v.remote = none) : v.saved = none := by
  cases found : v.saved with
  | none => rfl
  | some peer =>
    obtain ⟨remote, known, -⟩ := own.saved peer found
    rw [heard] at known
    cases known

/-- An attempt to save the machine a session heard of. -/
theorem Own.persist {remote : PairIdentity} {outcome : Result Unit} (own : v.Own i)
    (heard : v.remote = some remote) (persist : Persist (v.peer remote) v v' outcome) :
    v'.Own i ∧ v.Grows v' := by
  cases persist with
  | refused e => exact ⟨own, .refl _⟩
  | unsaved e =>
    refine ⟨⟨own.code, own.joiner, own.listener, own.keyed, fun peer saved => ?_⟩, rfl, rfl, rfl, rfl,
      fun _ same => same, fun _ same => same, fun _ same => same, id⟩
    obtain ⟨known, heard, same, other, -⟩ := own.saved peer saved
    exact ⟨known, heard, same, other, rfl⟩
  | onDisk e other =>
    refine ⟨⟨own.code, own.joiner, own.listener, own.keyed, fun peer saved => ?_⟩, rfl, rfl, rfl, rfl,
      fun _ same => same, fun _ same => same, fun peer saved => ?_, id⟩
    · cases saved
      exact ⟨remote, heard, rfl, other, rfl⟩
    · obtain ⟨known, heard', same, -⟩ := own.saved peer saved
      rw [heard] at heard'
      cases heard'
      exact congrArg some same.symm
  | saved other =>
    refine ⟨⟨own.code, own.joiner, own.listener, own.keyed, fun peer saved => ?_⟩, rfl, rfl, rfl, rfl,
      fun _ same => same, fun _ same => same, fun peer saved => ?_, fun _ => rfl⟩
    · cases saved
      exact ⟨remote, heard, rfl, other, rfl⟩
    · obtain ⟨known, heard', same, -⟩ := own.saved peer saved
      rw [heard] at heard'
      cases heard'
      exact congrArg some same.symm

/-- Hearing of the other machine, once. -/
theorem Own.hear (own : v.Own i) (keyed : v.key = some key) (new : v.remote = none) (remote : PairIdentity) :
    ({ v with remote := some remote } : View).Own i ∧ v.Grows { v with remote := some remote } := by
  have unsaved := own.of_saved new
  refine ⟨⟨own.code, own.joiner, own.listener, fun _ _ => ⟨key, keyed⟩, fun peer saved => ?_⟩, rfl, rfl, rfl, rfl,
    fun _ same => same, fun known heard => ?_, fun _ same => same, id⟩
  · rw [unsaved] at saved
    cases saved
  · rw [new] at heard
    cases heard

theorem Own.trust (own : v.Own i) :
    ({ v with progress := { v.progress with remoteMayTrust := true } } : View).Own i ∧
      v.Grows { v with progress := { v.progress with remoteMayTrust := true } } :=
  ⟨⟨own.code, own.joiner, own.listener, own.keyed, own.saved⟩, rfl, rfl, rfl, rfl,
    fun _ same => same, fun _ same => same, fun _ same => same, id⟩

theorem Grows.trans {u : View} (first : v.Grows v') (second : v'.Grows u) : v.Grows u :=
  ⟨second.side.trans first.side, second.here.trans first.here, second.code.trans first.code,
    second.fallback.trans first.fallback, fun k held => second.key k (first.key k held),
    fun r held => second.remote r (first.remote r held), fun p held => second.saved p (first.saved p held),
    fun held => second.localSaved (first.localSaved held)⟩

theorem Own.derive (own : v.Own i) (new : v.key = none) (code : key.code = v.code)
    (joiner : v.side = .joiner → key.a = .own i) (listener : v.side = .listener → key.b = .own i) :
    ({ v with key := some key } : View).Own i ∧ v.Grows { v with key := some key } := by
  refine ⟨⟨?_, ?_, ?_, fun _ _ => ⟨key, rfl⟩, own.saved⟩, rfl, rfl, rfl, rfl, fun _ held => ?_,
    fun _ same => same, fun _ same => same, id⟩
  · rintro _ ⟨⟩
    exact code
  · rintro _ ⟨⟩
    exact joiner
  · rintro _ ⟨⟩
    exact listener
  · rw [new] at held
    cases held

theorem Move.own (own : v.Own i) (move : Move w i frame v v' frames) : v'.Own i ∧ v.Grows v' := by
  cases move with
  | stay => exact ⟨own, .refl v⟩
  | greeted side => exact ⟨own, .refl v⟩
  | listenerKeyed a side new => exact own.derive new rfl (by simp [side]) (fun _ => rfl)
  | joinerKeyed b side new => exact own.derive new rfl (fun _ => rfl) (by simp [side])
  | listenerIntroduced key remote side keyed new =>
    obtain ⟨heard, first⟩ := own.hear keyed new remote
    obtain ⟨trusted, second⟩ := heard.trust
    exact ⟨trusted, first.trans second⟩
  | joinerUnsaved key remote v' e payload side keyed new read parsed persist =>
    obtain ⟨heard, first⟩ := own.hear keyed new remote
    obtain ⟨kept, second⟩ := heard.persist rfl persist
    exact ⟨kept, first.trans second⟩
  | joinerSaved key remote v' payload side keyed new read parsed persist =>
    obtain ⟨heard, first⟩ := own.hear keyed new remote
    obtain ⟨kept, second⟩ := heard.persist rfl persist
    obtain ⟨trusted, third⟩ := kept.trust
    exact ⟨trusted, (first.trans second).trans third⟩
  | listenerUnsaved key remote v' e payload side keyed introduced read parsed persist =>
    exact own.persist introduced persist
  | listenerSaved key remote v' payload side keyed introduced read parsed persist =>
    exact own.persist introduced persist

/-- What a session may have written in a phase. -/
def Content (w : WireFormat) (v : View) (payload : Bytes) : Phase → Prop
  | .joinIdentity | .listenIdentity => payload = w.identity v.here
  | .joinCommitted => ∃ remote, v.remote = some remote ∧ payload = w.confirmation ⟨v.here, remote⟩ ∧
      v.saved = some (v.peer remote) ∧ v.progress.localSaved = true
  | .listenCommitted => ∃ remote, v.remote = some remote ∧ payload = w.confirmation ⟨remote, v.here⟩

/-- A session wrote the tag of a frame, in a phase of its own side. -/
def Wrote (w : WireFormat) (v : View) (tag : Tag) (payload : Bytes) (key : Key) (phase : Phase) : Prop :=
  v.key = some key ∧ phase.sender = v.side ∧ tag = .mac key (macInput phase payload) ∧ v.Content w payload phase

def Said (w : WireFormat) (v : View) : Frame → Prop
  | .authentic tag payload => ∃ key phase, v.Wrote w tag payload key phase
  | _ => True

theorem Content.grows (content : v.Content w payload phase) (grows : v.Grows v') : v'.Content w payload phase := by
  have peer (remote : PairIdentity) : v'.peer remote = v.peer remote := by rw [View.peer, grows.fallback, View.peer]
  cases phase with
  | joinIdentity | listenIdentity =>
    change payload = w.identity v'.here
    rw [grows.here]
    exact content
  | joinCommitted =>
    obtain ⟨remote, heard, text, saved, kept⟩ := content
    exact ⟨remote, grows.remote _ heard, by rw [grows.here]; exact text, by rw [peer]; exact grows.saved _ saved,
      grows.localSaved kept⟩
  | listenCommitted =>
    obtain ⟨remote, heard, text⟩ := content
    exact ⟨remote, grows.remote _ heard, by rw [grows.here]; exact text⟩

theorem Said.grows (said : v.Said w frame) (grows : v.Grows v') : v'.Said w frame := by
  cases frame with
  | pake | junk => trivial
  | authentic tag payload =>
    obtain ⟨key, phase, keyed, side, same, content⟩ := said
    exact ⟨key, phase, grows.key _ keyed, by rw [grows.side]; exact side, same, content.grows grows⟩

theorem Persist.kept {peer : Peer} {outcome : Result Unit} (persist : Persist peer v v' outcome) :
    v'.side = v.side ∧ v'.key = v.key ∧ v'.remote = v.remote ∧ v'.fallback = v.fallback := by
  cases persist <;> exact ⟨rfl, rfl, rfl, rfl⟩

theorem Persist.saved_of_ok {peer : Peer} (persist : Persist peer v v' (.ok ())) :
    v'.saved = some peer ∧ v'.progress.localSaved = true := by
  cases persist with
  | saved => exact ⟨rfl, rfl⟩

/-- Whatever a session sends, it says. -/
theorem Move.said (move : Move w i frame v v' frames) : ∀ sent ∈ frames, v'.Said w sent := by
  cases move with
  | stay | joinerUnsaved | listenerUnsaved => exact fun _ member => absurd member List.not_mem_nil
  | greeted | listenerKeyed =>
    intro sent member
    rw [List.mem_singleton.mp member]
    trivial
  | joinerKeyed b side new =>
    intro sent member
    rw [List.mem_singleton.mp member]
    exact ⟨_, .joinIdentity, rfl, side.symm, rfl, rfl⟩
  | listenerIntroduced key remote side keyed new =>
    intro sent member
    rw [List.mem_singleton.mp member]
    exact ⟨key, .listenIdentity, keyed, side.symm, rfl, rfl⟩
  | joinerSaved key remote v' payload side keyed new read parsed persist =>
    intro sent member
    rw [List.mem_singleton.mp member]
    obtain ⟨sameSide, sameKey, sameRemote, sameFallback⟩ := persist.kept
    obtain ⟨saved, kept⟩ := persist.saved_of_ok
    refine ⟨key, .joinCommitted, sameKey.trans keyed, (sameSide.trans side).symm, rfl, remote, sameRemote, rfl, ?_,
      kept⟩
    change v'.saved = some (v'.peer remote)
    rw [View.peer, sameFallback]
    exact saved
  | listenerSaved key remote v' payload side keyed introduced read parsed persist =>
    intro sent member
    rw [List.mem_singleton.mp member]
    obtain ⟨sameSide, sameKey, sameRemote, -⟩ := persist.kept
    exact ⟨key, .listenCommitted, sameKey.trans keyed, (sameSide.trans side).symm, rfl, remote,
      sameRemote.trans introduced, rfl⟩

end View

namespace State

/-- What one step of the network and its machines does. -/
inductive Flow (w : WireFormat) (d d' : State) : Prop
  | quiet (sessions : d'.sessions = d.sessions) (wire : d'.wire = d.wire)
  | began (s : Session) (sent : List Frame) (key : s.view.key = none) (remote : s.view.remote = none)
      (saved : s.saved = none) (plain : ∀ frame ∈ sent, ∃ msg, frame = .pake msg)
      (sessions : d'.sessions = d.sessions ++ [s])
      (wire : d'.wire = d.wire ++ sent.map (fun frame => (d.sessions.length, frame)))
  | moved (i : ℕ) (s s' : Session) (frame : Frame) (sent : List Frame) (found : d.sessions[i]? = some s)
      (injected : d.mayInject frame = true) (move : View.Move w i frame s.view s'.view sent)
      (sessions : d'.sessions = d.sessions.set i s')
      (wire : d'.wire = d.wire ++ sent.map (fun frame => (i, frame)))

theorem start_eq_ok {env : Env} {side : Side} {code addr : String} {fallback : Option String}
    {started : Session × List Frame} (success : Session.start c env side code addr fallback i = .ok started) :
    started.1.view.key = none ∧ started.1.view.remote = none ∧ started.1.saved = none ∧
      ∀ frame ∈ started.2, ∃ msg, frame = .pake msg := by
  rw [Session.start, bind_eq_ok] at success
  obtain ⟨here, -, success⟩ := success
  cases side with
  | listener =>
    cases success
    exact ⟨rfl, rfl, rfl, fun _ member => absurd member List.not_mem_nil⟩
  | joiner =>
    cases success
    have same := Session.view_afterWrite ⟨.joiner, here, code, fallback, .greeting, .default, none⟩ env
    refine ⟨congrArg View.key same, congrArg View.remote same, congrArg View.saved same, fun frame member => ?_⟩
    exact ⟨_, List.mem_singleton.mp member⟩

theorem flow_begun {env : Env} {side : Side} {code addr : String} {fallback : Option String}
    {started : Session × List Frame}
    (success : Session.start c env side code addr fallback d.sessions.length = .ok started) :
    Flow w d (d.begun started) := by
  obtain ⟨key, remote, saved, plain⟩ := start_eq_ok success
  exact .began started.1 started.2 key remote saved plain rfl rfl

theorem step_flow (d : State) (event : Event) : Flow w d (d.step c w event) := by
  cases event with
  | listen env code addr remote =>
    change Flow w d (d.begin c env .listener code addr remote)
    unfold begin
    split
    · exact .quiet rfl rfl
    · next success => exact flow_begun success
  | join env code dialed addr =>
    change Flow w d (d.begin c env .joiner code addr (some dialed))
    unfold begin
    split
    · exact .quiet rfl rfl
    · next success => exact flow_begun success
  | deliver i frame env =>
    change Flow w d (d.deliver c w i frame env)
    unfold deliver
    split
    · exact .quiet rfl rfl
    · next s found =>
      split_ifs with held
      · exact .quiet rfl rfl
      · exact .moved i s _ frame _ found (by simpa using held) (Session.deliver_move rfl) rfl rfl
  | interrupt i e =>
    change Flow w d (d.interrupt i e)
    unfold interrupt
    split
    · exact .quiet rfl rfl
    · next s found =>
      refine .moved i s (s.interrupt e) (.junk []) [] found rfl ?_ rfl (List.append_nil _).symm
      rw [Session.view_interrupt]
      exact .stay
  | call code addr candidates => exact .quiet rfl rfl
  | dial k connected =>
    change Flow w d (d.dial c k connected)
    unfold dial
    repeat' split
    any_goals exact .quiet rfl rfl
    next call found going dialed rest waiting started success =>
    rw [bind_eq_ok] at success
    obtain ⟨env, -, success⟩ := success
    obtain ⟨key, remote, saved, plain⟩ := start_eq_ok success
    exact .began started.1 started.2 key remote saved plain rfl rfl
  | next k pinned =>
    change Flow w d (d.next k pinned)
    unfold next
    repeat' split
    all_goals exact .quiet rfl rfl

/-- The joiner that confirmed to a listener that it had saved it. -/
def Agreed (d : State) (s : Session) : Prop :=
  ∃ (i : ℕ) (t : Session), d.sessions[i]? = some t ∧ t.side = .joiner ∧ t.view.key = s.view.key ∧
    t.view.remote = some s.here ∧ s.view.remote = some t.here ∧ t.saved = some (t.peer s.here) ∧
    t.progress.localSaved = true

structure Inv (w : WireFormat) (d : State) : Prop where
  own : ∀ (i : ℕ) (s : Session), d.sessions[i]? = some s → s.view.Own i
  said : ∀ x ∈ d.wire, ∃ s : Session, d.sessions[x.1]? = some s ∧ s.view.Said w x.2
  agreed : ∀ (j : ℕ) (s : Session), d.sessions[j]? = some s → s.side = .listener → s.saved ≠ none → d.Agreed s

/-- A message that a session accepts was written to it, in that phase, by a session of the other side
under the same key. -/
theorem Inv.accepted (inv : Inv w d) (injected : d.mayInject frame = true)
    (read : frame = writeAuthenticated key phase payload) :
    ∃ (i : ℕ) (t : Session), d.sessions[i]? = some t ∧ t.side = phase.sender ∧ t.view.key = some key ∧
      t.view.Content w payload phase := by
  subst read
  simp only [writeAuthenticated, mayInject, List.any_eq_true] at injected
  obtain ⟨⟨i, sent⟩, member, same⟩ := injected
  obtain ⟨t, found, said⟩ := inv.said _ member
  dsimp only at same found said
  split at same
  · next tag body =>
    obtain ⟨key', phase', keyed, side, made, content⟩ := said
    rw [beq_iff_eq, made] at same
    obtain ⟨rfl, covered⟩ := Tag.mac.inj same
    obtain ⟨rfl, rfl⟩ := macInput_injective covered
    exact ⟨i, t, found, side.symm, keyed, content⟩
  · cases same

theorem inv_empty : Inv w empty :=
  ⟨fun _ _ found => absurd found (by simp [empty]), fun _ member => absurd member List.not_mem_nil,
    fun _ _ found => absurd found (by simp [empty])⟩

/-- Sessions only grow. -/
theorem Flow.grows (inv : Inv w d) (flow : Flow w d d') (found : d.sessions[i]? = some s) :
    ∃ s', d'.sessions[i]? = some s' ∧ s.view.Grows s'.view := by
  have bound : i < d.sessions.length := (List.getElem?_eq_some_iff.mp found).1
  cases flow with
  | quiet sessions wire => exact ⟨s, sessions ▸ found, .refl _⟩
  | began new sent key remote saved plain sessions wire =>
    refine ⟨s, ?_, .refl _⟩
    rw [sessions, List.getElem?_append_left bound]
    exact found
  | moved j old new frame sent present injected move sessions wire =>
    by_cases same : j = i
    · subst same
      rw [found] at present
      cases present
      exact ⟨new, by rw [sessions, List.getElem?_set_self bound], (move.own (inv.own j s found)).2⟩
    · exact ⟨s, by rw [sessions, List.getElem?_set_ne same]; exact found, .refl _⟩

theorem Agreed.grows {s' : Session} (inv : Inv w d) (flow : Flow w d d') (agreed : d.Agreed s)
    (grows : s.view.Grows s'.view) (keyed : ∃ key, s.view.key = some key) : d'.Agreed s' := by
  obtain ⟨i, t, found, side, key, heard, remote, saved, kept⟩ := agreed
  obtain ⟨k, held⟩ := keyed
  obtain ⟨t', found', growth⟩ := flow.grows inv found
  have here : s'.here = s.here := grows.here
  have here' : t'.here = t.here := growth.here
  have fallback : t'.fallback = t.fallback := growth.fallback
  refine ⟨i, t', found', growth.side.trans side, ?_, ?_, ?_, ?_, growth.localSaved kept⟩
  · rw [growth.key k (key.trans held), grows.key k held]
  · rw [here]
    exact growth.remote _ heard
  · rw [here']
    exact grows.remote _ remote
  · rw [here, Session.peer, fallback]
    exact growth.saved _ saved

/-- What a listener that saves has been told. -/
theorem Inv.agreed_of_move (inv : Inv w d) (listener : s.side = .listener)
    (injected : d.mayInject frame = true) (move : View.Move w j frame s.view v' frames)
    (unsaved : s.saved = none) (saved : v'.saved ≠ none) :
    d.Agreed s ∧ ∃ key, s.view.key = some key := by
  have told {key remote payload} (keyed : s.view.key = some key) (introduced : s.view.remote = some remote)
      (read : frame = writeAuthenticated key .joinCommitted payload)
      (parsed : w.parseConfirmation payload = some ⟨remote, s.here⟩) :
      d.Agreed s ∧ ∃ key, s.view.key = some key := by
    obtain ⟨i, t, there, side, same, heard, remembered, text, kept⟩ := inv.accepted injected read
    rw [text, w.parse_confirmation] at parsed
    obtain ⟨rfl, rfl⟩ := Confirmation.mk.inj (Option.some.inj parsed)
    exact ⟨⟨i, t, there, side, same.trans keyed.symm, remembered, introduced, kept.1, kept.2⟩, key, keyed⟩
  have notJoiner : s.view.side ≠ .joiner := by
    rw [show s.view.side = .listener from listener]
    exact fun same => nomatch same
  cases move with
  | stay | greeted | listenerKeyed | joinerKeyed | listenerIntroduced => exact absurd unsaved saved
  | joinerUnsaved _ _ _ _ _ side | joinerSaved _ _ _ _ side => exact absurd side notJoiner
  | listenerUnsaved key remote v' e payload side keyed introduced read parsed persist =>
    exact told keyed introduced read parsed
  | listenerSaved key remote v' payload side keyed introduced read parsed persist =>
    exact told keyed introduced read parsed

theorem Flow.inv (inv : Inv w d) (flow : Flow w d d') : Inv w d' := by
  have said : ∀ x ∈ d.wire, ∃ s : Session, d'.sessions[x.1]? = some s ∧ s.view.Said w x.2 := by
    intro x member
    obtain ⟨s, found, said⟩ := inv.said x member
    obtain ⟨s', found', grows⟩ := flow.grows inv found
    exact ⟨s', found', said.grows grows⟩
  have agreed (j : ℕ) (s s' : Session) (found : d.sessions[j]? = some s) (listener : s.side = .listener)
      (saved : s.saved ≠ none) (grows : s.view.Grows s'.view) : d'.Agreed s' := by
    obtain ⟨peer, kept⟩ := Option.ne_none_iff_exists'.mp saved
    have own := inv.own j s found
    obtain ⟨remote, heard, -⟩ := own.saved peer kept
    exact (inv.agreed j s found listener saved).grows inv flow grows (own.keyed remote heard)
  have whole := flow
  cases flow with
  | quiet sessions wire =>
    refine ⟨fun i s found => inv.own i s (sessions ▸ found), fun x member => said x (wire ▸ member), ?_⟩
    exact fun j s found listener saved => agreed j s s (sessions ▸ found) listener saved (.refl _)
  | began s sent key remote saved plain sessions wire =>
    have old {i : ℕ} {t : Session} (found : d'.sessions[i]? = some t) : d.sessions[i]? = some t ∨ t = s := by
      rw [sessions, List.getElem?_append] at found
      split_ifs at found with bound
      · exact .inl found
      · rw [List.getElem?_singleton] at found
        split_ifs at found
        exact .inr (Option.some.inj found).symm
    refine ⟨fun i t found => ?_, fun x member => ?_, fun j t found listener held => ?_⟩
    · rcases old found with before | rfl
      · exact inv.own i t before
      · refine ⟨?_, ?_, ?_, ?_, ?_⟩
        · exact fun _ held => absurd held (by simp [key])
        · exact fun _ held => absurd held (by simp [key])
        · exact fun _ held => absurd held (by simp [key])
        · exact fun _ held => absurd held (by simp [remote])
        · exact fun _ held => absurd (saved.symm.trans held) (by simp)
    · rw [wire] at member
      rcases List.mem_append.mp member with before | new
      · exact said x before
      · obtain ⟨frame, sending, rfl⟩ := List.mem_map.mp new
        obtain ⟨msg, rfl⟩ := plain frame sending
        refine ⟨s, ?_, trivial⟩
        rw [sessions, List.getElem?_append_right (le_refl _), Nat.sub_self]
        rfl
    · rcases old found with before | rfl
      · exact agreed j t t before listener held (.refl _)
      · exact absurd saved held
  | moved i s s' frame sent found injected move sessions wire =>
    have bound : i < d.sessions.length := (List.getElem?_eq_some_iff.mp found).1
    obtain ⟨own, grows⟩ := move.own (inv.own i s found)
    have old {k : ℕ} {t : Session} (there : d'.sessions[k]? = some t) :
        (k ≠ i ∧ d.sessions[k]? = some t) ∨ (k = i ∧ t = s') := by
      rw [sessions] at there
      by_cases same : k = i
      · subst same
        rw [List.getElem?_set_self bound] at there
        exact .inr ⟨rfl, (Option.some.inj there).symm⟩
      · rw [List.getElem?_set_ne (Ne.symm same)] at there
        exact .inl ⟨same, there⟩
    refine ⟨fun k t there => ?_, fun x member => ?_, fun k t there listener held => ?_⟩
    · rcases old there with ⟨-, before⟩ | ⟨rfl, rfl⟩
      · exact inv.own k t before
      · exact own
    · rw [wire] at member
      rcases List.mem_append.mp member with before | new
      · exact said x before
      · obtain ⟨frame', sending, rfl⟩ := List.mem_map.mp new
        refine ⟨s', ?_, move.said frame' sending⟩
        rw [sessions]
        exact List.getElem?_set_self bound
    · rcases old there with ⟨-, before⟩ | ⟨rfl, rfl⟩
      · exact agreed k t t before listener held (.refl _)
      · have side : s.side = .listener := grows.side.symm.trans listener
        by_cases unsaved : s.saved = none
        · obtain ⟨now, keyed⟩ := inv.agreed_of_move side injected move unsaved held
          exact now.grows inv whole grows keyed
        · exact agreed k s t found side unsaved grows

theorem inv_run (c : Crypto) (w : WireFormat) (events : List Event) : Inv w (run c w events) := by
  induction events using List.reverseRecOn with
  | nil => exact inv_empty
  | append_singleton events event ih =>
    rw [run, List.foldl_concat]
    exact (step_flow _ event).inv ih

/-- Pairing agreement. A listener that has saved a peer shares its key with a joiner that used the same
code and had saved the listener; each saved the name and key that the other announced, and neither its
own. And a message accepted in some phase was written to that phase, by the other side, under that key. -/
theorem pairing_agreement (c : Crypto) (w : WireFormat) (events : List Event) :
    (∀ (j : ℕ) (s : Session) (p : Peer), (run c w events).sessions[j]? = some s → s.side = .listener →
      s.saved = some p → ∃ (i : ℕ) (t : Session) (q : Peer), (run c w events).sessions[i]? = some t ∧
        t.side = .joiner ∧ t.code = s.code ∧ (∃ key, t.stage.key? = some key ∧ s.stage.key? = some key) ∧
        t.progress.localSaved = true ∧ t.saved = some q ∧
        (p.name.name = t.here.name ∧ p.ownerPk = t.here.ownerPk) ∧
        (q.name.name = s.here.name ∧ q.ownerPk = s.here.ownerPk) ∧
        (p.name.name ≠ s.here.name ∧ p.ownerPk ≠ s.here.ownerPk) ∧
        (q.name.name ≠ t.here.name ∧ q.ownerPk ≠ t.here.ownerPk)) ∧
    ∀ (frame : Frame) (key : Key) (phase : Phase) (payload : Bytes),
      (run c w events).mayInject frame = true → readAuthenticated key phase frame = .ok payload →
      ∃ (i : ℕ) (t : Session), (run c w events).sessions[i]? = some t ∧ t.side = phase.sender ∧
        t.stage.key? = some key ∧ t.view.Content w payload phase := by
  have inv := inv_run c w events
  generalize run c w events = d at inv ⊢
  constructor
  · intro j s p found listener saved
    obtain ⟨i, t, there, side, key, heard, remote, stored, kept⟩ := inv.agreed j s found listener (by simp [saved])
    have own := inv.own j s found
    have own' := inv.own i t there
    obtain ⟨known, heardHere, rfl, other, -⟩ := own.saved p saved
    obtain rfl : known = t.here := Option.some.inj (heardHere.symm.trans remote)
    obtain ⟨k, keyed⟩ := own.keyed _ remote
    obtain ⟨known', heardThere, same, other', -⟩ := own'.saved _ stored
    have code : t.code = s.code := (own'.code k (key.trans keyed)).symm.trans (own.code k keyed)
    exact ⟨i, t, t.peer s.here, there, side, code, ⟨k, key.trans keyed, keyed⟩, kept, stored, ⟨rfl, rfl⟩,
      ⟨rfl, rfl⟩, other, other'⟩
  · intro frame key phase payload injected read
    exact inv.accepted injected (readAuthenticated_eq_ok.mp read)

end State

end Clix.Pairing
