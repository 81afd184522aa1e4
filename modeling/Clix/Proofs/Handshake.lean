import Clix.Model.Handshake
import Clix.Proofs.Steps
import Mathlib.Data.List.Basic

/-! # What a pairing session can do

`Session.Move` lists what a session can do when a frame is delivered to it, in terms of what the other
side and the owner can observe: its key, the identity it received, its progress, what it saved, and the
frames it sent. Every invariant of pairing is proved from this list.
-/

namespace Clix

open Except

namespace Pair

variable {c : Crypto}

theorem validatePeers_key {bodyName : String} {localPk : Bytes} {names : List BodyId}
    {keys : List Bytes} {peers : List Peer}
    (valid : validatePeers c bodyName localPk names keys peers = .ok ()) (p : Peer) (member : p ∈ peers) :
    p.ownerPk ≠ localPk := by
  induction peers generalizing names keys with
  | nil => exact absurd member List.not_mem_nil
  | cons head rest ih =>
    rw [validatePeers, bind_eq_ok] at valid
    obtain ⟨⟨⟩, -, valid⟩ := valid
    rw [refuseIf_bind_eq_ok] at valid
    obtain ⟨-, valid⟩ := valid
    rw [refuseIf_bind_eq_ok] at valid
    obtain ⟨distinct, valid⟩ := valid
    rcases List.mem_cons.mp member with rfl | later
    · exact fun same => distinct (.inr (.inr (.inl same)))
    · exact ih valid later

/-- A saved peer has its row, under its own name and key. -/
theorem mem_of_updatePeer {s t : Store} {peer : Peer} (success : updatePeer c s peer = .ok t) :
    ∃ p ∈ t.peers, p.name = peer.name ∧ p.ownerPk = peer.ownerPk := by
  unfold updatePeer at success
  dsimp only at success
  split at success
  · next existing found =>
    rw [refuseIf_bind_eq_ok] at success
    obtain ⟨same, success⟩ := success
    rw [pure_eq_ok, ok_bind, bind_eq_ok] at success
    obtain ⟨⟨⟩, -, success⟩ := success
    cases success
    push Not at same
    have pairs : (s.peers.modifyFirst (fun p => p.name == peer.name || p.ownerPk == peer.ownerPk)
        (fun p => { p with addr := peer.addr })).map (fun p => (p.name, p.ownerPk)) =
        s.peers.map (fun p => (p.name, p.ownerPk)) :=
      List.map_modifyFirst_of_eq _ _ _ _ (fun _ _ _ => rfl)
    have present : (peer.name, peer.ownerPk) ∈ s.peers.map (fun p => (p.name, p.ownerPk)) :=
      List.mem_map.mpr ⟨existing, List.mem_of_find?_eq_some found, Prod.ext same.1 same.2⟩
    rw [← pairs] at present
    obtain ⟨q, there, equal⟩ := List.mem_map.mp present
    exact ⟨q, there, congrArg Prod.fst equal, congrArg Prod.snd equal⟩
  · rw [pure_eq_ok, ok_bind, bind_eq_ok] at success
    obtain ⟨⟨⟩, -, success⟩ := success
    cases success
    exact ⟨peer, List.mem_append_right _ List.mem_cons_self, rfl, rfl⟩

/-- A machine never saves its own name or key. -/
theorem ne_of_updatePeer {s t : Store} {peer : Peer} {key : Bytes} (success : updatePeer c s peer = .ok t)
    (own : ownerPk c s.ownerSk = .ok key) : peer.name.name ≠ s.bodyName ∧ peer.ownerPk ≠ key := by
  obtain ⟨valid, frame, -⟩ := updatePeer_eq_ok success
  obtain ⟨p, member, name, pk⟩ := mem_of_updatePeer success
  have body : t.bodyName = s.bodyName := by rw [frame]
  have seed : t.ownerSk = s.ownerSk := by rw [frame]
  rw [ownerPk, refuseIf_bind_eq_ok] at own
  obtain ⟨-, own⟩ := own
  cases own
  rw [← name, ← pk, ← body, ← seed]
  exact ⟨name_ne_of_mem valid member, validatePeers_key (validateStore_eq_ok valid).2.2 p member⟩

end Pair

namespace Pairing

variable {c : Crypto} {w : WireFormat} {i : ℕ} {s s' : Session} {frame : Frame} {env : Env} {frames : List Frame}
  {key : Key} {phase : Phase} {payload : Bytes}

theorem zero_notMem_label (phase : Phase) : (0 : UInt8) ∉ Json.utf8 phase.label := by
  cases phase <;> decide

theorem label_injective {p q : Phase} (same : Json.utf8 p.label = Json.utf8 q.label) : p = q := by
  revert same
  cases p <;> cases q <;> decide

/-- The bytes under a tag tell the phase and the payload. -/
theorem macInput_injective {p q : Phase} {first second : Bytes}
    (same : macInput p first = macInput q second) : p = q ∧ first = second := by
  have rest := List.tail_eq_of_cons_eq (List.append_cancel_left same)
  have split : ∀ {a b x y : Bytes}, (0 : UInt8) ∉ a → (0 : UInt8) ∉ b → a ++ 0 :: x = b ++ 0 :: y →
      a = b ∧ x = y := by
    intro a b x y cleanA cleanB equal
    induction a generalizing b with
    | nil =>
      cases b with
      | nil => exact ⟨rfl, List.tail_eq_of_cons_eq equal⟩
      | cons head tail =>
        exact absurd (List.mem_cons.mpr (.inl (List.head_eq_of_cons_eq equal))) cleanB
    | cons head tail ih =>
      cases b with
      | nil => exact absurd (List.mem_cons.mpr (.inl (List.head_eq_of_cons_eq equal).symm)) cleanA
      | cons head' tail' =>
        rw [List.cons_append, List.cons_append] at equal
        injection equal with first equal
        subst first
        obtain ⟨rfl, rfl⟩ := ih (fun m => cleanA (List.mem_cons_of_mem _ m))
          (fun m => cleanB (List.mem_cons_of_mem _ m)) equal
        exact ⟨rfl, rfl⟩
  obtain ⟨label, payload⟩ := split (zero_notMem_label p) (zero_notMem_label q) rest
  exact ⟨label_injective label, payload⟩

theorem readAuthenticated_eq_ok : readAuthenticated key phase frame = .ok payload ↔
    frame = writeAuthenticated key phase payload := by
  unfold readAuthenticated writeAuthenticated
  cases frame with
  | authentic tag body =>
    simp only [refuseIf_bind_eq_ok, not_not, pure_eq_ok, Except.ok.injEq, Frame.authentic.injEq]
    constructor <;> rintro ⟨rfl, rfl⟩ <;> exact ⟨rfl, rfl⟩
  | pake | junk => simp

/-- What anyone can observe of a session, whether or not it has ended. -/
structure View where
  side : Side
  here : PairIdentity
  code : String
  fallback : Option String
  key : Option Key
  remote : Option PairIdentity
  progress : Progress
  saved : Option Peer

def Session.view (s : Session) : View :=
  ⟨s.side, s.here, s.code, s.fallback, s.stage.key?, s.stage.remote?, s.progress, s.saved⟩

namespace Session

@[simp] theorem view_fail (s : Session) (e : ClixError) : (s.fail e).view = s.view := rfl

@[simp] theorem view_finish (s : Session) (peer : Peer) : (s.finish peer).view = s.view := rfl

@[simp] theorem view_afterWrite (s : Session) (env : Env) : (s.afterWrite env).view = s.view := by
  unfold afterWrite
  split <;> rfl

@[simp] theorem view_interrupt (s : Session) (e : ClixError) : (s.interrupt e).view = s.view := by
  unfold interrupt
  split_ifs <;> rfl

end Session

namespace View

def peer (v : View) (remote : PairIdentity) : Peer := peerFrom remote v.fallback

def named (v : View) (peer : Peer) : View :=
  { v with progress := { v.progress with localPeer := some peer.name.name } }

/-- What an attempt to save a peer leaves. A peer may be on disk although the save failed. -/
inductive Persist (peer : Peer) (v : View) : View → Result Unit → Prop
  | refused (e : ClixError) : Persist peer v v (.error e)
  | unsaved (e : ClixError) : Persist peer v (v.named peer) (.error e)
  | onDisk (e : ClixError) (other : peer.name.name ≠ v.here.name ∧ peer.ownerPk ≠ v.here.ownerPk) :
      Persist peer v { v.named peer with saved := some peer } (.error e)
  | saved (other : peer.name.name ≠ v.here.name ∧ peer.ownerPk ≠ v.here.ownerPk) :
      Persist peer v { v.named peer with
        saved := some peer
        progress := { (v.named peer).progress with localSaved := true } } (.ok ())

theorem Persist.here {peer : Peer} {v v' : View} {outcome : Result Unit} (persist : Persist peer v v' outcome) :
    v'.here = v.here := by
  cases persist <;> rfl

/-- What a session can do when a frame is delivered to it, and what it sends. -/
inductive Move (w : WireFormat) (i : ℕ) (frame : Frame) (v : View) : View → List Frame → Prop
  | stay : Move w i frame v v []
  | greeted (side : v.side = .listener) : Move w i frame v v [.pake (.own i)]
  | listenerKeyed (a : PakeMsg) (side : v.side = .listener) (new : v.key = none) :
      Move w i frame v { v with key := some ⟨v.code, a, .own i⟩ } [.pake (.own i)]
  | joinerKeyed (b : PakeMsg) (side : v.side = .joiner) (new : v.key = none) :
      Move w i frame v { v with key := some ⟨v.code, .own i, b⟩ }
        [writeAuthenticated ⟨v.code, .own i, b⟩ .joinIdentity (w.identity v.here)]
  | listenerIntroduced (key : Key) (remote : PairIdentity) (side : v.side = .listener)
      (keyed : v.key = some key) (new : v.remote = none) :
      Move w i frame v { v with
          remote := some remote
          progress := { v.progress with remoteMayTrust := true } }
        [writeAuthenticated key .listenIdentity (w.identity v.here)]
  | joinerUnsaved (key : Key) (remote : PairIdentity) (v' : View) (e : ClixError) (payload : Bytes)
      (side : v.side = .joiner) (keyed : v.key = some key) (new : v.remote = none)
      (read : frame = writeAuthenticated key .listenIdentity payload)
      (parsed : w.parseIdentity payload = some remote)
      (persist : Persist (v.peer remote) { v with remote := some remote } v' (.error e)) :
      Move w i frame v v' []
  | joinerSaved (key : Key) (remote : PairIdentity) (v' : View) (payload : Bytes)
      (side : v.side = .joiner) (keyed : v.key = some key) (new : v.remote = none)
      (read : frame = writeAuthenticated key .listenIdentity payload)
      (parsed : w.parseIdentity payload = some remote)
      (persist : Persist (v.peer remote) { v with remote := some remote } v' (.ok ())) :
      Move w i frame v { v' with progress := { v'.progress with remoteMayTrust := true } }
        [writeAuthenticated key .joinCommitted (w.confirmation ⟨v'.here, remote⟩)]
  | listenerUnsaved (key : Key) (remote : PairIdentity) (v' : View) (e : ClixError) (payload : Bytes)
      (side : v.side = .listener) (keyed : v.key = some key) (introduced : v.remote = some remote)
      (read : frame = writeAuthenticated key .joinCommitted payload)
      (parsed : w.parseConfirmation payload = some ⟨remote, v.here⟩)
      (persist : Persist (v.peer remote) v v' (.error e)) :
      Move w i frame v v' []
  | listenerSaved (key : Key) (remote : PairIdentity) (v' : View) (payload : Bytes)
      (side : v.side = .listener) (keyed : v.key = some key) (introduced : v.remote = some remote)
      (read : frame = writeAuthenticated key .joinCommitted payload)
      (parsed : w.parseConfirmation payload = some ⟨remote, v.here⟩)
      (persist : Persist (v.peer remote) v v' (.ok ())) :
      Move w i frame v v' [writeAuthenticated key .listenCommitted (w.confirmation ⟨remote, v'.here⟩)]

end View

namespace Session

theorem checkLocal_eq_ok (success : s.checkLocal c env = .ok ()) :
    env.store.bodyName = s.here.name ∧ Pair.ownerPk c env.store.ownerSk = .ok s.here.ownerPk := by
  rw [checkLocal, refuseIf_bind_eq_ok, not_not, bind_eq_ok] at success
  obtain ⟨name, key, own, success⟩ := success
  rw [refuseIf_eq_ok, not_not] at success
  exact ⟨name, own.trans (congrArg Except.ok success)⟩

theorem persistPeer_persist {peer : Peer} {outcome : Result Unit}
    (done : s.persistPeer c env peer = (s', outcome)) :
    View.Persist peer s.view s'.view outcome := by
  unfold persistPeer at done
  split at done
  · cases done
    exact .refused _
  · next checked =>
    obtain ⟨name, own⟩ := checkLocal_eq_ok checked
    dsimp only at done
    split at done
    · cases done
      exact .unsaved _
    all_goals
      next staged _ =>
      obtain ⟨edited, ran, -⟩ := Store.stage_desk staged
      rw [pairEdit, bind_eq_ok] at ran
      obtain ⟨t, updated, -⟩ := ran
      have other := Pair.ne_of_updatePeer updated own
      rw [name] at other
      cases done
      first
        | exact .saved other
        | split_ifs
          · exact .onDisk _ other
          · exact .unsaved _

theorem readIdentity_eq_ok {remote : PairIdentity} (success : s.readIdentity c w key phase frame env = .ok remote) :
    ∃ payload, frame = writeAuthenticated key phase payload ∧ w.parseIdentity payload = some remote := by
  rw [readIdentity, bind_eq_ok] at success
  obtain ⟨payload, read, success⟩ := success
  rw [bind_eq_ok] at success
  obtain ⟨received, parse, success⟩ := success
  rw [bind_eq_ok] at success
  obtain ⟨⟨⟩, -, success⟩ := success
  cases success
  refine ⟨payload, readAuthenticated_eq_ok.mp read, ?_⟩
  unfold parsed at parse
  cases found : w.parseIdentity payload with
  | none => rw [found] at parse; cases parse
  | some remote' => rw [found] at parse; cases parse; rfl

theorem readConfirmation_eq_ok {expected : Confirmation}
    (success : readConfirmation w key phase expected frame = .ok ()) :
    ∃ payload, frame = writeAuthenticated key phase payload ∧ w.parseConfirmation payload = some expected := by
  rw [readConfirmation, bind_eq_ok] at success
  obtain ⟨payload, read, success⟩ := success
  rw [bind_eq_ok] at success
  obtain ⟨received, parse, success⟩ := success
  rw [refuseIf_eq_ok, not_not] at success
  subst success
  refine ⟨payload, readAuthenticated_eq_ok.mp read, ?_⟩
  unfold parsed at parse
  cases found : w.parseConfirmation payload with
  | none => rw [found] at parse; cases parse
  | some confirmed => rw [found] at parse; cases parse; rfl

theorem greet_move (waiting : s.stage = .greeting) (done : s.greet w i frame env = (s', frames)) :
    View.Move w i frame s.view s'.view frames := by
  obtain ⟨side, here, code, fallback, stage, progress, saved⟩ := s
  cases waiting
  unfold greet at done
  split at done <;> cases done
  · next a listener =>
    rw [view_afterWrite]
    exact .listenerKeyed a listener rfl
  · next listener _ =>
    rw [view_afterWrite, view_fail]
    exact .greeted listener
  · next b joiner =>
    rw [view_afterWrite]
    exact .joinerKeyed b joiner rfl
  · exact .stay

theorem introduce_move (waiting : s.stage = .keyed key) (done : s.introduce c w key frame env = (s', frames)) :
    View.Move w i frame s.view s'.view frames := by
  obtain ⟨side, here, code, fallback, stage, progress, saved⟩ := s
  cases waiting
  unfold introduce at done
  split at done <;> split at done
  · cases done
    exact .stay
  · next listener _ remote read =>
    cases done
    rw [view_afterWrite]
    exact .listenerIntroduced key remote listener rfl rfl
  · cases done
    exact .stay
  · next joiner _ remote read =>
    obtain ⟨payload, sent, parse⟩ := readIdentity_eq_ok read
    split at done
    · next unsaved e persist =>
      cases done
      exact .joinerUnsaved key remote unsaved.view e payload joiner rfl rfl sent parse
        (persistPeer_persist persist)
    · next kept persist =>
      cases done
      replace persist := persistPeer_persist persist
      rw [view_afterWrite]
      exact View.Move.joinerSaved (v := ⟨side, here, code, fallback, some key, none, progress, saved⟩) key remote
        kept.view payload joiner rfl rfl sent parse persist

theorem confirm_move {remote : PairIdentity} (waiting : s.stage = .introduced key remote)
    (done : s.confirm c w key remote frame env = (s', frames)) :
    View.Move w i frame s.view s'.view frames := by
  obtain ⟨side, here, code, fallback, stage, progress, saved⟩ := s
  cases waiting
  unfold confirm at done
  split at done <;> split at done
  · cases done
    exact .stay
  · next listener _ read =>
    obtain ⟨payload, sent, parse⟩ := readConfirmation_eq_ok read
    split at done
    · next unsaved e persist =>
      cases done
      exact .listenerUnsaved key remote unsaved.view e payload listener rfl rfl sent parse
        (persistPeer_persist persist)
    · next kept persist =>
      cases done
      replace persist := persistPeer_persist persist
      split
      · exact .listenerSaved key remote kept.view payload listener rfl rfl sent parse persist
      · exact .listenerSaved key remote kept.view payload listener rfl rfl sent parse persist
  · cases done
    exact .stay
  · cases done
    exact .stay

theorem deliver_move (done : s.deliver c w i frame env = (s', frames)) :
    View.Move w i frame s.view s'.view frames := by
  unfold deliver at done
  split at done
  · next waiting => exact greet_move waiting done
  · next key waiting => exact introduce_move waiting done
  · next key remote waiting => exact confirm_move waiting done
  · cases done
    exact .stay

end Session

end Pairing

end Clix
