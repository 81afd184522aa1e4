import Clix.Proofs.PinReady

/-! # The steps of a session between ready machines

Every step of a session leaves its two machines ready for what is left of it, whether its answer arrives or
not, and brings the session nearer to its end. It fails only when an answer is lost or something cannot be
saved.
-/

namespace Clix.Pin

open Except

variable {c : Crypto} {here there : Side} {draw : String → Ids} {m n : Machine} {call : Call} {d : Delivery}
  {deliveries : List Delivery} {changes rest : List Change} {merged manifest : Manifest} {ch : Change} {peer : Peer}
  {w : Weather} {k : ℕ} {data : Option File} {store : Store} {result : Result Unit} {ids : Ids}

/-! ## What the parts of a step do -/

namespace Partner

theorem sessionPeer (partner : Partner m peer) : sessionPeer m.store peer.name.name = .ok peer := by
  rw [Pin.sessionPeer, Store.ensureWritable, partner.writable, ok_bind, partner.known]

theorem authority (partner : Partner m peer) : currentSyncAuthority m peer m.root = .ok () := by
  have member := List.mem_of_find?_eq_some partner.known
  have listed : m.store.peers.any (fun p => p.name == peer.name && p.ownerPk == peer.ownerPk) = true :=
    List.any_eq_true.mpr ⟨peer, member, by simp⟩
  rw [currentSyncAuthority, Store.ensureWritable, partner.writable, ok_bind, refuseIf_neg]
  simp [listed]

/-- Recording the merge, or failing to, keeps a machine able to take part. -/
theorem record (partner : Partner m peer) (calm : w.fault = none) (kept : Recorded merged)
    (ran : record c w peer.ownerPk merged m.store = (store, result)) :
    Partner { m with store := store } peer ∧
      (result = .ok () → store.pinIndex.peers.get? (key peer.ownerPk) = some merged) := by
  obtain ⟨same, outcome⟩ := record_cases ran
  have writable : store.writeError = none := by
    rw [Pin.record, updateStore, calm] at ran
    split at ran
    · cases ran
      exact partner.writable
    · next next value staged =>
      cases ran
      obtain ⟨edited, made, -, -, error⟩ := Store.stage_pin staged
      cases made
      exact error.trans partner.writable
  have known : store.peers.find? (fun p => p.name.name == peer.name.name) = some peer := by
    rw [same.peers]
    exact partner.known
  rcases outcome with ⟨failed, index⟩ | ⟨rfl, index, -⟩
  · refine ⟨⟨known, same.pinEnabled.trans partner.enabled, writable, ?_⟩, fun done => absurd done failed⟩
    rw [baseline, index]
    exact partner.recorded
  · have found : store.pinIndex.peers.get? (key peer.ownerPk) = some merged := by
      rw [index, OrdMap.get?_insert_self]
    refine ⟨⟨known, same.pinEnabled.trans partner.enabled, writable, ?_⟩, fun _ => found⟩
    rw [baseline, found, Option.getD_some, withoutExcluded_of_valid kept.valid]
    exact kept

end Partner

/-- Where a tree is the merge, its listing fits in a frame whether or not the merge could be recorded. -/
theorem Brief.record (brief : Brief c m peer) (closing : Closing merged) (scanned : scan c m.tree = .ok merged)
    (ran : record c w peer.ownerPk merged m.store = (store, result)) : Brief c { m with store := store } peer := by
  rcases (record_cases ran).2 with ⟨-, index⟩ | ⟨-, index, -⟩
  · rw [Brief, baseline, index]
    exact brief
  · intro files success
    cases scanned.symm.trans success
    rw [baseline, index, OrdMap.get?_insert_self, Option.getD_some,
      withoutExcluded_of_valid (Recorded.of_scan scanned).valid]
    exact closing

/-! ## Messages of a session -/

theorem offered_named {live : Live} (found : offered c live ch = .ok data) : ch.path.utf8ByteSize < 4096 :=
  (ensurePassable_eq_ok.mp (read_passable (offered_eq_ok found).1)).2

theorem offered_digest {live : Live} (found : offered c live ch = .ok data) :
    ∀ fp, ch.new = some fp → fp.hash.utf8ByteSize = 64 := by
  intro fp isNew
  obtain ⟨f, -, rfl⟩ := Option.map_eq_some_iff.mp ((offered_eq_ok found).2.trans isNew)
  exact Crypto.utf8ByteSize_hash c f.bytes

/-- What a source offers can be put. -/
theorem put_short_of_offered {live : Live} (found : offered c live ch = .ok data)
    (digests : ∀ fp, ch.expected = some fp → fp.hash.utf8ByteSize = 64) :
    (Request.put (putRequest ch data)).text.length ≤ Limits.meshFrameBytes :=
  Request.put_short (offered_named found) digests (offered_digest found)
    (fun f isFile => (read_eq_ok (offered_eq_ok found).1).2.2.2.2 f isFile)

/-- What a source offers can be got. -/
theorem get_short_of_offered {live : Live} {f : File} {new : Fingerprint} (found : offered c live ch = .ok (some f))
    (hasNew : ch.new = some new) : (Request.get ch.path new).text.length ≤ Limits.meshFrameBytes ∧
      (Answer.content (.ok (Crypto.hex f.bytes))).text.length ≤ Limits.meshFrameBytes :=
  ⟨Request.get_short (offered_named found) (offered_digest found new hasNew),
    Answer.content_short ((read_eq_ok (offered_eq_ok found).1).2.2.2.2 f rfl)⟩

/-! ## What the callee serves -/

/-- A put is served when the callee's own baseline has what the change expects and its tree can take it. -/
theorem rpcPut_of_offered {host : Host} {tree : Tree} (enabled : n.store.pinEnabled = true)
    (gate : (baseline n.store peer.ownerPk).get? ch.path = ch.expected)
    (found : offered c m.tree.live ch = .ok data)
    (applied : apply c host n.store ch (data.map (·.bytes)) ids n.tree = (.ok (), tree)) :
    rpcPut c host ids peer (putRequest ch data) n = ({ n with tree := tree }, .ok ()) := by
  obtain ⟨readable, -⟩ := offered_eq_ok found
  obtain ⟨valid, -, -, -, small⟩ := read_eq_ok readable
  have checked : putChecks n.store peer (putRequest ch data) =
      .ok (⟨ch.path, ch.expected, ch.new, false⟩, data.map (·.bytes)) := by
    rw [putChecks, ensureEnabled_eq_ok.mpr enabled, ok_bind]
    dsimp only [putRequest]
    rw [valid, ok_bind, refuseIf_neg (not_not.mpr gate), ok_bind]
    cases data with
    | none => rfl
    | some f =>
      dsimp only [Option.map_some]
      rw [unhex_hex (small f rfl), ok_bind]
      rfl
  have same : apply c host n.store ⟨ch.path, ch.expected, ch.new, false⟩ (data.map (·.bytes)) ids n.tree =
      (.ok (), tree) := applied
  rw [rpcPut, checked]
  dsimp only
  rw [same]

/-- A get is served with the content that a change offers. -/
theorem rpcGet_of_offered {f : File} {new : Fingerprint} (enabled : n.store.pinEnabled = true)
    (found : offered c n.tree.live ch = .ok (some f)) (hasNew : ch.new = some new) :
    rpcGet c n ch.path new = .ok (Crypto.hex f.bytes) ∧ unhex (Crypto.hex f.bytes) = .ok f.bytes := by
  obtain ⟨readable, same⟩ := offered_eq_ok found
  have digest : f.fingerprint c = new := Option.some.inj (same.trans hasNew)
  refine ⟨?_, unhex_hex ((read_eq_ok readable).2.2.2.2 f rfl)⟩
  rw [rpcGet, ensureEnabled_eq_ok.mpr enabled, ok_bind, readable, ok_bind]
  dsimp only
  rw [refuseIf_neg (not_not.mpr digest), ok_bind]
  rfl

namespace Ready

/-- What a planned change expects was scanned. -/
theorem digests (ready : Ready c here there draw m n (ch :: rest) merged) :
    ∀ fp, ch.expected = some fp → fp.hash.utf8ByteSize = 64 := by
  obtain ⟨af, bf, base, scannedA, scannedB, -, planned⟩ := ready.planned
  obtain ⟨expected, -, -, -⟩ := plan_expected planned List.mem_cons_self
  intro fp found
  rw [expected] at found
  split_ifs at found
  · exact scan_digest scannedB found
  · exact scan_digest scannedA found

/-- A change that goes to the callee: its content is at hand, and the callee can apply it. -/
theorem push (ready : Ready c here there draw m n (ch :: rest) merged) (direction : ch.toRemote = true) :
    ∃ data tree, offered c m.tree.live ch = .ok data ∧
      apply c there.host n.store ch (data.map (·.bytes)) (draw ch.path) n.tree = (.ok (), tree) ∧
      Ready c here there draw m { n with tree := tree } rest merged := by
  obtain ⟨m', n', ran, after⟩ := ready.next
  rw [syncChange, direction, if_pos rfl] at ran
  split at ran
  · cases ran
  · next data found =>
    simp only [if_true] at ran
    generalize applied : apply c there.host n.store ch (data.map (·.bytes)) (draw ch.path) n.tree = outcome at ran
    obtain ⟨result, tree⟩ := outcome
    cases ran
    exact ⟨data, tree, found, applied, after⟩

/-- A change that goes to the caller. -/
theorem pull (ready : Ready c here there draw m n (ch :: rest) merged) (direction : ch.toRemote = false) :
    ∃ data tree, offered c n.tree.live ch = .ok data ∧
      apply c here.host m.store ch (data.map (·.bytes)) (draw ch.path) m.tree = (.ok (), tree) ∧
      Ready c here there draw { m with tree := tree } n rest merged := by
  obtain ⟨m', n', ran, after⟩ := ready.next
  rw [syncChange, direction, if_neg Bool.false_ne_true] at ran
  split at ran
  · cases ran
  · next data found =>
    simp only [Bool.false_eq_true, if_false] at ran
    generalize applied : apply c here.host m.store ch (data.map (·.bytes)) (draw ch.path) m.tree = outcome at ran
    obtain ⟨result, tree⟩ := outcome
    cases ran
    exact ⟨data, tree, found, applied, after⟩

/-- The callee serves a planned change: its own baseline is the one that was planned from. -/
theorem served_put (ready : Ready c here there draw m n (ch :: rest) merged) (direction : ch.toRemote = true)
    (found : offered c m.tree.live ch = .ok data) : ∃ tree,
    rpcPut c there.host (draw ch.path) there.peer (putRequest ch data) n = ({ n with tree := tree }, .ok ()) ∧
      Ready c here there draw m { n with tree := tree } rest merged := by
  obtain ⟨data', tree, found', applied, after⟩ := ready.push direction
  cases found.symm.trans found'
  obtain ⟨af, bf, base, -, -, common, planned⟩ := ready.planned
  have needed := (plan_mem planned).mp List.mem_cons_self
  have other := (commonBaseline_of_change common needed).2
  obtain ⟨expected, -, -, -⟩ := plan_expected planned List.mem_cons_self
  rw [direction, if_pos rfl] at expected
  have gate : (baseline n.store there.peer.ownerPk).get? ch.path = ch.expected := by
    rw [other, expected]
    rw [changeFor, changeAt] at needed
    split_ifs at needed with same kept
    · rw [← Option.some.inj needed] at direction
      cases direction
    · exact (((plan_agree planned ch.path).resolve_left same).resolve_left kept).symm
  exact ⟨tree, rpcPut_of_offered ready.callee.enabled gate found applied, after⟩

/-- The callee serves the content of a planned change. -/
theorem served_get {new : Fingerprint} (ready : Ready c here there draw m n (ch :: rest) merged)
    (direction : ch.toRemote = false) (hasNew : ch.new = some new) : ∃ f,
    offered c n.tree.live ch = .ok (some f) ∧ rpcGet c n ch.path new = .ok (Crypto.hex f.bytes) ∧
      unhex (Crypto.hex f.bytes) = .ok f.bytes := by
  obtain ⟨data, tree, found, -, -⟩ := ready.pull direction
  obtain ⟨f, rfl, -⟩ := Option.map_eq_some_iff.mp ((offered_eq_ok found).2.trans hasNew)
  exact ⟨f, found, rpcGet_of_offered ready.callee.enabled found hasNew⟩

/-- The callee records the merge, or fails to, and is as ready as before. -/
theorem served_commit (ready : Ready c here there draw m n [] merged) (calm : w.fault = none) :
    rpcCommit c w there.peer merged n = ({ n with store := (record c w there.peer.ownerPk merged n.store).1 },
        (record c w there.peer.ownerPk merged n.store).2) ∧
      Ready c here there draw m { n with store := (record c w there.peer.ownerPk merged n.store).1 } [] merged ∧
      ((record c w there.peer.ownerPk merged n.store).2 = .ok () →
        (record c w there.peer.ownerPk merged n.store).1.pinIndex.peers.get? (key there.peer.ownerPk) =
          some merged) := by
  obtain ⟨scannedA, scannedB⟩ := ready.equal
  obtain ⟨callee, recorded⟩ := ready.callee.record calm (.of_scan scannedB)
    (Prod.ext rfl rfl : record c w there.peer.ownerPk merged n.store = (_, _))
  have brief : Brief c { n with store := (record c w there.peer.ownerPk merged n.store).1 } there.peer :=
    ready.calleeBrief.record ready.closing scannedB (Prod.ext rfl rfl)
  refine ⟨?_, .of_equal ready.caller callee scannedA scannedB ready.callerBrief brief ready.closing, recorded⟩
  rw [rpcCommit, ensureEnabled_eq_ok.mpr ready.callee.enabled, ok_bind, scannedB, ok_bind,
    refuseIf_neg (not_not.mpr rfl)]

/-- The caller records the merge, or fails to. -/
theorem recorded (ready : Ready c here there draw m n [] merged) (calm : w.fault = none) :
    Ready c here there draw { m with store := (record c w here.peer.ownerPk merged m.store).1 } n [] merged ∧
      ((record c w here.peer.ownerPk merged m.store).2 = .ok () →
        (record c w here.peer.ownerPk merged m.store).1.pinIndex.peers.get? (key here.peer.ownerPk) =
          some merged) := by
  obtain ⟨scannedA, scannedB⟩ := ready.equal
  obtain ⟨caller, recorded⟩ := ready.caller.record calm (.of_scan scannedA)
    (Prod.ext rfl rfl : record c w here.peer.ownerPk merged m.store = (_, _))
  have brief : Brief c { m with store := (record c w here.peer.ownerPk merged m.store).1 } here.peer :=
    ready.callerBrief.record ready.closing scannedA (Prod.ext rfl rfl)
  exact ⟨.of_equal caller ready.callee scannedA scannedB brief ready.calleeBrief ready.closing, recorded⟩

end Ready

/-! ## One step of a session -/

/-- What holds at a stage of a session of two machines with some changes left. -/
def Expects (c : Crypto) (here there : Side) (m n : Machine) (rest : List Change) (merged : Manifest) : Stage → Prop
  | .called name => name = here.peer.name.name
  | .scanning peer root _ => peer = here.peer ∧ root = m.root
  | .listing peer root _ files => (peer = here.peer ∧ root = m.root) ∧ scan c m.tree = .ok files
  | .comparing peer root _ files remote => (peer = here.peer ∧ root = m.root) ∧ scan c m.tree = .ok files ∧
    scan c n.tree = .ok remote.files ∧ remote.baseline = baseline n.store there.peer.ownerPk
  | .working peer root changes manifest => (peer = here.peer ∧ root = m.root) ∧ changes = rest ∧ manifest = merged
  | .offering peer root ch data others manifest => (peer = here.peer ∧ root = m.root) ∧ rest = ch :: others ∧
    manifest = merged ∧ ch.toRemote = true ∧ offered c m.tree.live ch = .ok data
  | .pushing peer root ch data others manifest => (peer = here.peer ∧ root = m.root) ∧ rest = ch :: others ∧
    manifest = merged ∧ ch.toRemote = true ∧ offered c m.tree.live ch = .ok data
  | .pulling peer root ch new others manifest => (peer = here.peer ∧ root = m.root) ∧ rest = ch :: others ∧
    manifest = merged ∧ ch.toRemote = false ∧ ch.new = some new
  | .placing peer root ch bytes others manifest => (peer = here.peer ∧ root = m.root) ∧ rest = ch :: others ∧
    manifest = merged ∧ ch.toRemote = false ∧
    ∃ data, offered c n.tree.live ch = .ok data ∧ bytes = data.map (·.bytes)
  | .vouching peer root manifest => (peer = here.peer ∧ root = m.root) ∧ rest = [] ∧ manifest = merged
  | .committing peer root manifest => (peer = here.peer ∧ root = m.root) ∧ rest = [] ∧ manifest = merged
  | .rescanning peer root manifest => (peer = here.peer ∧ root = m.root) ∧ rest = [] ∧ manifest = merged ∧
    n.store.pinIndex.peers.get? (key there.peer.ownerPk) = some merged
  | .recording peer root manifest => (peer = here.peer ∧ root = m.root) ∧ rest = [] ∧ manifest = merged ∧
    n.store.pinIndex.peers.get? (key there.peer.ownerPk) = some merged
  | .ended result => result = .ok () → rest = [] ∧
    m.store.pinIndex.peers.get? (key here.peer.ownerPk) = some merged ∧
    n.store.pinIndex.peers.get? (key there.peer.ownerPk) = some merged

/-- How many steps a stage is from the end at most, with so many changes left. -/
def Stage.remaining (left : ℕ) : Stage → ℕ
  | called _ => 4 * left + 9
  | scanning .. => 4 * left + 8
  | listing .. => 4 * left + 7
  | comparing .. => 4 * left + 6
  | working .. => 4 * left + 5
  | offering .. => 4 * left + 4
  | pushing .. => 4 * left + 3
  | pulling .. => 4 * left + 4
  | placing .. => 4 * left + 3
  | vouching .. => 4
  | committing .. => 3
  | rescanning .. => 2
  | recording .. => 1
  | ended _ => 0

/-- A session that ends after so many more steps at most, and whose machines are ready for what is left of it. -/
def Underway (c : Crypto) (here there : Side) (draw : String → Ids) (merged : Manifest) (k : ℕ) (call : Call) : Prop :=
  ∃ rest, Ready c here there draw call.caller call.callee rest merged ∧
    Expects c here there call.caller call.callee rest merged call.stage ∧ call.stage.remaining rest.length ≤ k

/-- No disk fails. -/
def Delivery.Calm (d : Delivery) : Prop := d.caller.fault = none ∧ d.callee.fault = none

def Call.Failed (call : Call) : Prop := ∃ e, call.stage = .ended (.error e)

/-- The answer arrives, and what the step saves can be saved. -/
structure Smooth (c : Crypto) (here there : Side) (d : Delivery) (call : Call) : Prop where
  arrives : d.lost = false
  commits : ∀ peer root manifest, call.stage = .committing peer root manifest →
    (record c d.callee there.peer.ownerPk manifest call.callee.store).2 = .ok ()
  records : ∀ peer root manifest, call.stage = .recording peer root manifest →
    (record c d.caller here.peer.ownerPk manifest call.caller.store).2 = .ok ()

theorem not_failed {stage : Stage} (going : stage.isEnded = false) : ¬Call.Failed ⟨stage, m, n⟩ := by
  rintro ⟨e, same⟩
  dsimp only at same
  rw [same] at going
  cases going

/-- A step that asks nothing of the callee. -/
theorem step_local (quiet : call.stage.request = none) : call.step c here there draw d =
    ⟨(syncStep c here.host d.caller (draw call.stage.path) .none call.caller call.stage).1,
      (syncStep c here.host d.caller (draw call.stage.path) .none call.caller call.stage).2, call.callee⟩ := by
  rw [Call.step, quiet]

/-- No answer comes: it is lost, or too long for a frame. -/
def Delivery.Silent (d : Delivery) (answer : Answer) : Prop :=
  d.lost = true ∨ Limits.meshFrameBytes < answer.text.length

instance (d : Delivery) (answer : Answer) : Decidable (d.Silent answer) := inferInstanceAs (Decidable (_ ∨ _))

theorem Smooth.heard {answer : Answer} (smooth : Smooth c here there d call)
    (short : answer.text.length ≤ Limits.meshFrameBytes) : ¬d.Silent answer := by
  rintro (lost | long)
  · exact absurd (smooth.arrives.symm.trans lost) Bool.false_ne_true
  · exact absurd short (not_le.mpr long)

/-- A step that asks the callee for something. -/
theorem step_remote {request : Request} {n' : Machine} {answer : Answer} (asks : call.stage.request = some request)
    (sent : request.text.length ≤ Limits.meshFrameBytes)
    (served : serve c there.host d.callee (draw call.stage.path) there.peer call.callee request = (n', answer)) :
    call.step c here there draw d = if d.Silent answer then ⟨.ended (.error .unreachable), call.caller, n'⟩ else
      ⟨(syncStep c here.host d.caller (draw call.stage.path) answer call.caller call.stage).1,
        (syncStep c here.host d.caller (draw call.stage.path) answer call.caller call.stage).2, n'⟩ := by
  rw [Call.step, asks]
  dsimp only
  rw [if_neg (not_lt.mpr sent), served]
  rfl

/-- A session whose answer was lost has ended. -/
theorem Underway.lost (ready : Ready c here there draw m n rest merged) :
    Underway c here there draw merged k ⟨.ended (.error .unreachable), m, n⟩ :=
  ⟨rest, ready, by simp [Expects], Nat.zero_le _⟩

/-- What a served request comes to: a silent answer ends the session, and a heard one takes the caller on. -/
theorem Underway.answered {request : Request} {n' : Machine} {answer : Answer} (asks : call.stage.request = some request)
    (sent : request.text.length ≤ Limits.meshFrameBytes)
    (served : serve c there.host d.callee (draw call.stage.path) there.peer call.callee request = (n', answer))
    (ready : Ready c here there draw call.caller n' rest merged)
    (short : Smooth c here there d call → answer.text.length ≤ Limits.meshFrameBytes)
    (heard : Underway c here there draw merged k
        ⟨(syncStep c here.host d.caller (draw call.stage.path) answer call.caller call.stage).1,
          (syncStep c here.host d.caller (draw call.stage.path) answer call.caller call.stage).2, n'⟩ ∧
      (Smooth c here there d call → (syncStep c here.host d.caller (draw call.stage.path) answer call.caller
        call.stage).1.isEnded = false)) :
    Underway c here there draw merged k (call.step c here there draw d) ∧
      (Smooth c here there d call → ¬call.Failed → ¬(call.step c here there draw d).Failed) := by
  rw [step_remote asks sent served]
  by_cases silent : d.Silent answer
  · rw [if_pos silent]
    exact ⟨.lost ready, fun smooth => absurd silent (smooth.heard (short smooth))⟩
  · rw [if_neg silent]
    exact ⟨heard.1, fun smooth _ => not_failed (heard.2 smooth)⟩

/-- One step of a session leaves the machines ready for what is left, and fails only when an answer is lost or
something cannot be saved. -/
theorem Underway.step (underway : Underway c here there draw merged (k + 1) call) (calm : d.Calm) :
    Underway c here there draw merged k (call.step c here there draw d) ∧
      (Smooth c here there d call → ¬call.Failed → ¬(call.step c here there draw d).Failed) := by
  obtain ⟨rest, ready, expects, few⟩ := underway
  obtain ⟨stage, m, n⟩ := call
  dsimp only at ready expects few
  cases stage with
  | called name =>
    cases expects
    rw [step_local rfl]
    dsimp only [syncStep]
    rw [ready.caller.sessionPeer]
    exact ⟨⟨rest, ready, ⟨rfl, rfl⟩, Nat.le_of_succ_le_succ few⟩, fun _ _ => not_failed rfl⟩
  | scanning peer root localName =>
    obtain ⟨rfl, rfl⟩ := expects
    obtain ⟨af, bf, base, scannedA, -⟩ := ready.planned
    rw [step_local rfl]
    dsimp only [syncStep]
    rw [scannedA]
    exact ⟨⟨rest, ready, ⟨⟨rfl, rfl⟩, scannedA⟩, Nat.le_of_succ_le_succ few⟩, fun _ _ => not_failed rfl⟩
  | listing peer root localName files =>
    obtain ⟨⟨rfl, rfl⟩, scannedA⟩ := expects
    obtain ⟨af, bf, base, -, scannedB, -⟩ := ready.planned
    have served : rpcList c n there.peer = .ok ⟨bf, baseline n.store there.peer.ownerPk⟩ := by
      rw [rpcList, ensureEnabled_eq_ok.mpr ready.callee.enabled, ok_bind, scannedB, ok_bind]
      rfl
    have answered : serve c there.host d.callee (draw "") there.peer n .list =
        (n, .listing (.ok ⟨bf, baseline n.store there.peer.ownerPk⟩)) := by
      rw [serve, served]
    refine Underway.answered rfl Request.list_short answered ready (fun _ => ready.calleeBrief bf scannedB) ?_
    dsimp only [syncStep]
    rw [ok_bind, validateListing_of (.of_scan scannedB) ready.callee.recorded]
    exact ⟨⟨rest, ready, ⟨⟨rfl, rfl⟩, scannedA, scannedB, rfl⟩, Nat.le_of_succ_le_succ few⟩, fun _ => rfl⟩
  | comparing peer root localName files remote =>
    obtain ⟨⟨rfl, rfl⟩, scannedA, scannedB, other⟩ := expects
    obtain ⟨af, bf, base, scannedA', scannedB', common, planned⟩ := ready.planned
    cases scannedA.symm.trans scannedA'
    have listed : remote.files = bf := by
      cases scannedB.symm.trans scannedB'
      rfl
    have plan' : syncPlan (baseline m.store here.peer.ownerPk) files remote localName here.peer.name.name =
        .ok (rest, merged) := by
      rw [syncPlan, other, listed, common, ok_bind]
      exact plan_names planned
    rw [step_local rfl]
    dsimp only [syncStep]
    rw [plan']
    exact ⟨⟨rest, ready, ⟨⟨rfl, rfl⟩, rfl, rfl⟩, Nat.le_of_succ_le_succ few⟩, fun _ _ => not_failed rfl⟩
  | working peer root changes manifest =>
    obtain ⟨⟨rfl, rfl⟩, rfl, rfl⟩ := expects
    rw [step_local rfl]
    cases changes with
    | nil =>
      dsimp only [syncStep]
      rw [ready.equal.1, ok_bind, refuseIf_neg (not_not.mpr rfl)]
      exact ⟨⟨[], ready, ⟨⟨rfl, rfl⟩, rfl, rfl⟩, Nat.le_of_succ_le_succ few⟩, fun _ _ => not_failed rfl⟩
    | cons ch others =>
      dsimp only [syncStep]
      cases direction : ch.toRemote with
      | true =>
        obtain ⟨data, tree, found, -, -⟩ := ready.push direction
        rw [if_pos rfl, found]
        exact ⟨⟨ch :: others, ready, ⟨⟨rfl, rfl⟩, rfl, rfl, direction, found⟩, Nat.le_of_succ_le_succ few⟩,
          fun _ _ => not_failed rfl⟩
      | false =>
        rw [if_neg Bool.false_ne_true]
        cases hasNew : ch.new with
        | some new =>
          exact ⟨⟨ch :: others, ready, ⟨⟨rfl, rfl⟩, rfl, rfl, direction, hasNew⟩, Nat.le_of_succ_le_succ few⟩,
            fun _ _ => not_failed rfl⟩
        | none =>
          obtain ⟨data, tree, found, -, -⟩ := ready.pull direction
          have nothing : data = none := by
            have same := (offered_eq_ok found).2.trans hasNew
            exact Option.map_eq_none_iff.mp same
          refine ⟨⟨ch :: others, ready, ⟨⟨rfl, rfl⟩, rfl, rfl, direction, data, found, ?_⟩, ?_⟩,
            fun _ _ => not_failed rfl⟩
          · rw [nothing]
            rfl
          · exact Nat.le_of_succ_le (Nat.le_of_succ_le_succ few)
  | offering peer root ch data others manifest =>
    obtain ⟨⟨rfl, rfl⟩, rfl, rfl, direction, found⟩ := expects
    rw [step_local rfl]
    dsimp only [syncStep]
    rw [ready.caller.authority]
    exact ⟨⟨ch :: others, ready, ⟨⟨rfl, rfl⟩, rfl, rfl, direction, found⟩, Nat.le_of_succ_le_succ few⟩,
      fun _ _ => not_failed rfl⟩
  | pushing peer root ch data others manifest =>
    obtain ⟨⟨rfl, rfl⟩, rfl, rfl, direction, found⟩ := expects
    obtain ⟨tree, served, after⟩ := ready.served_put direction found
    have answered : serve c there.host d.callee (draw ch.path) there.peer n (.put (putRequest ch data)) =
        ({ n with tree := tree }, .done (.ok ())) := by
      rw [serve, served]
    refine Underway.answered rfl (put_short_of_offered found ready.digests) answered after (fun _ => Answer.done_short)
      ⟨⟨others, after, ⟨⟨rfl, rfl⟩, rfl, rfl⟩, ?_⟩, fun _ => rfl⟩
    change 4 * others.length + 5 ≤ k
    change 4 * (others.length + 1) + 3 ≤ k + 1 at few
    omega
  | pulling peer root ch new others manifest =>
    obtain ⟨⟨rfl, rfl⟩, rfl, rfl, direction, hasNew⟩ := expects
    obtain ⟨f, found, served, text⟩ := ready.served_get direction hasNew
    obtain ⟨sent, short⟩ := get_short_of_offered found hasNew
    have answered : serve c there.host d.callee (draw "") there.peer n (.get ch.path new) =
        (n, .content (.ok (Crypto.hex f.bytes))) := by
      rw [serve, served]
    refine Underway.answered rfl sent answered ready (fun _ => short) ?_
    dsimp only [syncStep]
    rw [ok_bind, text]
    exact ⟨⟨ch :: others, ready, ⟨⟨rfl, rfl⟩, rfl, rfl, direction, some f, found, rfl⟩,
      Nat.le_of_succ_le_succ few⟩, fun _ => rfl⟩
  | placing peer root ch bytes others manifest =>
    obtain ⟨⟨rfl, rfl⟩, rfl, rfl, direction, data, found, rfl⟩ := expects
    obtain ⟨data', tree, found', applied, after⟩ := ready.pull direction
    cases found.symm.trans found'
    rw [step_local rfl]
    dsimp only [syncStep, Stage.path]
    rw [ready.caller.authority]
    dsimp only
    rw [applied]
    refine ⟨⟨others, after, ⟨⟨rfl, rfl⟩, rfl, rfl⟩, ?_⟩, fun _ _ => not_failed rfl⟩
    change 4 * others.length + 5 ≤ k
    change 4 * (others.length + 1) + 3 ≤ k + 1 at few
    omega
  | vouching peer root manifest =>
    obtain ⟨⟨rfl, rfl⟩, rfl, rfl⟩ := expects
    rw [step_local rfl]
    dsimp only [syncStep]
    rw [ready.caller.authority]
    exact ⟨⟨[], ready, ⟨⟨rfl, rfl⟩, rfl, rfl⟩, Nat.le_of_succ_le_succ few⟩, fun _ _ => not_failed rfl⟩
  | committing peer root manifest =>
    obtain ⟨⟨rfl, rfl⟩, rfl, rfl⟩ := expects
    obtain ⟨served, after, recorded⟩ := ready.served_commit calm.2
    have answered : serve c there.host d.callee (draw "") there.peer n (.commit manifest) =
        ({ n with store := (record c d.callee there.peer.ownerPk manifest n.store).1 },
          .done (record c d.callee there.peer.ownerPk manifest n.store).2) := by
      rw [serve, served]
    refine Underway.answered rfl (Request.commit_short ready.closing) answered after (fun smooth => ?_) ?_
    · rw [smooth.commits _ _ _ rfl]
      exact Answer.done_short
    · dsimp only [syncStep]
      cases saved : (record c d.callee there.peer.ownerPk manifest n.store).2 with
      | error e =>
        refine ⟨⟨[], after, by simp [proceed, Expects], Nat.zero_le _⟩, fun smooth => ?_⟩
        have := smooth.commits _ _ _ rfl
        rw [saved] at this
        cases this
      | ok done =>
        exact ⟨⟨[], after, ⟨⟨rfl, rfl⟩, rfl, rfl, recorded saved⟩, Nat.le_of_succ_le_succ few⟩, fun _ => rfl⟩
  | rescanning peer root manifest =>
    obtain ⟨⟨rfl, rfl⟩, rfl, rfl, other⟩ := expects
    rw [step_local rfl]
    dsimp only [syncStep]
    rw [ready.equal.1, ok_bind, refuseIf_neg (not_not.mpr rfl)]
    exact ⟨⟨[], ready, ⟨⟨rfl, rfl⟩, rfl, rfl, other⟩, Nat.le_of_succ_le_succ few⟩, fun _ _ => not_failed rfl⟩
  | recording peer root manifest =>
    obtain ⟨⟨rfl, rfl⟩, rfl, rfl, other⟩ := expects
    obtain ⟨after, recorded⟩ := ready.recorded calm.1
    rw [step_local rfl]
    dsimp only [syncStep]
    rw [ready.caller.authority]
    refine ⟨⟨[], after, fun done => ⟨rfl, recorded done, other⟩, Nat.zero_le _⟩, fun smooth _ => ?_⟩
    rintro ⟨e, failed⟩
    have saved := smooth.records _ _ _ rfl
    dsimp only at failed
    rw [saved] at failed
    cases failed
  | ended result =>
    rw [step_local rfl]
    exact ⟨⟨rest, ready, expects, Nat.zero_le _⟩, fun _ going => going⟩

/-! ## Runs -/

theorem Underway.mono {k' : ℕ} (underway : Underway c here there draw merged k call) (more : k ≤ k') :
    Underway c here there draw merged k' call := by
  obtain ⟨rest, ready, expects, few⟩ := underway
  exact ⟨rest, ready, expects, few.trans more⟩

theorem Underway.run (underway : Underway c here there draw merged (deliveries.length + k) call)
    (calm : ∀ d ∈ deliveries, d.Calm) : Underway c here there draw merged k (call.run c here there draw deliveries) := by
  induction deliveries generalizing call with
  | nil => exact underway.mono (by simp)
  | cons d rest ih =>
    obtain ⟨first, others⟩ := List.forall_mem_cons.mp calm
    rw [List.length_cons, Nat.add_right_comm] at underway
    exact ih (underway.step first).1 others

/-- A run in which every answer arrives and everything can be saved. -/
def SmoothRun (c : Crypto) (here there : Side) (draw : String → Ids) : Call → List Delivery → Prop
  | _, [] => True
  | call, d :: rest => d.Calm ∧ Smooth c here there d call ∧
    SmoothRun c here there draw (call.step c here there draw d) rest

theorem SmoothRun.calm (smooth : SmoothRun c here there draw call deliveries) : ∀ d ∈ deliveries, d.Calm := by
  induction deliveries generalizing call with
  | nil => exact List.forall_mem_nil _
  | cons d rest ih => exact List.forall_mem_cons.mpr ⟨smooth.1, ih smooth.2.2⟩

theorem Underway.going (underway : Underway c here there draw merged (deliveries.length + k) call)
    (smooth : SmoothRun c here there draw call deliveries) (going : ¬call.Failed) :
    ¬(call.run c here there draw deliveries).Failed := by
  induction deliveries generalizing call with
  | nil => exact going
  | cons d rest ih =>
    rw [List.length_cons, Nat.add_right_comm] at underway
    obtain ⟨calm, first, others⟩ := smooth
    obtain ⟨after, unfailed⟩ := underway.step calm
    exact ih after others (unfailed first going)

/-- A session that ended well: both trees and both baselines are the merge. -/
structure Finished (c : Crypto) (here there : Side) (merged : Manifest) (call : Call) : Prop where
  ended : call.stage = .ended (.ok ())
  caller : scan c call.caller.tree = .ok merged
  callee : scan c call.callee.tree = .ok merged
  callerBaseline : call.caller.store.pinIndex.peers.get? (key here.peer.ownerPk) = some merged
  calleeBaseline : call.callee.store.pinIndex.peers.get? (key there.peer.ownerPk) = some merged

theorem Underway.finished (underway : Underway c here there draw merged 0 call) (going : ¬call.Failed) :
    Finished c here there merged call := by
  obtain ⟨rest, ready, expects, few⟩ := underway
  obtain ⟨stage, m, n⟩ := call
  cases stage with
  | ended result =>
    rcases result with e | ⟨⟨⟩⟩
    · exact absurd ⟨e, rfl⟩ going
    · obtain ⟨rfl, caller, callee⟩ := expects rfl
      exact ⟨rfl, ready.equal.1, ready.equal.2, caller, callee⟩
  | _ => exact absurd few (by simp [Stage.remaining])

/-- A session between two machines is planned without a conflict and with a given merge. While no answer is
lost and everything can be saved it does not fail, and after enough steps both trees and both baselines are
the merge. -/
structure Resumes (c : Crypto) (here there : Side) (draw : String → Ids) (merged : Manifest) (m n : Machine) :
    Prop where
  planned : ∃ af bf rest, scan c m.tree = .ok af ∧ scan c n.tree = .ok bf ∧
    syncPlan (baseline m.store here.peer.ownerPk) af ⟨bf, baseline n.store there.peer.ownerPk⟩ m.store.bodyName
      here.peer.name.name = .ok (rest, merged)
  going : ∀ deliveries, SmoothRun c here there draw (.start here.peer.name.name m n) deliveries →
    ¬((Call.start here.peer.name.name m n).run c here there draw deliveries).Failed
  ends : ∃ steps, ∀ deliveries, SmoothRun c here there draw (.start here.peer.name.name m n) deliveries →
    steps ≤ deliveries.length →
    Finished c here there merged ((Call.start here.peer.name.name m n).run c here there draw deliveries)

theorem Ready.start (ready : Ready c here there draw m n rest merged) :
    Underway c here there draw merged (4 * rest.length + 9) (.start here.peer.name.name m n) :=
  ⟨rest, ready, rfl, le_rfl⟩

theorem Ready.resumes (ready : Ready c here there draw m n rest merged) :
    Resumes c here there draw merged m n where
  planned := by
    obtain ⟨af, bf, base, scannedA, scannedB, common, planned⟩ := ready.planned
    exact ⟨af, bf, rest, scannedA, scannedB, by rw [syncPlan, common, ok_bind, planned]⟩
  going deliveries smooth :=
    (ready.start.mono (Nat.le_add_left _ _)).going smooth (not_failed rfl)
  ends := by
    refine ⟨4 * rest.length + 9, fun deliveries smooth enough => ?_⟩
    have underway : Underway c here there draw merged (deliveries.length + 0) _ := ready.start.mono enough
    exact (underway.run smooth.calm).finished (underway.going smooth (not_failed rfl))

/-! ## A session does what a local synchronization does -/

theorem not_silent {answer : Answer} (short : answer.text.length ≤ Limits.meshFrameBytes) :
    ¬Delivery.Silent ⟨false, w, w⟩ answer := by
  rintro (lost | long)
  · cases lost
  · exact absurd short (not_le.mpr long)

end Clix.Pin
