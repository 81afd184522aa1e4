import Clix.Proofs.PinSession
import Clix.Soundness.PinConflicts

/-! # The receiver's gate

A served write is compared with the receiver's own baseline, which is looked up under the path as the
request spells it, while the write goes to the place that path leads to. The two agree whenever the baseline
has the same value under the plain spelling; otherwise a deletion at the receiver can be undone. The changes
an honest initiator plans pass the gate in any order.
-/

namespace Clix.Pin

open Except

variable {c : Crypto} {host : Host} {ids : Ids} {m m' : Machine} {peer : Peer} {request : PutRequest}
  {rel : String} {path : List String} {ch ch' : Change} {bytes : Option Bytes} {data : Option File}
  {own loc merged : Manifest} {remote listing : Listing} {changes : List Change} {localName : String}
  {result : Result Unit}

/-- The plain spelling of the place a path leads to. -/
def plain (rel : String) : String := join (place rel)

/-- A write that passes its checks asks for a change from the recorded baseline. -/
theorem putChecks_eq_ok (checked : putChecks m.store peer request = .ok (ch, bytes)) :
    request.path = some ch.path ∧ request.new = some ch.new ∧ validPath ch.path = .ok () ∧
      (baseline m.store peer.ownerPk).get? ch.path = ch.expected := by
  rw [putChecks, bind_eq_ok] at checked
  obtain ⟨⟨⟩, -, checked⟩ := checked
  split at checked
  · cases checked
  · cases checked
  · cases checked
  · next path expected new hasPath hasExpected hasNew =>
    rw [bind_eq_ok] at checked
    obtain ⟨⟨⟩, valid, checked⟩ := checked
    rw [refuseIf_bind_eq_ok, not_not] at checked
    obtain ⟨recorded, checked⟩ := checked
    split at checked
    · cases checked
      exact ⟨hasPath, hasNew, valid, recorded⟩
    · rw [bind_eq_ok] at checked
      obtain ⟨content, -, checked⟩ := checked
      cases checked
      exact ⟨hasPath, hasNew, valid, recorded⟩

theorem rpcPut_store : (rpcPut c host ids peer request m).1.store = m.store := by
  rw [rpcPut]
  split <;> rfl

/-- A live file that a served write changes was the recorded baseline, as the request spells its path. -/
theorem rpcPut_changed
    (changed : (rpcPut c host ids peer request m).1.tree.live.file? path ≠ m.tree.live.file? path) :
    ∃ rel new, request.path = some rel ∧ request.new = some new ∧ path = place rel ∧
      (m.tree.live.file? path).map (·.fingerprint c) = (baseline m.store peer.ownerPk).get? rel ∧
      ((rpcPut c host ids peer request m).1.tree.live.file? path).map (·.fingerprint c) = new ∧
      ∀ other ≠ path, (rpcPut c host ids peer request m).1.tree.live.file? other = m.tree.live.file? other := by
  rw [rpcPut] at changed ⊢
  split at changed
  · exact absurd rfl changed
  · next ch bytes checked =>
    obtain ⟨hasPath, hasNew, -, recorded⟩ := putChecks_eq_ok checked
    dsimp only at changed ⊢
    generalize applied : apply c host m.store ch bytes ids m.tree = outcome at changed ⊢
    obtain ⟨result, t'⟩ := outcome
    rcases apply_cases applied with ⟨-, grows⟩ | ⟨-, rfl, -⟩ | ⟨current, effect⟩
    · exact absurd (grows.file? path) changed
    · exact absurd rfl changed
    · by_cases here : path = place ch.path
      · subst here
        exact ⟨ch.path, ch.new, hasPath, hasNew, rfl, by rw [effect.before, recorded], effect.after,
          fun other differs => effect.others differs⟩
      · exact absurd (effect.others here) changed

/-- What the gate promises of a write that changed the live file at a path: the receiver had it as in its own
baseline, it is now as requested, and nothing else has changed. -/
structure GateHeld (c : Crypto) (peer : Peer) (rel : String) (new : Option Fingerprint) (m m' : Machine) : Prop where
  recorded : (m.tree.live.file? (place rel)).map (·.fingerprint c) =
    (baseline m.store peer.ownerPk).get? (plain rel)
  written : (m'.tree.live.file? (place rel)).map (·.fingerprint c) = new
  others : ∀ path ≠ place rel, m'.tree.live.file? path = m.tree.live.file? path

/-! ## An honest initiator -/

/-- A planned change of the peer goes from what the peer has and last agreed on. -/
theorem syncPlan_toRemote (planned : syncPlan own loc remote localName peer.name.name = .ok (changes, merged))
    (member : ch ∈ changes) (toRemote : ch.toRemote = true) :
    validPath ch.path = .ok () ∧ remote.files.get? ch.path = ch.expected ∧
      remote.baseline.get? ch.path = ch.expected ∧ loc.get? ch.path = ch.new ∧ ch.expected ≠ ch.new := by
  rw [syncPlan, bind_eq_ok] at planned
  obtain ⟨base, common, planned⟩ := planned
  obtain ⟨plannable, rfl, -⟩ := plan_eq_ok.mp planned
  obtain ⟨path, listed, changed⟩ := List.mem_filterMap.mp member
  obtain ⟨valid, agree⟩ := plannable path listed
  rw [changeFor, changeAt] at changed
  split_ifs at changed with same kept
  · cases changed
    cases toRemote
  · cases changed
    dsimp only
    have fromBase := (agree.resolve_left same).resolve_left kept
    rcases commonBaseline_eq_ok.mp common with ⟨agreed, rfl⟩ | ⟨-, equal, -⟩
    · exact ⟨valid, rfl, by rw [← agreed, fromBase], rfl, Ne.symm same⟩
    · exact absurd (by rw [equal]) same

/-- A path has at most one change. -/
theorem syncPlan_unique (planned : syncPlan own loc remote localName peer.name.name = .ok (changes, merged))
    (member : ch ∈ changes) (member' : ch' ∈ changes) (same : ch'.path = ch.path) : ch' = ch := by
  rw [syncPlan, bind_eq_ok] at planned
  obtain ⟨base, -, planned⟩ := planned
  obtain ⟨-, rfl, -⟩ := plan_eq_ok.mp planned
  have own {ch : Change} (member : ch ∈ (paths [loc, remote.files, base]).filterMap
      (changeFor loc remote.files base)) : changeFor loc remote.files base ch.path = some ch := by
    obtain ⟨path, -, changed⟩ := List.mem_filterMap.mp member
    have named : ch.path = path := by
      rw [changeFor, changeAt] at changed
      split_ifs at changed <;> cases changed <;> rfl
    rw [named, changed]
  have both := own member'
  rw [same, own member] at both
  exact (Option.some.inj both).symm

theorem withoutExcluded_get?_of_kept {manifest : Manifest} (kept : excluded rel = false) :
    (withoutExcluded manifest).get? rel = manifest.get? rel := by
  rw [withoutExcluded, OrdMap.get?_restrict, kept]
  rfl

/-- The parts of a validated listing are the served ones at every path that is not excluded. -/
theorem validateListing_get? (validated : validateListing listing = .ok remote) :
    remote = ⟨withoutExcluded listing.files, withoutExcluded listing.baseline⟩ := by
  rw [validateListing, refuseIf_bind_eq_ok] at validated
  obtain ⟨-, validated⟩ := validated
  dsimp only at validated
  rw [bind_eq_ok] at validated
  obtain ⟨⟨⟩, -, validated⟩ := validated
  cases validated
  rfl

theorem rpcList_eq_ok (listed : rpcList c m peer = .ok listing) : m.store.pinEnabled = true ∧
    scan c m.tree = .ok listing.files ∧ listing.baseline = baseline m.store peer.ownerPk := by
  rw [rpcList, bind_eq_ok] at listed
  obtain ⟨⟨⟩, enabled, listed⟩ := listed
  rw [bind_eq_ok] at listed
  obtain ⟨files, scanned, listed⟩ := listed
  cases listed
  exact ⟨ensureEnabled_eq_ok.mp enabled, scanned, rfl⟩

/-- The requests an initiator sends for some changes. -/
structure Sent where
  ch : Change
  data : Option File
  ids : Ids

/-- The receiver after some requests. -/
def served (c : Crypto) (host : Host) (peer : Peer) (m : Machine) (sent : List Sent) : Machine :=
  sent.foldl (fun m s => (rpcPut c host s.ids peer (putRequest s.ch s.data) m).1) m

theorem served_store {sent : List Sent} : (served c host peer m sent).store = m.store := by
  induction sent generalizing m with
  | nil => rfl
  | cons s rest ih => exact (ih (m := (rpcPut c host s.ids peer (putRequest s.ch s.data) m).1)).trans rpcPut_store

/-- A session that was planned over what the receiver listed. -/
structure Honest (c : Crypto) (m : Machine) (peer : Peer) (a : Tree) (own : Manifest) (localName : String)
    (changes : List Change) (merged : Manifest) : Prop where
  plan : ∃ loc listing remote, scan c a = .ok loc ∧ rpcList c m peer = .ok listing ∧
    validateListing listing = .ok remote ∧
    syncPlan own loc remote localName peer.name.name = .ok (changes, merged)

namespace Honest

variable {a : Tree}

theorem facts (honest : Honest c m peer a own localName changes merged) (member : ch ∈ changes)
    (toRemote : ch.toRemote = true) : m.store.pinEnabled = true ∧ validPath ch.path = .ok () ∧
      place ch.path = parts ch.path ∧ ch.expected ≠ ch.new ∧
      (m.tree.live.file? (place ch.path)).map (·.fingerprint c) = ch.expected ∧
      (baseline m.store peer.ownerPk).get? ch.path = ch.expected := by
  obtain ⟨loc, listing, remote, scanned, listed, validated, planned⟩ := honest.plan
  obtain ⟨on, scannedRemote, served⟩ := rpcList_eq_ok listed
  obtain ⟨valid, inFiles, inBaseline, new, differs⟩ := syncPlan_toRemote planned member toRemote
  have kept := (validPath_eq_ok.mp valid).2.2
  have remote_eq := validateListing_get? validated
  rw [remote_eq, withoutExcluded_get?_of_kept kept] at inFiles inBaseline
  -- A changed path is in one of the two scans.
  have plainly : place ch.path = parts ch.path := by
    by_cases absent : ch.new = none
    · exact (scan_path scannedRemote (by rw [inFiles, ← absent]; exact differs)).2.1
    · exact (scan_path scanned (by rw [new]; exact absent)).2.1
  refine ⟨on, valid, plainly, differs, ?_, ?_⟩
  · rw [← scan_get? scannedRemote plainly kept, inFiles]
  · rw [← served, inBaseline]

/-- In any order and however often the changes were sent, each is at its old value or its new one. -/
theorem pending (honest : Honest c m peer a own localName changes merged) {sent : List Sent}
    (sending : ∀ s ∈ sent, s.ch ∈ changes ∧ s.ch.toRemote = true) (member : ch ∈ changes)
    (toRemote : ch.toRemote = true) :
    ((served c host peer m sent).tree.live.file? (place ch.path)).map (·.fingerprint c) = ch.new ∨
      ((served c host peer m sent).tree.live.file? (place ch.path)).map (·.fingerprint c) = ch.expected := by
  induction sent using List.reverseRecOn with
  | nil => exact .inr (honest.facts member toRemote).2.2.2.2.1
  | append_singleton sent s ih =>
    have before := ih (fun s member => sending s (List.mem_append_left _ member))
    obtain ⟨sentMember, sentToRemote⟩ := sending s (List.mem_append_right _ List.mem_cons_self)
    rw [served, List.foldl_append, List.foldl_cons, List.foldl_nil]
    by_cases same : (rpcPut c host s.ids peer (putRequest s.ch s.data) (served c host peer m sent)).1.tree.live.file?
        (place ch.path) = (served c host peer m sent).tree.live.file? (place ch.path)
    · exact same ▸ before
    · obtain ⟨rel, new, hasPath, hasNew, here, -, written, -⟩ := rpcPut_changed same
      cases hasPath
      cases hasNew
      obtain ⟨loc, listing, remote, -, -, -, planned⟩ := honest.plan
      have path_eq : s.ch.path = ch.path := by
        rw [← join_parts s.ch.path, ← join_parts ch.path, ← (honest.facts sentMember sentToRemote).2.2.1,
          ← (honest.facts member toRemote).2.2.1, here]
      rw [← syncPlan_unique planned member sentMember path_eq]
      exact .inl (syncPlan_unique planned member sentMember path_eq ▸ written)

/-- The gate lets every planned change pass. -/
theorem accepted (honest : Honest c m peer a own localName changes merged) {sent : List Sent}
    (member : ch ∈ changes) (toRemote : ch.toRemote = true) (small : ∀ f, data = some f → f.bytes.length ≤ maxFile) :
    putChecks (served c host peer m sent).store peer (putRequest ch data) =
      .ok (⟨ch.path, ch.expected, ch.new, false⟩, data.map (·.bytes)) := by
  obtain ⟨on, valid, -, -, -, recorded⟩ := honest.facts member toRemote
  rw [served_store, putChecks, ensureEnabled_eq_ok.mpr on, ok_bind, putRequest]
  dsimp only
  rw [valid, ok_bind, refuseIf_neg (not_not.mpr recorded), ok_bind]
  cases data with
  | none => rfl
  | some f =>
    dsimp only [Option.map_some]
    rw [unhex_hex (small f rfl)]
    rfl

end Honest

/-! ## The gate -/

/-- A served write that changes a live file holds what the gate promises exactly when the receiver's baseline
has the same value under the path as the request spells it and under its plain spelling. Every change of an
honest plan passes the gate and finds its old or its new value, in whatever order the changes are sent. -/
theorem put_gate (c : Crypto) (host : Host) :
    (∀ (m : Machine) (peer : Peer) (request : PutRequest) (ids : Ids) (path : List String),
      (rpcPut c host ids peer request m).1.tree.live.file? path ≠ m.tree.live.file? path →
      ∃ rel new, request.path = some rel ∧ request.new = some new ∧ path = place rel ∧
        (GateHeld c peer rel new m (rpcPut c host ids peer request m).1 ↔
          (baseline m.store peer.ownerPk).get? rel = (baseline m.store peer.ownerPk).get? (plain rel))) ∧
    (∀ (m : Machine) (peer : Peer) (a : Tree) (own : Manifest) (localName : String) (changes : List Change)
      (merged : Manifest), Honest c m peer a own localName changes merged →
      ∀ sent : List Sent, (∀ s ∈ sent, s.ch ∈ changes ∧ s.ch.toRemote = true) →
      ∀ ch ∈ changes, ch.toRemote = true → ∀ data : Option File,
        (∀ f, data = some f → f.bytes.length ≤ maxFile) →
        putChecks (served c host peer m sent).store peer (putRequest ch data) =
          .ok (⟨ch.path, ch.expected, ch.new, false⟩, data.map (·.bytes)) ∧
        (((served c host peer m sent).tree.live.file? (place ch.path)).map (·.fingerprint c) = ch.new ∨
          ((served c host peer m sent).tree.live.file? (place ch.path)).map (·.fingerprint c) = ch.expected)) := by
  refine ⟨fun m peer request ids path changed => ?_, ?_⟩
  · obtain ⟨rel, new, hasPath, hasNew, rfl, recorded, written, others⟩ := rpcPut_changed changed
    refine ⟨rel, new, hasPath, hasNew, rfl, fun held => ?_, fun same => ?_⟩
    · rw [← recorded, held.recorded]
    · exact ⟨by rw [recorded, same], written, others⟩
  · intro m peer a own localName changes merged honest sent sending ch member toRemote data small
    exact ⟨honest.accepted member toRemote small, honest.pending sending member toRemote⟩

namespace GateExample

def bobHost : Host where
  root := ["home", "bob", "src"]
  canonicalize _ _ := none
  absolute binary := .ok (place binary)
  hasRecovery := false

def alice : Peer := ⟨⟨"alice"⟩, List.replicate 32 1, none⟩

def agreed : Fingerprint := fingerprint Crypto.transparent [104] 0o644

/-- A receiver that last agreed with the peer on one file and has deleted it since. -/
def bob : Machine where
  store := { Store.first Crypto.transparent "epoch" "bob" (List.replicate 32 2) with
    pinEnabled := true
    peers := [alice]
    pinIndex := { PinIndex.default with
      peers := (∅ : OrdMap String Manifest).insert (key alice.ownerPk) ((∅ : Manifest).insert "a/b" agreed) } }
  root := "src"
  tree := ⟨Live.empty, ∅⟩

/-- The peer spells the path of the deleted file with a dot, and says that nothing should be there. -/
def respelled : PutRequest := ⟨some "a/./b", some none, some (some agreed), some "68"⟩

def bobAfter : Machine := (rpcPut Crypto.transparent bobHost ⟨"v1", "t1", "t2"⟩ alice respelled bob).1

/-- The deleted file is live again, though the receiver's baseline still has it. -/
theorem deletion_undone : bobAfter.tree.live.file? ["a", "b"] ≠ bob.tree.live.file? ["a", "b"] ∧
    ¬GateHeld Crypto.transparent alice "a/./b" (some agreed) bob bobAfter := by
  have changed : bobAfter.tree.live.file? ["a", "b"] ≠ bob.tree.live.file? ["a", "b"] := by decide
  have recorded : (bob.tree.live.file? (place "a/./b")).map (·.fingerprint Crypto.transparent) ≠
      (baseline bob.store alice.ownerPk).get? (plain "a/./b") := by decide
  exact ⟨changed, fun held => recorded held.recorded⟩

/-- The peer's tree: the file both agreed on, and a new one. -/
def offering : Tree where
  live := ((Live.empty.put [] "a" .dir (by decide)).put ["a"] "b" (.file ⟨[104], 0o644⟩) (by decide)).put [] "c"
    (.file ⟨[105], 0o644⟩) (by decide)
  saved := ∅

def fresh : Fingerprint := fingerprint Crypto.transparent [105] 0o644

/-- The peer takes the deletion over, and offers its new file. -/
def planned : List Change := [⟨"a/b", some agreed, none, false⟩, ⟨"c", none, some fresh, true⟩]

theorem bob_listed : rpcList Crypto.transparent bob alice =
    .ok ⟨∅, (∅ : Manifest).insert "a/b" agreed⟩ := by decide

theorem honest : Honest Crypto.transparent bob alice offering ((∅ : Manifest).insert "a/b" agreed) "alice" planned
    ((∅ : Manifest).insert "c" fresh) where
  plan := ⟨((∅ : Manifest).insert "a/b" agreed).insert "c" fresh, ⟨∅, (∅ : Manifest).insert "a/b" agreed⟩,
    ⟨∅, (∅ : Manifest).insert "a/b" agreed⟩, by decide, bob_listed, by decide, by decide⟩

def sent : Sent := ⟨⟨"c", none, some fresh, true⟩, some ⟨[105], 0o644⟩, ⟨"v1", "t1", "t2"⟩⟩

/-- The new file passes the gate, also when it is offered once more. -/
theorem offer_accepted :
    let later := served Crypto.transparent bobHost alice bob [sent]
    putChecks later.store alice (putRequest sent.ch sent.data) = .ok (⟨"c", none, some fresh, false⟩, some [105]) ∧
      ((later.tree.live.file? (place "c")).map (·.fingerprint Crypto.transparent) = some fresh ∨
        (later.tree.live.file? (place "c")).map (·.fingerprint Crypto.transparent) = none) :=
  (put_gate Crypto.transparent bobHost).2 bob alice offering _ "alice" planned _ honest [sent]
    (by decide) sent.ch (by decide) rfl (some ⟨[105], 0o644⟩) (by
      intro f same
      cases same
      decide)

end GateExample

end Clix.Pin
