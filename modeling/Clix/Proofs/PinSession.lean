import Clix.Model.PinSession
import Clix.Proofs.PinApply
import Clix.Proofs.Frame

/-! # What the steps of a session may change

An update of the state keeps everything but what its edit changes and what is published. The only steps
that touch the live tree are a served write and the two local applications; the only ones that touch the
baselines are a served commit and the record that ends a synchronization.
-/

namespace Clix

open Except

/-- Two states with the same owner, peers, grants and pin switch. -/
structure Store.SameOwner (s t : Store) : Prop where
  bodyName : t.bodyName = s.bodyName
  ownerSk : t.ownerSk = s.ownerSk
  peers : t.peers = s.peers
  grants : t.grants = s.grants
  pinEnabled : t.pinEnabled = s.pinEnabled

namespace Store

variable {c : Crypto} {α : Type} {epochId : Result String} {s next : Store} {value : α}
  {edit : Store → Result (Store × α)}

theorem SameOwner.refl (s : Store) : s.SameOwner s := ⟨rfl, rfl, rfl, rfl, rfl⟩

theorem SameOwner.trans {s t u : Store} (first : s.SameOwner t) (second : t.SameOwner u) : s.SameOwner u :=
  ⟨second.bodyName.trans first.bodyName, second.ownerSk.trans first.ownerSk, second.peers.trans first.peers,
    second.grants.trans first.grants, second.pinEnabled.trans first.pinEnabled⟩

/-- The pin state an update saves is the one its edit made. -/
theorem stage_pin (success : stage c epochId s edit = .ok (next, value)) :
    ∃ edited, edit s = .ok (edited, value) ∧ edited.SameOwner next ∧ next.pinIndex = edited.pinIndex ∧
      next.writeError = edited.writeError := by
  obtain ⟨-, edited, refreshed, ran, published, fits, -, -⟩ := stage_eq_ok success
  have one := History.refreshOwned_samePublished published
  have two := History.normalizeOutput_samePruned { refreshed with formatVersion := formatVersionNow }
  have three := Storage.evict_samePruned (Storage.prepare_eq_ok fits).2.1
  have pruned := two.trans three
  refine ⟨edited, ran, ⟨?_, ?_, ?_, ?_, ?_⟩, ?_, ?_⟩ <;> rw [pruned.frame] <;> dsimp only <;> rw [one]

end Store

namespace Pin

variable {c : Crypto} {host : Host} {w : Weather} {ids : Ids} {answer : Answer} {s t : Store} {m m' : Machine}
  {pk : Bytes} {manifest : Manifest} {result : Result Unit} {edit : Store → Result (Store × Unit)}
  {peer : Peer} {stage stage' : Stage} {enabled : Bool}

/-- An update that fails keeps the pin state; one that returns saves what its edit made. -/
theorem updateStore_cases (ran : updateStore c w s edit = (t, result)) :
    (result ≠ .ok () ∧ s.SameOwner t ∧ t.pinIndex = s.pinIndex) ∨
    ∃ edited, edit s = .ok (edited, ()) ∧ result = .ok () ∧ edited.SameOwner t ∧ t.pinIndex = edited.pinIndex ∧
      t.writeError = edited.writeError := by
  rw [updateStore] at ran
  split at ran
  · cases ran
    exact .inl ⟨by simp, .refl _, rfl⟩
  · next next value staged =>
    split at ran
    · cases ran
      obtain ⟨edited, made, same, index, error⟩ := Store.stage_pin staged
      exact .inr ⟨edited, made, rfl, same, index, error⟩
    · cases ran
      exact .inl ⟨by simp, ⟨rfl, rfl, rfl, rfl, rfl⟩, rfl⟩

theorem record_cases (ran : record c w pk manifest s = (t, result)) : s.SameOwner t ∧
    ((result ≠ .ok () ∧ t.pinIndex = s.pinIndex) ∨
    (result = .ok () ∧ t.pinIndex.peers = s.pinIndex.peers.insert (key pk) manifest ∧
      t.writeError = s.writeError)) := by
  rcases updateStore_cases ran with ⟨failed, same, index⟩ | ⟨edited, made, rfl, same, index, error⟩
  · exact ⟨same, .inl ⟨failed, index⟩⟩
  · cases made
    exact ⟨⟨same.bodyName, same.ownerSk, same.peers, same.grants, same.pinEnabled⟩,
      .inr ⟨rfl, by rw [index], error⟩⟩

theorem switchPin_cases (ran : switchPin c w enabled s = (t, result)) : t.pinIndex = s.pinIndex ∧
    (t.pinEnabled = s.pinEnabled ∨ t.pinEnabled = enabled) := by
  rcases updateStore_cases ran with ⟨-, same, index⟩ | ⟨edited, made, rfl, same, index, -⟩
  · exact ⟨index, .inl same.pinEnabled⟩
  · cases made
    exact ⟨index, .inr same.pinEnabled⟩

/-- Neither the live tree nor a baseline has changed. -/
structure Kept (m m' : Machine) : Prop where
  live : m'.tree.live = m.tree.live
  baselines : m'.store.pinIndex.peers = m.store.pinIndex.peers

theorem Kept.refl (m : Machine) : Kept m m := ⟨rfl, rfl⟩

theorem ensureEnabled_eq_ok : ensureEnabled s = .ok () ↔ s.pinEnabled = true := by
  rw [ensureEnabled, refuseIf_eq_ok, Bool.not_eq_false]

/-- While pin is off, nothing is served. -/
theorem serve_of_off (c : Crypto) (host : Host) (w : Weather) (ids : Ids) (peer : Peer) (request : Request)
    (off : m.store.pinEnabled = false) : (serve c host w ids peer m request).1 = m := by
  have refused : ∃ e, ensureEnabled m.store = .error e := ⟨_, by rw [ensureEnabled, refuseIf, if_pos off]⟩
  obtain ⟨e, refused⟩ := refused
  cases request with
  | list => rfl
  | get path expected => rfl
  | put request =>
    rw [serve, rpcPut, putChecks, refused]
    rfl
  | commit manifest =>
    rw [serve, rpcCommit, refused]
    rfl

/-- Serving a request keeps the owner's side of the state. -/
theorem serve_sameOwner {request : Request} : m.store.SameOwner (serve c host w ids peer m request).1.store := by
  cases request with
  | list => exact .refl _
  | get path expected => exact .refl _
  | put request =>
    change m.store.SameOwner (rpcPut c host ids peer request m).1.store
    rw [rpcPut]
    split <;> exact .refl _
  | commit manifest =>
    change m.store.SameOwner (rpcCommit c w peer manifest m).1.store
    rw [rpcCommit]
    split
    · exact .refl _
    · exact (record_cases rfl).1

/-! ## Content as text -/

theorem digit?_hexChar : ∀ n < 16, digit? (Crypto.hexChar n) = some n := by decide

theorem digitPairs_hex (bytes : Bytes) : digitPairs (Crypto.hex bytes).toList = .ok bytes := by
  rw [Crypto.hex, String.toList_ofList]
  induction bytes with
  | nil => rfl
  | cons b rest ih =>
    have bound := b.toNat_lt
    rw [List.flatMap_cons, List.cons_append, List.cons_append, List.nil_append, digitPairs,
      digit?_hexChar _ (by omega), digit?_hexChar _ (by omega), ih]
    have value : b.toNat / 16 * 16 + b.toNat % 16 = b.toNat := by omega
    simp only [ok_bind, value]
    rw [Nat.toUInt8, UInt8.ofNat_toNat]
    rfl

/-- Content survives its way over the network. -/
theorem unhex_hex {bytes : Bytes} (small : bytes.length ≤ maxFile) : unhex (Crypto.hex bytes) = .ok bytes := by
  rw [unhex, refuseIf_neg, ok_bind, digitPairs_hex]
  rw [Crypto.utf8ByteSize_hex]
  omega

end Pin

end Clix
