import Clix.Proofs.Reachable
import Clix.Proofs.Records

/-! # What names and keys stand for

In a valid store no two machines share a name or a key, so either may be looked up first. Pairing another machine
changes nothing that a name stood for.
-/

namespace Clix

open Except

/-- Each name and each key is that of one machine. -/
structure Store.Identified (c : Crypto) (s : Store) : Prop where
  names : (s.peers.map (·.name)).Nodup
  keys : (s.peers.map (·.ownerPk)).Nodup
  ownName : ∀ p ∈ s.peers, p.name.name ≠ s.bodyName
  ownKey : ∀ p ∈ s.peers, p.ownerPk ≠ c.verifyingKey s.ownerSk

namespace Store.Identified

variable {c : Crypto} {s : Store}

theorem eq_of_key (identified : s.Identified c) {p q : Peer} (first : p ∈ s.peers) (second : q ∈ s.peers)
    (same : p.ownerPk = q.ownerPk) : p = q := List.inj_on_of_nodup_map identified.keys first second same

theorem eq_of_name (identified : s.Identified c) {p q : Peer} (first : p ∈ s.peers) (second : q ∈ s.peers)
    (same : p.name = q.name) : p = q := List.inj_on_of_nodup_map identified.names first second same

/-- The name of a peer stands for its key. -/
theorem knownKey (identified : s.Identified c) {p : Peer} (member : p ∈ s.peers) :
    History.knownKey c s p.name = .ok p.ownerPk := by
  rw [History.knownKey, if_neg (identified.ownName p member)]
  cases found : s.peer? p.name with
  | none =>
    rw [Store.peer?, List.find?_eq_none] at found
    exact absurd (beq_self_eq_true p.name) (found p member)
  | some q =>
    have named : q.name = p.name := by simpa using List.find?_some found
    rw [identified.eq_of_name (List.mem_of_find?_eq_some found) member named]

/-- Whoever connects with the key that a name stands for is the peer of that name. -/
theorem name_eq_iff (identified : s.Identified c) {key : Bytes} {p : Peer}
    (connected : s.peers.find? (fun q => q.ownerPk == key) = some p) (name : BodyId) :
    History.knownKey c s name = .ok key ↔ name = p.name := by
  have member := List.mem_of_find?_eq_some connected
  obtain rfl : p.ownerPk = key := by simpa using List.find?_some connected
  constructor
  · intro known
    rw [History.knownKey] at known
    split_ifs at known with own
    · rw [History.publicKey, bind_eq_ok] at known
      obtain ⟨seed, signing, known⟩ := known
      rw [History.signingKey, refuseIf_bind_eq_ok] at signing
      cases signing.2
      exact absurd (Except.ok.inj known).symm (identified.ownKey p member)
    · cases found : s.peer? name with
      | none =>
        rw [found] at known
        cases known
      | some q =>
        rw [found] at known
        have named : q.name = name := by simpa using List.find?_some found
        rw [← named, identified.eq_of_key (List.mem_of_find?_eq_some found) member (Except.ok.inj known)]
  · rintro rfl
    exact identified.knownKey member

end Store.Identified

namespace Pair

variable {c : Crypto} {s t : Store}

theorem validatePeers_distinct {bodyName : String} {localPk : Bytes} {names : List BodyId} {keys : List Bytes}
    {peers : List Peer} (valid : validatePeers c bodyName localPk names keys peers = .ok ()) :
    (peers.map (·.name)).Nodup ∧ (peers.map (·.ownerPk)).Nodup ∧
      ∀ p ∈ peers, p.name ∉ names ∧ p.ownerPk ∉ keys ∧ p.name.name ≠ bodyName ∧ p.ownerPk ≠ localPk := by
  induction peers generalizing names keys with
  | nil => exact ⟨List.nodup_nil, List.nodup_nil, fun p member => absurd member List.not_mem_nil⟩
  | cons head rest ih =>
    rw [validatePeers, bind_eq_ok] at valid
    obtain ⟨⟨⟩, -, valid⟩ := valid
    rw [refuseIf_bind_eq_ok] at valid
    obtain ⟨-, valid⟩ := valid
    rw [refuseIf_bind_eq_ok] at valid
    obtain ⟨distinct, valid⟩ := valid
    simp only [not_or] at distinct
    obtain ⟨-, own, self, name, key⟩ := distinct
    obtain ⟨names', keys', later⟩ := ih valid
    refine ⟨List.nodup_cons.mpr ⟨fun again => ?_, names'⟩, List.nodup_cons.mpr ⟨fun again => ?_, keys'⟩,
      fun p member => ?_⟩
    · obtain ⟨p, member, same⟩ := List.mem_map.mp again
      exact (later p member).1 (by rw [same]; exact List.mem_cons_self)
    · obtain ⟨p, member, same⟩ := List.mem_map.mp again
      exact (later p member).2.1 (by rw [same]; exact List.mem_cons_self)
    · rcases List.mem_cons.mp member with rfl | member
      · exact ⟨name, key, own, self⟩
      · obtain ⟨one, two, three⟩ := later p member
        exact ⟨fun there => one (List.mem_cons_of_mem _ there), fun there => two (List.mem_cons_of_mem _ there), three⟩

theorem identified_of_valid (valid : validateStore c s = .ok ()) : s.Identified c := by
  obtain ⟨names, keys, each⟩ := validatePeers_distinct (validateStore_eq_ok valid).2.2
  exact ⟨names, keys, fun p member => (each p member).2.2.1, fun p member => (each p member).2.2.2⟩

end Pair

namespace Pair

variable {c : Crypto} {s t : Store}

/-- Whoever a name stood for before a pairing, it stands for afterwards. -/
theorem knownKey_of_updatePeer {peer : Peer} (ran : updatePeer c s peer = .ok t) {name : BodyId} {key : Bytes}
    (known : History.knownKey c s name = .ok key) : History.knownKey c t name = .ok key := by
  obtain ⟨valid, frame, kept⟩ := updatePeer_eq_ok ran
  have identified := identified_of_valid valid
  have own : t.bodyName = s.bodyName ∧ t.ownerSk = s.ownerSk := by
    rw [frame]
    exact ⟨rfl, rfl⟩
  rw [History.knownKey] at known
  split_ifs at known with self
  · rw [History.knownKey, own.1, if_pos self, History.publicKey, History.signingKey, own.2]
    exact known
  · cases found : s.peer? name with
    | none =>
      rw [found] at known
      cases known
    | some p =>
      rw [found] at known
      cases known
      obtain rfl : p.name = name := by simpa using List.find?_some found
      obtain ⟨q, member, named, keyed⟩ := kept p (List.mem_of_find?_eq_some found)
      rw [← named, ← keyed]
      exact identified.knownKey member

end Pair

end Clix
