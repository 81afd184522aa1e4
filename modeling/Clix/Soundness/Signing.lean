import Clix.Proofs.Decoded
import Clix.Proofs.PinSession
import Clix.Proofs.Records
import Mathlib.Data.Set.Function
import Mathlib.Logic.Relation

/-! # What is signed

The signed bytes name their kind and hold the text of one invocation or fact, so they are those of no other value and
no other kind. A certificate or record that comes with a message is the one that was sent, however often it is sent
on, and a digest without collisions tells apart what the bytes tell apart.
-/

namespace Clix.History

open Except Json

inductive Kind where
  | invocation | fact

def Kind.text : Kind → String
  | invocation => "invocation"
  | fact => "fact"

/-- What a signature may be made for, whatever its kind is given as. -/
inductive Signed where
  | invocation (i : Invocation)
  | fact (f : Fact)

def Signed.bytes (kind : Kind) : Signed → Bytes
  | invocation i => History.bytes kind.text i
  | fact f => History.bytes kind.text f

def Signed.verify (c : Crypto) (kind : Kind) (signature key : Bytes) : Signed → Result Unit
  | invocation i => History.verify c kind.text i signature key
  | fact f => History.verify c kind.text f signature key

/-! ## Bytes -/

/-- A text without zeros ends where the first zero is. -/
theorem append_zero_inj {l l' r r' : Bytes} (plain : (0 : UInt8) ∉ l) (plain' : (0 : UInt8) ∉ l')
    (same : l ++ 0 :: r = l' ++ 0 :: r') : l = l' ∧ r = r' := by
  have split {l r : Bytes} (plain : (0 : UInt8) ∉ l) : (l ++ 0 :: r).takeWhile (· != 0) = l ∧
      (l ++ 0 :: r).dropWhile (· != 0) = 0 :: r := by
    refine takeWhile_append_stop (fun b member => ?_) (fun b first => ?_)
    · exact bne_iff_ne.mpr (ne_of_mem_of_not_mem member plain)
    · cases first
      rfl
  have texts := congrArg (List.takeWhile (· != 0)) same
  have rests := congrArg (List.dropWhile (· != 0)) same
  rw [(split plain).1, (split plain').1] at texts
  rw [(split plain).2, (split plain').2] at rests
  exact ⟨texts, (List.cons.inj rests).2⟩

theorem bytes_inj {α β : Type} [Serialize α] [Serialize β] {k k' : Kind} {a : α} {b : β}
    (same : bytes k.text a = bytes k'.text b) : k = k' ∧ toVec a = toVec b := by
  have plain (k : Kind) : (0 : UInt8) ∉ utf8 k.text := by cases k <;> decide
  have domain : utf8 "Clix history v1" ++ 0 :: (utf8 k.text ++ 0 :: toVec a) =
      utf8 "Clix history v1" ++ 0 :: (utf8 k'.text ++ 0 :: toVec b) := by
    simpa only [bytes, List.append_assoc, List.cons_append] using same
  have rest := (List.cons.inj (List.append_cancel_left domain)).2
  obtain ⟨kinds, texts⟩ := append_zero_inj (plain k) (plain k') rest
  refine ⟨?_, texts⟩
  cases k <;> cases k'
  · rfl
  · exact absurd kinds (by decide)
  · exact absurd kinds (by decide)
  · rfl

/-- The first fields of an invocation and of a fact have different names. -/
theorem invocation_ne_fact (i : Invocation) (f : Fact) : toVec i ≠ toVec f := by
  intro texts
  let word := f.stdout.bytes + f.stderr.bytes + 1
  have sized : f.Sized word := ⟨by change _ < _; omega, by change _ < _; omega⟩
  have invocation : Carries word maxDepth i := carries_invocation i
  have values := invocation.toValue_eq (carries_fact sized) texts
  have first := (List.cons.inj (Value.object.inj values)).1
  exact absurd (Prod.mk.inj first).1 (by decide)

theorem invocation_inj {i i' : Invocation} (texts : toVec i = toVec i') : i = i' := by
  have invocation (i : Invocation) : Carries 0 maxDepth i := carries_invocation i
  exact (invocation i).toVec_inj (invocation i') texts

theorem fact_inj {f f' : Fact} (texts : toVec f = toVec f') : f = f' := by
  let word := f.stdout.bytes + f.stderr.bytes + f'.stdout.bytes + f'.stderr.bytes + 1
  have sized : f.Sized word := ⟨by change _ < _; omega, by change _ < _; omega⟩
  have sized' : f'.Sized word := ⟨by change _ < _; omega, by change _ < _; omega⟩
  have fact : Carries word maxDepth f := carries_fact sized
  exact fact.toVec_inj (carries_fact sized') texts

theorem signed_inj {k k' : Kind} {a b : Signed} (same : a.bytes k = b.bytes k') : k = k' ∧ a = b := by
  cases a with
  | invocation i =>
    cases b with
    | invocation i' =>
      obtain ⟨kinds, texts⟩ := bytes_inj same
      exact ⟨kinds, congrArg Signed.invocation (invocation_inj texts)⟩
    | fact f => exact absurd (bytes_inj same).2 (invocation_ne_fact i f)
  | fact f =>
    cases b with
    | invocation i => exact absurd (bytes_inj same).2.symm (invocation_ne_fact i f)
    | fact f' =>
      obtain ⟨kinds, texts⟩ := bytes_inj same
      exact ⟨kinds, congrArg Signed.fact (fact_inj texts)⟩

/-! ## Relays -/

/-- A record is sent, in a page or with an answer, and kept as it is read. -/
inductive Relay : Record → Record → Prop where
  | page {word n : ℕ} {page received : Page} {sent kept : Published} (sized : page.Sized word)
    (carried : Mesh.carryPage word page = some received) (listed : page.entries[n]? = some sent)
    (read : received.entries[n]? = some kept) : Relay sent.record kept.record
  | reply {word : ℕ} {job : Job} {sent kept : Published} (sized : sent.record.Sized word)
    (carried : Mesh.carryReply word job sent = some kept) : Relay sent.record kept.record

theorem Relay.eq {r r' : Record} (relay : Relay r r') : r' = r := by
  cases relay with
  | page sized carried listed read =>
    rw [Mesh.carryPage_eq sized] at carried
    split_ifs at carried
    obtain rfl := Option.some.inj carried
    obtain rfl := Option.some.inj (listed.symm.trans read)
    rfl
  | reply sized carried =>
    rw [Mesh.carryReply_eq _ sized] at carried
    split_ifs at carried
    rw [Option.some.inj carried]

theorem relays_eq {r r' : Record} (relays : Relation.ReflTransGen Relay r r') : r' = r := by
  induction relays with
  | refl => rfl
  | tail _ relay ih => exact relay.eq.trans ih

/-- A machine that accepts a record can hold the sizes in it. -/
theorem sized_of_valid {c : Crypto} {s : Store} {r : Record} {word : ℕ} (valid : validateRecord c s r = .ok ())
    (wide : streamBytes < word) : r.Sized word := by
  obtain ⟨genuine, -⟩ := validateRecord_eq_ok.mp valid
  have small {o : OutputRef} (known : isOutputRef o = true) : o.Sized word := by
    rw [isOutputRef, Bool.and_eq_true, decide_eq_true_eq] at known
    exact known.1.trans_lt wide
  constructor
  · intro signed held
    exact ⟨small (genuine.origin signed held).stdout, small (genuine.origin signed held).stderr⟩
  · intro signed held
    exact ⟨small (genuine.runner signed held).stdout, small (genuine.runner signed held).stderr⟩

/-! ## Digests and signatures -/

/-- No two of the messages have one digest, and no signature is accepted for two of them under one key. -/
structure CollisionFree (c : Crypto) (messages : Set Bytes) : Prop where
  sha256 : Set.InjOn c.sha256 messages
  signature : ∀ key signature, key.length = 32 → ∀ m ∈ messages, ∀ m' ∈ messages,
    c.verifyStrict key m signature = true → c.verifyStrict key m' signature = true → m = m'

theorem hex_inj {b b' : Bytes} (same : Crypto.hex b = Crypto.hex b') : b = b' := by
  have read := Pin.digitPairs_hex b
  rw [same, Pin.digitPairs_hex] at read
  exact (Except.ok.inj read).symm

variable {c : Crypto} {messages : Set Bytes}

theorem CollisionFree.invocationHash_inj (free : CollisionFree c messages) {cert cert' : Certificate}
    (member : bytes "invocation" cert.invocation ∈ messages) (member' : bytes "invocation" cert'.invocation ∈ messages)
    (same : invocationHash c cert = invocationHash c cert') : cert.invocation = cert'.invocation := by
  have texts : bytes (Kind.text .invocation) cert.invocation = bytes (Kind.text .invocation) cert'.invocation :=
    free.sha256 member member' (hex_inj same)
  exact invocation_inj (bytes_inj texts).2

theorem Signed.accepted {k : Kind} {signature key : Bytes} {a : Signed} (verified : a.verify c k signature key = .ok ()) :
    key.length = 32 ∧ c.verifyStrict key (a.bytes k) signature = true := by
  cases a <;>
  · rw [Signed.verify, History.verify, refuseIf_bind_eq_ok, refuseIf_bind_eq_ok, refuseIf_eq_ok] at verified
    obtain ⟨keyed, -, accepted⟩ := verified
    rw [not_or, not_not] at keyed
    exact ⟨keyed.1, Bool.eq_true_of_not_eq_false accepted⟩

theorem CollisionFree.signed_inj (free : CollisionFree c messages) {k k' : Kind} {a b : Signed} {signature key : Bytes}
    (member : a.bytes k ∈ messages) (member' : b.bytes k' ∈ messages) (verified : a.verify c k signature key = .ok ())
    (verified' : b.verify c k' signature key = .ok ()) : k = k' ∧ a = b := by
  obtain ⟨keyed, accepted⟩ := Signed.accepted verified
  obtain ⟨-, accepted'⟩ := Signed.accepted verified'
  exact History.signed_inj (free.signature key signature keyed _ member _ member' accepted accepted')

/-- A record holds a signature for a value of a kind. -/
inductive Signs : Record → Kind → Signed → Bytes → Prop where
  | certificate (r : Record) : Signs r .invocation (.invocation r.certificate.invocation) r.certificate.signature
  | origin {r : Record} {signed : SignedFact} (held : r.origin = some signed) :
    Signs r .fact (.fact signed.fact) signed.signature
  | runner {r : Record} {signed : SignedFact} (held : r.runner = some signed) :
    Signs r .fact (.fact signed.fact) signed.signature

theorem relays_signs {r r' : Record} (relays : Relation.ReflTransGen Relay r r') {k : Kind} {a : Signed}
    {signature : Bytes} : Signs r' k a signature ↔ Signs r k a signature := by
  rw [relays_eq relays]

/-- What is signed is unambiguous: the bytes tell the kind and every field; certificates, facts and records come back
as they were sent, whatever number of relays they take; and while no two of the messages collide, neither an
invocation hash nor a signature stands for two of them, before or after the relays. -/
theorem signed_unambiguous (c : Crypto) :
    (∀ (k k' : Kind) (a b : Signed), a.bytes k = b.bytes k' → k = k' ∧ a = b) ∧
    (∀ (word : ℕ) (cert : Certificate), reread word cert = some cert) ∧
    (∀ (word : ℕ) (signed : SignedFact), signed.fact.Sized word → reread word signed = some signed) ∧
    (∀ (word : ℕ) (r : Record), r.Sized word → reread word r = some r) ∧
    (∀ (word : ℕ) (s : Store) (r : Record), validateRecord c s r = .ok () → streamBytes < word → r.Sized word) ∧
    (∀ (word : ℕ) (op : String) (cert : Certificate), Mesh.carryCertificate word op cert =
      if Limits.meshFrameBytes < (Mesh.certifiedRequest op cert).text.length then none else some cert) ∧
    (∀ (word : ℕ) (job : Job) (history : Published), history.record.Sized word → Mesh.carryReply word job history =
      if Limits.meshFrameBytes < (Mesh.certifiedReply job history).text.length then none else some history) ∧
    (∀ (word : ℕ) (page : Page), page.Sized word → Mesh.carryPage word page =
      if Limits.meshFrameBytes < (toValue inOrder page).text.length then none else some page) ∧
    (∀ r r' : Record, Relation.ReflTransGen Relay r r' → r' = r ∧
      ∀ (k : Kind) (a : Signed) (signature : Bytes), Signs r' k a signature ↔ Signs r k a signature) ∧
    ∀ messages : Set Bytes, CollisionFree c messages →
      (∀ r₁ r₁' r₂ r₂' : Record, Relation.ReflTransGen Relay r₁ r₁' → Relation.ReflTransGen Relay r₂ r₂' →
        bytes "invocation" r₁.certificate.invocation ∈ messages →
        bytes "invocation" r₂.certificate.invocation ∈ messages →
        invocationHash c r₁'.certificate = invocationHash c r₂'.certificate →
          r₁.certificate.invocation = r₂.certificate.invocation) ∧
      ∀ (k k' : Kind) (a b : Signed) (signature key : Bytes), a.bytes k ∈ messages → b.bytes k' ∈ messages →
        a.verify c k signature key = .ok () → b.verify c k' signature key = .ok () → k = k' ∧ a = b := by
  refine ⟨fun _ _ _ _ => signed_inj, fun _ cert => (carries_certificate cert).reread_eq,
    fun _ _ sized => (carries_signedFact sized).reread_eq, fun _ _ sized => (carries_record sized).reread_eq,
    fun _ _ _ valid wide => sized_of_valid valid wide, Mesh.carryCertificate_eq,
    fun _ job _ sized => Mesh.carryReply_eq job sized, fun _ _ sized => Mesh.carryPage_eq sized,
    fun _ _ relays => ⟨relays_eq relays, fun _ _ _ => relays_signs relays⟩, fun messages free => ⟨?_, ?_⟩⟩
  · intro r₁ r₁' r₂ r₂' relays₁ relays₂ member₁ member₂ same
    rw [relays_eq relays₁, relays_eq relays₂] at same
    exact free.invocationHash_inj member₁ member₂ same
  · intro k k' a b signature key member member' verified verified'
    exact free.signed_inj member member' verified verified'

namespace SigningExample

set_option maxRecDepth 40000

def invocation : Invocation := ⟨"1", ⟨"laptop"⟩, [7], ⟨"server"⟩, [9], ["echo", "a\n"], none, none⟩

def retry : Invocation := { invocation with id := "2", retryOf := some "1" }

def both : Set Bytes := {bytes "invocation" invocation, bytes "invocation" retry}

theorem collisionFree : CollisionFree Crypto.transparent both := by
  have differ : Crypto.checksum (bytes "invocation" invocation) ≠ Crypto.checksum (bytes "invocation" retry) := by
    decide
  have inj : Set.InjOn Crypto.checksum both := by
    rintro m (rfl | rfl) m' (rfl | rfl) same
    · rfl
    · exact absurd same differ
    · exact absurd same.symm differ
    · rfl
  refine ⟨inj, fun key signature keyed m member m' member' accepted accepted' => inj member member' ?_⟩
  have signatures : Crypto.fit 64 (key ++ Crypto.checksum m) = Crypto.fit 64 (key ++ Crypto.checksum m') :=
    (beq_iff_eq.mp accepted).symm.trans (beq_iff_eq.mp accepted')
  have whole (m : Bytes) : Crypto.fit 64 (key ++ Crypto.checksum m) = key ++ Crypto.checksum m := by
    have length : (key ++ Crypto.checksum m).length = 64 := by
      rw [List.length_append, keyed, show (Crypto.checksum m).length = 32 from Crypto.transparent.length_sha256 m]
    rw [Crypto.fit, List.take_append_of_le_length length.ge, ← length, List.take_length]
  rw [whole, whole] at signatures
  exact List.append_cancel_left signatures

/-- A retry has a hash of its own, and no signature for what it retries. -/
theorem told_apart : (∀ cert cert' : Certificate, cert.invocation = invocation → cert'.invocation = retry →
      invocationHash Crypto.transparent cert ≠ invocationHash Crypto.transparent cert') ∧
    ∀ signature key, (Signed.invocation invocation).verify Crypto.transparent .invocation signature key = .ok () →
      (Signed.invocation retry).verify Crypto.transparent .invocation signature key ≠ .ok () := by
  obtain ⟨-, -, -, -, -, -, -, -, -, distinct⟩ := signed_unambiguous Crypto.transparent
  obtain ⟨hashes, signatures⟩ := distinct both collisionFree
  have differ : invocation ≠ retry := by decide
  constructor
  · rintro ⟨i, signature⟩ ⟨i', signature'⟩ rfl rfl same
    exact differ (hashes ⟨⟨_, signature⟩, none, none⟩ _ ⟨⟨_, signature'⟩, none, none⟩ _ .refl .refl (.inl rfl)
      (.inr rfl) same)
  · intro signature key verified verified'
    have same := (signatures .invocation .invocation (.invocation invocation) (.invocation retry) signature key
      (.inl rfl) (.inr rfl) verified verified').2
    exact differ (Signed.invocation.inj same)

end SigningExample

end Clix.History
