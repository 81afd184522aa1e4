import Clix.Proofs.Frame

/-! # Genuine records and paired authors

A machine accepts a record for two reasons that have nothing to do with each other. The record is
genuine: it is within its limits and the keys it names signed it, which every machine judges alike.
And its authors are paired: the machine knows each of them by the name and the key in the record.
-/

namespace Clix

open Except

/-- The key with which an author of a record signs. -/
def Invocation.keyOf (i : Invocation) : Role → Bytes
  | .origin => i.originKey
  | .runner => i.runnerKey
  | .legacyObserver => if i.legacyObserver = some i.origin then i.originKey else i.runnerKey

/-- The role whose key signs the invocation itself. -/
def Invocation.signer (i : Invocation) : Role :=
  if i.legacyObserver.isSome then .legacyObserver else .origin

/-- The role that writes the origin's half of a record. -/
abbrev Invocation.originRole (i : Invocation) : Role := i.signer

/-- What each role may publish. -/
def Role.May (i : Invocation) (f : Fact) : Role → Prop
  | .origin => i.legacyObserver = none ∧ History.isOriginStatus f.status = true ∧ f.stdout.bytes = 0 ∧
      f.stderr.bytes = 0
  | .runner => i.legacyObserver = none ∧ History.isUnaccepted f.status = false
  | .legacyObserver => i.legacyObserver.isSome = true

/-- A fact that its role wrote about a certified invocation. -/
structure SignedFact.Genuine (c : Crypto) (cert : Certificate) (role : Role) (signed : SignedFact) :
    Prop where
  written : signed.fact.role = role
  bound : signed.fact.invocation = History.invocationHash c cert
  counted : signed.fact.revision ≠ 0
  stdout : History.isOutputRef signed.fact.stdout = true
  stderr : History.isOutputRef signed.fact.stderr = true
  may : role.May cert.invocation signed.fact
  reason : Limits.status signed.fact.status = .ok ()
  signed : History.verify c "fact" signed.fact signed.signature (cert.invocation.keyOf role) = .ok ()

/-- An invocation within its limits, signed by its origin or its observer. -/
structure Certificate.Genuine (c : Crypto) (cert : Certificate) : Prop where
  limits : Limits.invocation cert.invocation.id cert.invocation.argv = .ok ()
  retry : History.validateRetry cert.invocation = .ok ()
  observer : ∀ observer, cert.invocation.legacyObserver = some observer →
    observer = cert.invocation.origin ∨ observer = cert.invocation.body
  signed : History.verify c "invocation" cert.invocation cert.signature
    (cert.invocation.keyOf cert.invocation.signer) = .ok ()

structure Record.Genuine (c : Crypto) (record : Record) : Prop where
  certificate : record.certificate.Genuine c
  origin : ∀ signed, record.origin = some signed →
    signed.Genuine c record.certificate record.certificate.invocation.originRole
  runner : ∀ signed, record.runner = some signed → signed.Genuine c record.certificate .runner

/-- Whether a machine has paired the authors of a record under the names and keys in it. -/
def Invocation.Paired (c : Crypto) (s : Store) (i : Invocation) : Prop :=
  match i.legacyObserver with
  | some observer => History.knownKey c s observer = .ok (i.keyOf .legacyObserver)
  | none => History.knownKey c s i.origin = .ok i.originKey ∧
      History.knownKey c s i.body = .ok i.runnerKey

/-- Two machines that go by one name and key, with the same pairings. -/
structure Store.SameTrust (s t : Store) : Prop where
  bodyName : t.bodyName = s.bodyName
  ownerSk : t.ownerSk = s.ownerSk
  peers : t.peers = s.peers

theorem Store.SamePublished.sameTrust {s t : Store} (same : s.SamePublished t) : s.SameTrust t :=
  ⟨same.bodyName, same.ownerSk, same.peers⟩

namespace Store.SameTrust

variable {c : Crypto} {s t u : Store}

theorem refl (s : Store) : s.SameTrust s := ⟨rfl, rfl, rfl⟩

theorem trans (first : s.SameTrust t) (second : t.SameTrust u) : s.SameTrust u :=
  ⟨second.bodyName.trans first.bodyName, second.ownerSk.trans first.ownerSk,
    second.peers.trans first.peers⟩

theorem knownKey (same : s.SameTrust t) (name : BodyId) :
    History.knownKey c t name = History.knownKey c s name := by
  unfold History.knownKey History.publicKey History.signingKey peer?
  rw [same.bodyName, same.ownerSk, same.peers]

theorem paired (same : s.SameTrust t) (i : Invocation) : i.Paired c t ↔ i.Paired c s := by
  unfold Invocation.Paired
  simp only [same.knownKey]

theorem publicKey (same : s.SameTrust t) : History.publicKey c t = History.publicKey c s := by
  rw [History.publicKey, History.signingKey, same.ownerSk]
  rfl

theorem validateInvocation (same : s.SameTrust t) (cert : Certificate) :
    History.validateInvocation c t cert = History.validateInvocation c s cert := by
  unfold History.validateInvocation History.invocationSigner
  simp only [same.knownKey]

theorem authorizeExecution (same : s.SameTrust t) (peer : Peer) (cert : Certificate) :
    History.authorizeExecution c t peer cert = History.authorizeExecution c s peer cert := by
  unfold History.authorizeExecution
  rw [same.validateInvocation, same.publicKey, same.bodyName]

theorem authorsKnown (same : s.SameTrust t) (cert : Certificate) :
    History.authorsKnown c t cert = History.authorsKnown c s cert := by
  unfold History.authorsKnown
  simp only [same.knownKey]

end Store.SameTrust

namespace History

variable {c : Crypto} {s t : Store}

theorem invocationSigner_eq_ok {i : Invocation} {key : Bytes} : invocationSigner c s i = .ok key ↔
    (∀ observer, i.legacyObserver = some observer → observer = i.origin ∨ observer = i.body) ∧
      i.Paired c s ∧ key = i.keyOf i.signer := by
  unfold invocationSigner Invocation.Paired Invocation.signer Invocation.keyOf
  cases legacy : i.legacyObserver with
  | some observer =>
    dsimp only [Option.isSome_some, if_true]
    simp only [Option.some.injEq, forall_eq']
    by_cases participant : observer = i.origin ∨ observer = i.body
    · rw [if_pos participant, bind_eq_ok]
      simp only [refuseIf_bind_eq_ok, not_not, pure_eq_ok, participant, true_and, Except.ok.injEq]
      constructor
      · rintro ⟨known, found, recorded, rfl⟩
        exact ⟨found.trans (congrArg Except.ok recorded.symm), recorded.symm⟩
      · rintro ⟨found, rfl⟩
        exact ⟨_, found, rfl, rfl⟩
    · simp [participant]
  | none =>
    simp only [bind_eq_ok, refuseIf_eq_ok, not_not, pure_eq_ok, reduceCtorEq, false_implies, implies_true,
      true_and, Except.ok.injEq]
    constructor
    · rintro ⟨_, originKnown, ⟨⟩, rfl, _, runnerKnown, ⟨⟩, rfl, rfl⟩
      exact ⟨⟨originKnown, runnerKnown⟩, rfl⟩
    · rintro ⟨⟨originKnown, runnerKnown⟩, rfl⟩
      exact ⟨_, originKnown, (), rfl, _, runnerKnown, (), rfl, rfl⟩

theorem validateInvocation_eq_ok {cert : Certificate} : validateInvocation c s cert = .ok () ↔
    cert.Genuine c ∧ cert.invocation.Paired c s := by
  simp only [validateInvocation, bind_eq_ok, invocationSigner_eq_ok]
  constructor
  · rintro ⟨⟨⟩, limits, ⟨⟩, retry, _, ⟨observer, paired, rfl⟩, signed⟩
    exact ⟨⟨limits, retry, observer, signed⟩, paired⟩
  · rintro ⟨⟨limits, retry, observer, signed⟩, paired⟩
    exact ⟨(), limits, (), retry, _, ⟨observer, paired, rfl⟩, signed⟩

theorem factSigner_eq_ok {i : Invocation} {f : Fact} {role : Role} {key : Bytes} (paired : i.Paired c s) :
    factSigner c s i f role = .ok key ↔ role.May i f ∧ key = i.keyOf role := by
  unfold factSigner Role.May Invocation.keyOf
  cases role with
  | origin =>
    cases i.legacyObserver <;>
      simp [refuseIf_bind_eq_ok, and_assoc, @eq_comm _ key]
  | runner =>
    cases i.legacyObserver <;> simp [refuseIf_bind_eq_ok, @eq_comm _ key]
  | legacyObserver =>
    unfold Invocation.Paired Invocation.keyOf at paired
    cases legacy : i.legacyObserver with
    | none => simp
    | some observer =>
      rw [legacy] at paired
      dsimp only at paired ⊢
      rw [paired]
      simp [@eq_comm _ key]

theorem validateFact_eq_ok {cert : Certificate} {signed : SignedFact} {role : Role}
    (paired : cert.invocation.Paired c s) :
    validateFact c s cert signed role = .ok () ↔ signed.Genuine c cert role := by
  simp only [validateFact, bind_eq_ok, refuseIf_eq_ok, factSigner_eq_ok paired, not_or, not_not,
    Bool.not_eq_false]
  constructor
  · rintro ⟨⟨⟩, ⟨sameRole, bound, counted⟩, ⟨⟩, stdout, ⟨⟩, stderr, _, ⟨may, rfl⟩, ⟨⟩, reason, verified⟩
    exact ⟨sameRole, bound, counted, stdout, stderr, may, reason, verified⟩
  · intro genuine
    exact ⟨(), ⟨genuine.written, genuine.bound, genuine.counted⟩, (), genuine.stdout, (), genuine.stderr, _,
      ⟨genuine.may, rfl⟩, (), genuine.reason, genuine.signed⟩

theorem validateFact?_eq_ok {cert : Certificate} {signed : Option SignedFact} {role : Role}
    (paired : cert.invocation.Paired c s) :
    validateFact? c s cert signed role = .ok () ↔
      ∀ fact, signed = some fact → fact.Genuine c cert role := by
  unfold validateFact?
  cases signed with
  | none => simp
  | some fact => simp [validateFact_eq_ok paired]

/-- A machine accepts exactly the genuine records whose authors it has paired. -/
theorem validateRecord_eq_ok {record : Record} : validateRecord c s record = .ok () ↔
    record.Genuine c ∧ record.certificate.invocation.Paired c s := by
  rw [validateRecord, bind_eq_ok]
  constructor
  · rintro ⟨⟨⟩, valid, facts⟩
    obtain ⟨certificate, paired⟩ := validateInvocation_eq_ok.mp valid
    refine ⟨?_, paired⟩
    cases legacy : record.certificate.invocation.legacyObserver with
    | none =>
      simp only [legacy, Option.isSome_none, Bool.false_eq_true, if_false, bind_eq_ok,
        validateFact?_eq_ok paired] at facts
      obtain ⟨⟨⟩, origin, runner⟩ := facts
      refine ⟨certificate, ?_, runner⟩
      rw [Invocation.originRole, Invocation.signer, legacy]
      exact origin
    | some observer =>
      simp only [legacy, Option.isSome_some, if_true, refuseIf_bind_eq_ok,
        validateFact?_eq_ok paired] at facts
      refine ⟨certificate, ?_, fun signed found => ?_⟩
      · rw [Invocation.originRole, Invocation.signer, legacy]
        exact facts.2
      · exact absurd (by rw [found]; rfl) facts.1
  · rintro ⟨⟨certificate, origin, runner⟩, paired⟩
    refine ⟨(), validateInvocation_eq_ok.mpr ⟨certificate, paired⟩, ?_⟩
    cases legacy : record.certificate.invocation.legacyObserver with
    | none =>
      simp only [Option.isSome_none, Bool.false_eq_true, if_false, bind_eq_ok,
        validateFact?_eq_ok paired]
      rw [Invocation.originRole, Invocation.signer, legacy] at origin
      exact ⟨(), origin, runner⟩
    | some observer =>
      simp only [Option.isSome_some, if_true, refuseIf_bind_eq_ok, validateFact?_eq_ok paired]
      rw [Invocation.originRole, Invocation.signer, legacy] at origin
      refine ⟨?_, origin⟩
      -- A runner fact needs a modern certificate, so a legacy record has none.
      cases held : record.runner with
      | none => exact Bool.false_ne_true
      | some signed =>
        have modern := (runner signed held).may.1
        rw [legacy] at modern
        cases modern

theorem authorsKnown_of_paired {cert : Certificate} (paired : cert.invocation.Paired c s) :
    authorsKnown c s cert = true := by
  unfold authorsKnown
  unfold Invocation.Paired at paired
  cases legacy : cert.invocation.legacyObserver with
  | none =>
    rw [legacy] at paired
    dsimp only at paired ⊢
    rw [paired.1, paired.2]
    rfl
  | some observer =>
    rw [legacy] at paired
    dsimp only at paired ⊢
    rw [paired]
    rfl

end History

end Clix
