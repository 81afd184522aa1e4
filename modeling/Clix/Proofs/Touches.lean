import Clix.Proofs.Writes

/-! # What is recorded, call by call

Whatever an update does to records and bindings it does by a few calls: a job is certified, an invocation is entered,
an ID is bound, a fact is signed, a record is merged, and payloads are dropped. A property that each of them keeps is
kept by every update.
-/

namespace Clix

open Except

/-- One call that records something. An admission comes with an event that is `Allowed`. -/
inductive Store.Touch (c : Crypto) (Allowed : Store → Event → Prop) (s : Store) : Store → Prop
  | thin {t : Store} (thinned : s.Thinned t) : Touch c Allowed s t
  | befriend {t : Store} (work : s.SameWork t) (name : t.bodyName = s.bodyName) (seed : t.ownerSk = s.ownerSk)
      (known : ∀ name key, History.knownKey c s name = .ok key → History.knownKey c t name = .ok key) :
      Touch c Allowed s t
  | rename {t : Store} (work : s.SameWork t) (seed : t.ownerSk = s.ownerSk) (alone : s.peers = [])
      (named : Pair.isName t.bodyName = true)
      (unrecorded : Pair.isName s.bodyName = true → ∀ key, s.history.entries.get? key = none) : Touch c Allowed s t
  | label (unlabelled : s.history.initialized = false) (unbound : s.jobCertificates = ∅) :
      Touch c Allowed s (History.markLegacy s)
  | certify {t : Store} (old : List Job) (job : Job) (key : String) (present : s.job? job.id ≠ none)
      (unbound : s.jobCertificates.get? job.id = none)
      (own : job.origin.name = s.bodyName ∨ job.body.name = s.bodyName)
      (ran : History.bindOwned c old s job = .ok (t, key)) : Touch c Allowed s t
  | admitted {t : Store} (peer : Peer) (cert : Certificate) (permitted : Allowed s (.execCertified peer cert))
      (valid : History.validateInvocation c s cert = .ok ()) (modern : cert.invocation.legacyObserver = none)
      (ran : History.bindAdmission c s cert = .ok t) : Touch c Allowed s t
  | sign {t : Store} (key : String) (entry : Entry) (job : Job) (role : Role)
      (found : s.history.entries.get? key = some entry) (bound : s.jobCertificates.get? job.id = some key)
      (matched : History.matchesJob entry.record.certificate job = true)
      (own : job.origin.name = s.bodyName ∨ job.body.name = s.bodyName)
      (owned : History.ownedRole s entry.record job = some role)
      (ran : History.publishFact c s key entry job role = .ok t) : Touch c Allowed s t
  | ingest {t : Store} (published : Published) (changed : Bool)
      (ran : History.ingest c s published = .ok (t, changed)) : Touch c Allowed s t

/-- Nothing is bound before the history begins, and a machine without peers and jobs has no records. -/
structure Store.Begun (s : Store) : Prop where
  unbound : s.history.initialized = false → s.jobCertificates = ∅
  alone : s.peers = [] → s.jobs = [] → ∀ key, s.history.entries.get? key = none

abbrev Store.Touches (c : Crypto) (Allowed : Store → Event → Prop) : Store → Store → Prop :=
  Relation.ReflTransGen (Store.Touch c Allowed)

namespace History

variable {c : Crypto} {Allowed : Store → Event → Prop} {s t : Store}

/-! ### Publication -/

/-- A certificate this machine makes of a job, signed with its own key. -/
theorem certificate_eq_ok {job : Job} {legacy : Bool} {cert : Certificate} (success : certificate c s job legacy = .ok cert) :
    cert.invocation.id = job.id ∧ cert.invocation.origin = job.origin ∧ cert.invocation.body = job.body ∧
      cert.invocation.argv = job.argv ∧ cert.invocation.retryOf = s.retryLinks.get? job.id ∧
      cert.invocation.legacyObserver = (if legacy then some ⟨s.bodyName⟩ else none) ∧
      (legacy = false → knownKey c s job.origin = .ok cert.invocation.originKey ∧
        knownKey c s job.body = .ok cert.invocation.runnerKey) ∧
      (legacy = true → cert.invocation.originKey = (knownKey c s job.origin).toOption.getD [] ∧
        cert.invocation.runnerKey = (knownKey c s job.body).toOption.getD []) ∧
      s.ownerSk.length = 32 ∧ cert.signature = c.sign s.ownerSk (bytes "invocation" cert.invocation) := by
  rw [certificate] at success
  dsimp only at success
  rw [bind_eq_ok] at success
  obtain ⟨originKey, origin, success⟩ := success
  rw [bind_eq_ok] at success
  obtain ⟨runnerKey, runner, success⟩ := success
  rw [bind_eq_ok] at success
  obtain ⟨seed, signing, success⟩ := success
  rw [signingKey, refuseIf_bind_eq_ok, not_not] at signing
  obtain ⟨length, signing⟩ := signing
  cases signing
  cases success
  refine ⟨rfl, rfl, rfl, rfl, rfl, rfl, ?_, ?_, length, rfl⟩
  · rintro rfl
    exact ⟨origin, runner⟩
  · rintro rfl
    exact ⟨(Except.ok.inj origin).symm, (Except.ok.inj runner).symm⟩

/-- A job is certified as the observation of a job from before, or else as one of this machine. -/
theorem bindOwned_eq_ok {old : List Job} {job : Job} {key : String} (unbound : s.jobCertificates.get? job.id = none)
    (success : bindOwned c old s job = .ok (t, key)) : ∃ legacy cert,
      legacy = (s.legacyJobs.contains job.id || decide (job.origin.name ≠ s.bodyName) || (lastJob? old job.id).isSome) ∧
      certificate c s job legacy = .ok cert ∧ key = invocationHash c cert ∧ s.history.clock.toNat + 1 < 2 ^ 64 ∧
      t = { s with
        history := { s.history with
          clock := s.history.clock + 1
          entries := s.history.entries.insert key (Entry.unsigned cert (s.history.clock + 1)) }
        jobCertificates := s.jobCertificates.insert job.id key
        legacyJobs := if legacy then s.legacyJobs.insert job.id () else s.legacyJobs } := by
  rw [bindOwned, unbound] at success
  dsimp only at success
  rw [bind_eq_ok] at success
  obtain ⟨cert, made, success⟩ := success
  rw [bind_eq_ok] at success
  obtain ⟨⟨change, u⟩, stamped, success⟩ := success
  cases success
  refine ⟨_, cert, rfl, ?_, rfl, ?_⟩
  · generalize (s.legacyJobs.contains job.id || decide (job.origin.name ≠ s.bodyName) ||
      (lastJob? old job.id).isSome) = legacy at made
    cases legacy <;> exact made
  · generalize (s.legacyJobs.contains job.id || decide (job.origin.name ≠ s.bodyName) ||
      (lastJob? old job.id).isSome) = legacy at stamped
    obtain ⟨room, rfl, rfl⟩ := nextChange_eq_ok stamped
    cases legacy <;> exact ⟨room, rfl⟩

theorem knownKey_own {name : BodyId} (own : name.name = s.bodyName) (length : s.ownerSk.length = 32) :
    knownKey c s name = .ok (c.verifyingKey s.ownerSk) := by
  rw [knownKey, if_pos own, publicKey, signingKey, refuseIf, if_neg (not_not.mpr length)]
  rfl

/-- A machine's own signatures verify under its public key. -/
theorem verify_own {α : Type} [Json.Serialize α] (kind : String) (value : α) (seed : Bytes) :
    verify c kind value (c.sign seed (bytes kind value)) (c.verifyingKey seed) = .ok () := by
  rw [verify, refuseIf, if_neg (by rw [c.length_verifyingKey, c.valid_verifyingKey]; simp), refuseIf,
    if_neg (by rw [c.length_sign]; simp), refuseIf, if_neg (by rw [c.verify_sign]; decide)]
  rfl

/-- What a machine certifies it signs with its own key, of a job whose authors it knows. -/
theorem certified_own {old : List Job} {job : Job} {legacy : Bool} {cert : Certificate}
    (own : job.origin.name = s.bodyName ∨ job.body.name = s.bodyName)
    (chosen : legacy = (s.legacyJobs.contains job.id || decide (job.origin.name ≠ s.bodyName) ||
      (lastJob? old job.id).isSome)) (made : certificate c s job legacy = .ok cert) :
    cert.invocation.Paired c s ∧ cert.invocation.keyOf cert.invocation.signer = c.verifyingKey s.ownerSk ∧
      ∀ o, cert.invocation.legacyObserver = some o → o = cert.invocation.origin ∨ o = cert.invocation.body := by
  obtain ⟨-, origin, body, -, -, observer, modern, legacyKeys, length, -⟩ := certificate_eq_ok made
  cases legacy with
  | false =>
    obtain ⟨originKey, runnerKey⟩ := modern rfl
    rw [if_neg Bool.false_ne_true] at observer
    have here : job.origin.name = s.bodyName := by
      have clear := chosen.symm
      rw [Bool.or_eq_false_iff, Bool.or_eq_false_iff, decide_eq_false_iff_not, not_not] at clear
      exact clear.1.2
    refine ⟨?_, ?_, fun o found => ?_⟩
    · rw [Invocation.Paired, observer, origin, body]
      exact ⟨originKey, runnerKey⟩
    · rw [Invocation.signer, observer]
      rw [knownKey_own here length] at originKey
      exact (Except.ok.inj originKey).symm
    · rw [observer] at found
      cases found
  | true =>
    obtain ⟨originKey, runnerKey⟩ := legacyKeys rfl
    rw [if_pos rfl] at observer
    have known : cert.invocation.keyOf .legacyObserver = c.verifyingKey s.ownerSk := by
      rw [Invocation.keyOf, observer, origin, originKey, runnerKey]
      split_ifs with same
      · have here : job.origin.name = s.bodyName := (congrArg BodyId.name (Option.some.inj same)).symm
        rw [knownKey_own here length]
        rfl
      · have here : job.body.name = s.bodyName := by
          refine own.resolve_left (fun equal => same ?_)
          rw [← equal]
        rw [knownKey_own here length]
        rfl
    refine ⟨?_, ?_, fun o found => ?_⟩
    · rw [Invocation.Paired, observer]
      dsimp only
      rw [known]
      exact knownKey_own rfl length
    · rw [Invocation.signer, observer]
      exact known
    · rw [observer] at found
      cases found
      rw [origin, body]
      rcases own with here | here
      · exact .inl (by rw [← here])
      · exact .inr (by rw [← here])

/-- What signing a fact leaves: nothing new, or the next revision under this machine's own signature. -/
theorem publishFact_eq_ok {key : String} {entry : Entry} {job : Job} {role : Role}
    (success : publishFact c s key entry job role = .ok t) : ∃ stdout stderr,
      ownedOutput c s job role (Record.fact? entry.record role) = .ok (stdout, stderr) ∧
      ((isSettledFact (Record.fact? entry.record role) job.status stdout stderr = true ∧ t = s) ∨
        (isSettledFact (Record.fact? entry.record role) job.status stdout stderr = false ∧
          ∃ revision signed, nextRevision (Record.fact? entry.record role) = .ok revision ∧
            signed.fact = ⟨key, role, revision, job.status, stdout, stderr⟩ ∧ s.ownerSk.length = 32 ∧
            signed.signature = c.sign s.ownerSk (bytes "fact" signed.fact) ∧ s.history.clock.toNat + 1 < 2 ^ 64 ∧
            ∃ signedEntry : Entry, signedEntry = { entry with
                record := Record.setFact entry.record role signed
                change := s.history.clock + 1 } ∧
              t = Store.setEntry { s with history := { s.history with clock := s.history.clock + 1 } } key
                { signedEntry with output := keptOutput c s signedEntry job })) := by
  rw [publishFact] at success
  dsimp only at success
  rw [bind_eq_ok] at success
  obtain ⟨⟨stdout, stderr⟩, described, success⟩ := success
  refine ⟨stdout, stderr, described, ?_⟩
  dsimp only at success
  split_ifs at success with settled
  · cases success
    exact .inl ⟨settled, rfl⟩
  · rw [bind_eq_ok] at success
    obtain ⟨revision, next, success⟩ := success
    rw [bind_eq_ok] at success
    obtain ⟨seed, signing, success⟩ := success
    rw [signingKey, refuseIf_bind_eq_ok, not_not] at signing
    obtain ⟨length, signing⟩ := signing
    cases signing
    rw [bind_eq_ok] at success
    obtain ⟨⟨change, u⟩, stamped, success⟩ := success
    obtain ⟨room, rfl, rfl⟩ := nextChange_eq_ok stamped
    cases success
    exact .inr ⟨Bool.eq_false_iff.mpr settled, revision, _, next, rfl, length, rfl, room, _, rfl, rfl⟩

/-- A job that is bound already stays bound, and one that is not is certified. -/
theorem bindOwned_cases {old : List Job} {job : Job} {key : String} (success : bindOwned c old s job = .ok (t, key)) :
    (s.jobCertificates.get? job.id = some key ∧ t = s) ∨
      (s.jobCertificates.get? job.id = none ∧ t.jobCertificates.get? job.id = some key) := by
  rw [bindOwned] at success
  split at success
  · next bound =>
    cases success
    exact .inl ⟨bound, rfl⟩
  · next unbound =>
    dsimp only at success
    rw [bind_eq_ok] at success
    obtain ⟨cert, -, success⟩ := success
    rw [bind_eq_ok] at success
    obtain ⟨⟨change, u⟩, stamped, success⟩ := success
    cases success
    exact .inr ⟨unbound, OrdMap.get?_insert_self _ _ _⟩

theorem touches_publishOwned {old : List Job} {job : Job} (present : s.job? job.id ≠ none)
    (success : publishOwned c old s job = .ok t) : s.Touches c Allowed t := by
  rw [publishOwned] at success
  split_ifs at success with foreign
  · cases success
    exact .refl
  have own : job.origin.name = s.bodyName ∨ job.body.name = s.bodyName := by
    by_contra neither
    rw [not_or] at neither
    exact foreign neither
  rw [bind_eq_ok] at success
  obtain ⟨⟨u, key⟩, bound, success⟩ := success
  have frame := bindOwned_samePublished bound
  have first : s.Touches c Allowed u ∧ u.jobCertificates.get? job.id = some key := by
    rcases bindOwned_cases bound with ⟨there, rfl⟩ | ⟨unbound, now⟩
    · exact ⟨.refl, there⟩
    · exact ⟨.single (.certify old job key present unbound own bound), now⟩
  dsimp only at success
  split at success
  · cases success
  next entry found =>
  rw [refuseIf_bind_eq_ok] at success
  obtain ⟨matched, success⟩ := success
  rw [Bool.not_eq_false] at matched
  split at success
  · cases success
    exact first.1
  · next role owned =>
    refine first.1.tail (.sign key entry job role found first.2 matched ?_ owned success)
    rw [frame.bodyName]
    exact own

theorem touches_refreshOwned {newId : Result String} {previous : Option Store}
    (unbound : s.history.initialized = false → s.jobCertificates = ∅)
    (success : refreshOwned c newId s previous = .ok t) : s.Touches c Allowed t := by
  rw [refreshOwned] at success
  dsimp only at success
  rw [bind_eq_ok] at success
  obtain ⟨u, named, success⟩ := success
  rw [bind_eq_ok] at success
  obtain ⟨v, published, success⟩ := success
  cases success
  have labelled : s.Touches c Allowed (markLegacy s) := by
    cases done : s.history.initialized with
    | true =>
      rw [markLegacy, done, if_pos rfl]
    | false => exact .single (.label done (unbound done))
  have epoch : (markLegacy s).Thinned u := by
    rw [ensureEpoch] at named
    split_ifs at named
    · rw [bind_eq_ok] at named
      obtain ⟨new, -, named⟩ := named
      cases named
      exact .of_eq ⟨rfl, rfl, rfl⟩ rfl rfl id (fun _ => id) rfl
    · cases named
      exact .refl _
  have trust : u.Thinned (refreshTrust c u) := by
    rw [refreshTrust]
    split_ifs
    · exact .refl _
    · exact .of_eq ⟨rfl, rfl, rfl⟩ rfl rfl id (fun _ => id) rfl
  have folded : (refreshTrust c u).Touches c Allowed v ∧ v.jobs = (refreshTrust c u).jobs := by
    refine List.foldlM_except_rel (R := fun x y : Store => x.jobs = (refreshTrust c u).jobs →
      x.Touches c Allowed y ∧ y.jobs = (refreshTrust c u).jobs) (fun x same => ⟨.refl, same⟩) ?_ ?_ published rfl
    · intro x y z first second same
      obtain ⟨one, jobs⟩ := first same
      obtain ⟨two, later⟩ := second jobs
      exact ⟨one.trans two, later⟩
    · intro job member x y ran same
      refine ⟨touches_publishOwned ?_ ran, (publishOwned_samePublished ran).jobs.trans same⟩
      intro absent
      rw [Store.job?, same, List.find?_eq_none] at absent
      exact absent job (List.mem_of_mem_filter member) (beq_self_eq_true job.id)
  exact (((labelled.tail (.thin epoch)).tail (.thin trust)).trans folded.1).tail
    (.thin (.of_eq ⟨rfl, rfl, rfl⟩ rfl rfl (fun _ => rfl) (fun _ => id) rfl))

end History

namespace History

variable {c : Crypto} {Allowed : Store → Event → Prop} {s t : Store}

/-- Merging binds and labels nothing. -/
theorem ingest_bindings {published : Published} {changed : Bool} (success : ingest c s published = .ok (t, changed)) :
    t.jobCertificates = s.jobCertificates ∧ t.legacyJobs = s.legacyJobs ∧
      t.history.initialized = s.history.initialized := by
  obtain ⟨_, _, _, _, -, -, -, ⟨-, rfl⟩ | ⟨-, change, u, next, rfl⟩⟩ := (ingest_eq_ok success).merged
  · exact ⟨rfl, rfl, rfl⟩
  · obtain ⟨-, -, rfl⟩ := nextChange_eq_ok next
    exact ⟨rfl, rfl, rfl⟩

theorem mergeRows_bindings {unknown flagged : Bool} {rows : List Published}
    (success : mergeRows c s unknown rows = .ok (t, flagged)) : t.jobCertificates = s.jobCertificates := by
  induction rows generalizing s unknown with
  | nil =>
    cases success
    rfl
  | cons entry rest ih =>
    rw [mergeRows] at success
    split_ifs at success
    · rw [bind_eq_ok] at success
      obtain ⟨⟨u, changed⟩, merged, success⟩ := success
      exact (ih success).trans (ingest_bindings merged).1
    · exact ih success

theorem mergePage_bindings {peer : BodyId} {progress : Progress} {page : Page}
    (success : mergePage c s peer progress page = .ok t) : t.jobCertificates = s.jobCertificates := by
  rw [mergePage, bind_eq_ok] at success
  obtain ⟨⟨u, flagged⟩, merged, success⟩ := success
  cases success
  have same : u.jobCertificates = s.jobCertificates := mergeRows_bindings merged
  exact same

/-- A reply about a job that is not there changes nothing. -/
theorem acceptRunnerReply_of_absent {peer : BodyId} {published : Published} {v : Option Job}
    (absent : s.job? published.record.certificate.invocation.id = none)
    (success : acceptRunnerReply c s peer published = .ok (t, v)) : t = s := by
  unfold acceptRunnerReply at success
  rw [bind_eq_ok] at success
  obtain ⟨⟨⟩, -, success⟩ := success
  dsimp only at success
  rw [refuseIf_bind_eq_ok] at success
  obtain ⟨-, success⟩ := success
  rw [absent] at success
  split at success <;> cases success
  rfl

theorem acceptRunnerReply_bindings {peer : BodyId} {published : Published} {v : Option Job}
    (success : acceptRunnerReply c s peer published = .ok (t, v)) : t.jobCertificates = s.jobCertificates := by
  unfold acceptRunnerReply at success
  rw [bind_eq_ok] at success
  obtain ⟨⟨⟩, -, success⟩ := success
  dsimp only at success
  rw [refuseIf_bind_eq_ok] at success
  obtain ⟨-, success⟩ := success
  split at success
  · cases success
  split at success
  · cases success
    rfl
  rw [refuseIf_bind_eq_ok] at success
  obtain ⟨-, success⟩ := success
  rw [bind_eq_ok] at success
  obtain ⟨⟨u, changed⟩, merged, success⟩ := success
  dsimp only at success
  split_ifs at success <;> cases success <;> exact (ingest_bindings merged).1

/-- Without jobs nothing is published. -/
theorem refreshOwned_entries {newId : Result String} {previous : Option Store} (jobs : s.jobs = [])
    (success : refreshOwned c newId s previous = .ok t) : t.history.entries = s.history.entries := by
  rw [refreshOwned] at success
  dsimp only at success
  rw [bind_eq_ok] at success
  obtain ⟨u, named, success⟩ := success
  rw [bind_eq_ok] at success
  obtain ⟨v, published, success⟩ := success
  cases success
  have marked : (markLegacy s).history = s.history := by
    rw [markLegacy]
    split_ifs <;> rfl
  have epoch : u.history.entries = (markLegacy s).history.entries := by
    rw [ensureEpoch] at named
    split_ifs at named
    · rw [bind_eq_ok] at named
      obtain ⟨new, -, named⟩ := named
      cases named
      rfl
    · cases named
      rfl
  have trust : (refreshTrust c u).history.entries = u.history.entries := by
    rw [refreshTrust]
    split_ifs <;> rfl
  have idle : (refreshTrust c u).jobs = [] := by
    rw [(refreshTrust_samePublished c u).jobs, (ensureEpoch_samePublished named).jobs, (markLegacy_samePublished s).jobs,
      jobs]
  rw [idle] at published
  cases published
  change (refreshTrust c u).history.entries = s.history.entries
  rw [trust, epoch, marked]

/-! ### Edits -/

theorem touches_mergeRows {unknown flagged : Bool} {rows : List Published}
    (success : mergeRows c s unknown rows = .ok (t, flagged)) : s.Touches c Allowed t := by
  induction rows generalizing s unknown with
  | nil =>
    cases success
    exact .refl
  | cons entry rest ih =>
    rw [mergeRows] at success
    split_ifs at success
    · rw [bind_eq_ok] at success
      obtain ⟨⟨u, changed⟩, merged, success⟩ := success
      exact .head (.ingest entry changed merged) (ih success)
    · exact ih success

theorem touches_mergePage {peer : BodyId} {progress : Progress} {page : Page}
    (success : mergePage c s peer progress page = .ok t) : s.Touches c Allowed t := by
  rw [mergePage, bind_eq_ok] at success
  obtain ⟨⟨u, flagged⟩, merged, success⟩ := success
  cases success
  exact (touches_mergeRows merged).tail
    (.thin (.of_eq ⟨rfl, rfl, rfl⟩ rfl rfl (fun done => done) (fun _ present => present) rfl))

/-- A row that is put is there, and the others stay. -/
theorem rows_setJob (s : Store) (job : Job) (id : String) (present : s.job? id ≠ none) : (s.setJob job).job? id ≠ none := by
  intro absent
  by_cases same : job.id = id
  · have found : (s.setJob job).job? job.id = some job := List.find?_put _ _ _ (by simp)
    rw [same, absent] at found
    cases found
  · refine present ?_
    rw [← absent]
    refine (List.find?_put_of_ne _ _ job s.jobs (fun other here => ?_) (by simpa using same)).symm
    rw [beq_iff_eq] at here
    rw [here]
    exact beq_false_of_ne same

theorem thinned_setJob (s : Store) (job : Job) : s.Thinned (s.setJob job) :=
  .of_eq ⟨rfl, rfl, rfl⟩ rfl rfl (fun done => done) (rows_setJob s job) rfl

theorem touches_acceptRunnerReply {peer : BodyId} {published : Published} {v : Option Job}
    (success : acceptRunnerReply c s peer published = .ok (t, v)) : s.Touches c Allowed t := by
  unfold acceptRunnerReply at success
  rw [bind_eq_ok] at success
  obtain ⟨⟨⟩, -, success⟩ := success
  dsimp only at success
  rw [refuseIf_bind_eq_ok] at success
  obtain ⟨-, success⟩ := success
  split at success
  · cases success
  split at success
  · cases success
    exact .refl
  rw [refuseIf_bind_eq_ok] at success
  obtain ⟨-, success⟩ := success
  rw [bind_eq_ok] at success
  obtain ⟨⟨u, changed⟩, merged, success⟩ := success
  have first : s.Touches c Allowed u := .single (.ingest published changed merged)
  dsimp only at success
  split_ifs at success
  · cases success
    exact first
  · cases success
    refine (first.tail (.thin ?_)).tail (.thin (thinned_setJob _ _))
    exact .of_eq ⟨rfl, rfl, rfl⟩ rfl rfl (fun done => done) (fun _ present => present) rfl
  · cases success
    exact first.tail (.thin (thinned_setJob _ _))

/-- An admission enters its invocation, unless that is there, and binds its ID. -/
theorem bindAdmission_eq_ok {cert : Certificate} (success : bindAdmission c s cert = .ok t) :
    checkBinding s cert.invocation.id (invocationHash c cert) = .ok () ∧ ∃ u, ensureEntry c s cert = .ok u ∧
      t = { u with
        jobCertificates := u.jobCertificates.insert cert.invocation.id (invocationHash c cert)
        retryLinks := t.retryLinks } := by
  rw [bindAdmission, bind_eq_ok] at success
  obtain ⟨⟨⟩, checked, success⟩ := success
  rw [bind_eq_ok] at success
  obtain ⟨u, added, success⟩ := success
  refine ⟨checked, u, added, ?_⟩
  cases success
  rw [linkRetry_frame]

/-- Entering an invocation writes nothing, or an unsigned entry where there was none. -/
theorem ensureEntry_eq_ok {cert : Certificate} (success : ensureEntry c s cert = .ok t) :
    (s.history.entries.contains (invocationHash c cert) = true ∧ t = s) ∨
      (s.history.entries.get? (invocationHash c cert) = none ∧ s.history.clock.toNat + 1 < 2 ^ 64 ∧
        t = Store.setEntry { s with history := { s.history with clock := s.history.clock + 1 } }
          (invocationHash c cert) (Entry.unsigned cert (s.history.clock + 1))) := by
  rw [ensureEntry] at success
  split_ifs at success with present
  · cases success
    exact .inl ⟨present, rfl⟩
  · rw [bind_eq_ok] at success
    obtain ⟨⟨change, u⟩, stamped, success⟩ := success
    cases success
    obtain ⟨room, rfl, rfl⟩ := nextChange_eq_ok stamped
    refine .inr ⟨?_, room, rfl⟩
    rw [Bool.not_eq_true] at present
    exact Option.isSome_eq_false_iff.mp present |> Option.isNone_iff_eq_none.mp

end History

namespace Exec

variable {c : Crypto} {Allowed : Store → Event → Prop} {s t : Store}

theorem thinned_of_settings (work : s.SameWork t) (trust : s.SameTrust t) : s.Thinned t :=
  .of_eq trust work.jobCertificates work.legacyJobs (fun done => by rw [work.history]; exact done)
    (fun _ present => by rw [Store.job?, work.jobs]; exact present) (by rw [work.history])

theorem askOwner_settings {newId : Result String} {origin : BodyId} {tool : String} {e : ClixError}
    (success : askOwner newId s origin tool e = .ok t) : s.SameWork t ∧ s.SameTrust t := by
  rw [askOwner] at success
  split_ifs at success
  · rw [bind_eq_ok] at success
    obtain ⟨⟨u, request⟩, made, success⟩ := success
    cases success
    exact Request.upsert_settings made
  · cases success
    exact ⟨.refl _, .refl _⟩

theorem touches_admitEdit {env : Surroundings} {origin : BodyId} {argv : List String} {id : String}
    {cert : Option Certificate} {v : Job × Option Grant}
    (permitted : ∀ b, cert = some b → ∃ peer, Allowed s (.execCertified peer b))
    (checked : precheck c s origin argv id cert = .ok none)
    (success : admitEdit c env origin argv id cert s = .ok (t, v)) : s.Touches c Allowed t := by
  rw [admitEdit, bind_eq_ok] at success
  obtain ⟨u, bound, success⟩ := success
  have first : s.Touches c Allowed u := by
    cases cert with
    | none =>
      cases bound
      exact .refl
    | some b =>
      rw [precheck, bind_eq_ok] at checked
      obtain ⟨⟨⟩, -, checked⟩ := checked
      dsimp only at checked
      rw [bind_eq_ok] at checked
      obtain ⟨⟨⟩, certified, -⟩ := checked
      rw [checkCertificate, bind_eq_ok] at certified
      obtain ⟨⟨⟩, valid, addressed⟩ := certified
      rw [refuseIf_eq_ok, not_or, Bool.not_eq_true, Option.isSome_eq_false_iff, Option.isNone_iff_eq_none] at addressed
      obtain ⟨peer, permitted⟩ := permitted b rfl
      exact .single (.admitted peer b permitted valid addressed.1 bound)
  dsimp only at success
  split at success
  · rw [refuseIf_bind_eq_ok] at success
    obtain ⟨-, success⟩ := success
    cases success
    refine (first.tail (.thin ?_)).tail (.thin (History.thinned_setJob _ _))
    exact .of_eq ⟨rfl, rfl, rfl⟩ rfl rfl (fun done => done) (fun _ present => present) rfl
  · rw [bind_eq_ok] at success
    obtain ⟨w, asked, success⟩ := success
    cases success
    obtain ⟨work, trust⟩ := askOwner_settings asked
    exact (first.tail (.thin (thinned_of_settings work trust))).tail (.thin (History.thinned_setJob _ _))

end Exec

namespace Store

variable {c : Crypto} {Allowed : Store → Event → Prop} {s t next : Store}

/-- Rows change, and nothing that is recorded. -/
theorem thinned_of_rows {jobs : List Job} (rows : ∀ id, s.job? id ≠ none → jobs.find? (fun j => j.id == id) ≠ none) :
    s.Thinned { s with jobs := jobs } :=
  .of_eq ⟨rfl, rfl, rfl⟩ rfl rfl (fun done => done) rows rfl

/-- Setting a status keeps every row. -/
theorem rows_modifyFirst (s : Store) (id : String) (f : Job → Job) (keeps : ∀ j, (f j).id = j.id) (other : String)
    (present : s.job? other ≠ none) :
    (s.jobs.modifyFirst (fun j => j.id == id) f).find? (fun j => j.id == other) ≠ none := by
  intro absent
  refine present (List.find?_eq_none.mpr (fun j member same => ?_))
  have ids : (s.jobs.modifyFirst (fun j => j.id == id) f).map (·.id) = s.jobs.map (·.id) :=
    List.map_modifyFirst_of_eq _ _ _ _ (fun j _ _ => keeps j)
  have there : j.id ∈ s.jobs.map (·.id) := List.mem_map.mpr ⟨j, member, rfl⟩
  rw [← ids] at there
  obtain ⟨k, held, equal⟩ := List.mem_map.mp there
  rw [beq_iff_eq] at same
  exact List.find?_eq_none.mp absent k held (by rw [beq_iff_eq, equal, same])

theorem thinned_markInterrupted (s : Store) (reason : String) : s.Thinned (markInterrupted reason s) := by
  refine thinned_of_rows (fun id present absent => present ?_)
  rw [List.find?_map, Option.map_eq_none_iff] at absent
  rw [Store.job?, ← absent]
  congr 1
  funext j
  dsimp only [Function.comp]
  split_ifs <;> rfl

theorem Touch.initialized (touch : s.Touch c Allowed t) (done : s.history.initialized = true) : t.history.initialized = true := by
  cases touch with
  | thin thinned => exact thinned.initialized done
  | befriend work name seed known => rw [work.history]; exact done
  | rename work seed alone named unrecorded => rw [work.history]; exact done
  | label unlabelled unbound =>
    rw [unlabelled] at done
    cases done
  | certify old job key present unbound own ran =>
    obtain ⟨legacy, cert, -, -, -, -, rfl⟩ := History.bindOwned_eq_ok unbound ran
    exact done
  | admitted peer cert permitted valid modern ran =>
    obtain ⟨-, u, added, same⟩ := History.bindAdmission_eq_ok ran
    rw [same]
    rcases History.ensureEntry_eq_ok added with ⟨-, rfl⟩ | ⟨-, -, rfl⟩ <;> exact done
  | sign key entry job role found bound matched own owned ran =>
    obtain ⟨stdout, stderr, -, ⟨-, rfl⟩ | ⟨-, revision, signed, -, -, -, -, -, signedEntry, -, rfl⟩⟩ :=
      History.publishFact_eq_ok ran
    · exact done
    · exact done
  | ingest published changed ran => exact (History.ingest_bindings ran).2.2.trans done

/-- No row is lost. -/
theorem Touch.rows (touch : s.Touch c Allowed t) (id : String) (present : s.job? id ≠ none) : t.job? id ≠ none := by
  have of_jobs (same : t.jobs = s.jobs) : t.job? id ≠ none := by
    rw [Store.job?, same]
    exact present
  cases touch with
  | thin thinned => exact thinned.rows id present
  | befriend work name seed known => exact of_jobs work.jobs
  | rename work seed alone named unrecorded => exact of_jobs work.jobs
  | label unlabelled unbound =>
    refine of_jobs ?_
    rw [History.markLegacy]
    split_ifs <;> rfl
  | certify old job key there unbound own ran =>
    obtain ⟨legacy, cert, -, -, -, -, rfl⟩ := History.bindOwned_eq_ok unbound ran
    exact present
  | admitted peer cert permitted valid modern ran =>
    refine of_jobs ?_
    rw [History.bindAdmission_frame ran]
  | sign key entry job role found bound matched own owned ran =>
    obtain ⟨stdout, stderr, -, ⟨-, rfl⟩ | ⟨-, revision, signed, -, -, -, -, -, signedEntry, -, rfl⟩⟩ :=
      History.publishFact_eq_ok ran
    · exact present
    · exact present
  | ingest published changed ran =>
    exact Thinned.rows_of_desk (congrArg Desk.rows (History.ingest_samePublished ran).desk) id present

theorem Touches.rows (touches : s.Touches c Allowed t) (id : String) (present : s.job? id ≠ none) : t.job? id ≠ none := by
  induction touches with
  | refl => exact present
  | tail _ last ih => exact last.rows id ih

theorem Touches.initialized (touches : s.Touches c Allowed t) (done : s.history.initialized = true) :
    t.history.initialized = true := by
  induction touches with
  | refl => exact done
  | tail _ last ih => exact last.initialized ih

theorem Edits.touches (edits : s.Edits c Allowed t) (begun : s.Begun) : s.Touches c Allowed t := by
  cases edits with
  | settings work trust => exact .single (.thin (Exec.thinned_of_settings work trust))
  | renamed work key alone left named idle =>
    refine .single (.rename work key alone named (fun already => begun.alone alone (idle.resolve_left ?_)))
    rw [already]
    exact Bool.true_eq_false_eq_False
  | paired peer ran =>
    obtain ⟨valid, frame, kept⟩ := Pair.updatePeer_eq_ok ran
    refine .single (.befriend ?_ (by rw [frame]) (by rw [frame]) (fun name key known => Pair.knownKey_of_updatePeer ran known))
    rw [SameWork]
    conv_lhs => rw [frame]
    rw [frame]
  | admitted env origin argv id cert v initialized named permitted checked ran =>
    exact Exec.touches_admitEdit permitted checked ran
  | enqueued job retryOf queued silent fresh ran =>
    cases ran
    rw [History.linkRetry_frame]
    refine .single (.thin (.of_eq ⟨rfl, rfl, rfl⟩ rfl rfl (fun done => done) (fun id present absent => ?_) rfl))
    rw [Store.job?, List.find?_append] at absent
    cases found : s.job? id with
    | none => exact present found
    | some job =>
      rw [Store.job?] at found
      rw [found] at absent
      cases absent
  | answered peer incoming job dispatch permitted ran other => exact .single (.thin (History.thinned_setJob s job))
  | undelivered id e job ran other => exact .single (.thin (History.thinned_setJob s job))
  | replied peer published v ran other => exact History.touches_acceptRunnerReply ran
  | merged peer progress page known ran => exact History.touches_mergePage ran
  | pruned keep removed ran => exact .single (.thin (Storage.prune_thinned ran))
  | refusedLocally id e ran =>
    rw [Dispatch.localError] at ran
    split at ran
    · cases ran
    · split_ifs at ran
      · cases ran
        exact .refl
      · cases ran
        exact .single (.thin (thinned_of_rows (rows_modifyFirst s id _ (fun _ => rfl))))
  | finished grant run outcome going tool ran =>
    rw [Exec.finishEdit] at ran
    split at ran
    · cases ran
    · cases ran
      refine (Relation.ReflTransGen.single (.thin ?_)).tail (.thin (History.thinned_setJob _ _))
      exact .of_eq ⟨rfl, rfl, rfl⟩ rfl rfl (fun done => done) (fun _ present => present) rfl
  | recovered => exact .single (.thin (thinned_markInterrupted s _))

/-- Before the history begins no edit binds anything. -/
theorem Edits.unbound (edits : s.Edits c Allowed t) (begun : s.Begun) (undone : t.history.initialized = false) :
    t.jobCertificates = ∅ := by
  have earlier : s.history.initialized = false := by
    by_contra done
    rw [Bool.not_eq_false] at done
    exact absurd (undone.symm.trans (Touches.initialized (edits.touches begun) done)) Bool.false_ne_true
  suffices same : t.jobCertificates = s.jobCertificates from same.trans (begun.unbound earlier)
  cases edits with
  | settings work trust => exact work.jobCertificates
  | renamed work key alone left named idle => exact work.jobCertificates
  | paired peer ran => rw [(Pair.updatePeer_eq_ok ran).2.1]
  | admitted env origin argv id cert v initialized named permitted checked ran =>
    rw [earlier] at initialized
    cases initialized
  | enqueued job retryOf queued silent fresh ran =>
    cases ran
    rw [History.linkRetry_frame]
  | answered | undelivered | recovered => rfl
  | replied peer published v ran other => exact History.acceptRunnerReply_bindings ran
  | merged peer progress page known ran => exact History.mergePage_bindings ran
  | pruned keep removed ran => exact (Storage.prune_thinned ran).bindings
  | refusedLocally id e ran =>
    rw [Dispatch.localError] at ran
    split at ran
    · cases ran
    · split_ifs at ran <;> cases ran <;> rfl
  | finished grant run outcome going tool ran =>
    rw [Exec.finishEdit] at ran
    split at ran
    · cases ran
    · cases ran
      rfl

theorem jobs_eq_nil_of_absent (absent : ∀ id, s.job? id = none) : s.jobs = [] := by
  cases same : s.jobs with
  | nil => rfl
  | cons job rest =>
    have found := absent job.id
    rw [job?, same, List.find?_cons_of_pos (by simp)] at found
    cases found

theorem job?_of_nil (jobs : s.jobs = []) (id : String) : s.job? id = none := by
  rw [job?, jobs]
  rfl

theorem Thinned.get?_eq_none (thinned : s.Thinned t) {key : String} (absent : s.history.entries.get? key = none) :
    t.history.entries.get? key = none := by
  have same := thinned.records key
  rw [absent, Option.map_none, Option.map_eq_none_iff] at same
  exact same

/-- A machine without peers and jobs still has no records. -/
theorem Edits.alone (edits : s.Edits c Allowed t) (begun : s.Begun) (peers : t.peers = []) (jobs : t.jobs = [])
    (key : String) : t.history.entries.get? key = none := by
  have absent (id : String) : s.job? id = none := by
    by_contra present
    exact Touches.rows (edits.touches begun) id present (job?_of_nil jobs id)
  have idle := jobs_eq_nil_of_absent absent
  have put (u : Store) (job : Job) (same : u.setJob job = t) : False := by
    have found : (u.setJob job).job? job.id = some job := List.find?_put _ _ _ (by simp)
    rw [same, job?_of_nil jobs] at found
    cases found
  cases edits with
  | settings work trust =>
    rw [work.history]
    exact begun.alone (trust.peers ▸ peers) idle key
  | renamed work ownerSk alone left named quiet =>
    rw [work.history]
    exact begun.alone alone idle key
  | paired peer ran =>
    obtain ⟨-, frame, kept⟩ := Pair.updatePeer_eq_ok ran
    have lonely : s.peers = [] := by
      rw [List.eq_nil_iff_forall_not_mem]
      intro p member
      obtain ⟨q, there, -⟩ := kept p member
      rw [peers] at there
      exact List.not_mem_nil there
    rw [frame]
    exact begun.alone lonely idle key
  | admitted env origin argv id cert v initialized named permitted checked ran =>
    exfalso
    rw [Exec.admitEdit, bind_eq_ok] at ran
    obtain ⟨u, -, ran⟩ := ran
    dsimp only at ran
    split at ran
    · rw [refuseIf_bind_eq_ok] at ran
      obtain ⟨-, ran⟩ := ran
      cases ran
      exact put _ _ rfl
    · rw [bind_eq_ok] at ran
      obtain ⟨w, -, ran⟩ := ran
      cases ran
      exact put _ _ rfl
  | enqueued job retryOf queued silent fresh ran =>
    cases ran
    exact absurd jobs (by simp)
  | answered peer incoming job dispatch permitted ran other => exact (put s job rfl).elim
  | undelivered id e job ran other => exact (put s job rfl).elim
  | replied peer published v ran other =>
    rw [History.acceptRunnerReply_of_absent (absent _) ran] at peers ⊢
    exact begun.alone peers idle key
  | merged peer progress page known ran =>
    obtain ⟨p, member, -⟩ := known
    rw [← (History.mergePage_samePublished ran).peers, peers] at member
    exact absurd member List.not_mem_nil
  | pruned keep removed ran =>
    have thinned := Storage.prune_thinned ran
    exact thinned.get?_eq_none (begun.alone (thinned.trust.peers ▸ peers) idle key)
  | refusedLocally id e ran =>
    rw [Dispatch.localError, absent id] at ran
    cases ran
  | finished grant run outcome going tool ran =>
    rw [Exec.finishEdit, absent] at ran
    cases ran
  | recovered => exact begun.alone peers idle key

/-- Everything an update records, call by call. -/
theorem Writes.touches (writes : s.Writes c Allowed next) (begun : s.Begun) : s.Touches c Allowed next := by
  obtain ⟨-, edited, refreshed, epochId, edits, published, fits⟩ := writes
  have versioned : refreshed.Thinned { refreshed with formatVersion := formatVersionNow } :=
    .of_eq ⟨rfl, rfl, rfl⟩ rfl rfl (fun done => done) (fun _ present => present) rfl
  have normal := versioned.trans (History.normalizeOutput_thinned { refreshed with formatVersion := formatVersionNow })
  have pruned := normal.trans (Storage.evict_thinned (Storage.prepare_eq_ok fits).2.1)
  exact ((edits.touches begun).trans (History.touches_refreshOwned (edits.unbound begun) published)).tail (.thin pruned)

theorem Writes.begun (writes : s.Writes c Allowed next) (begun : s.Begun) : next.Begun := by
  refine ⟨fun undone => absurd (writes.initialized.symm.trans undone) (by decide), fun peers jobs key => ?_⟩
  obtain ⟨-, edited, refreshed, epochId, edits, published, fits⟩ := writes
  have one := History.refreshOwned_samePublished published
  have two := History.normalizeOutput_samePruned { refreshed with formatVersion := formatVersionNow }
  have three := Storage.evict_samePruned (Storage.prepare_eq_ok fits).2.1
  have idle : edited.jobs = [] := by
    have rows := congrArg Desk.rows ((three.desk.trans two.desk).trans one.desk)
    change next.jobs.map Job.row = edited.jobs.map Job.row at rows
    rw [jobs, List.map_nil, eq_comm, List.map_eq_nil_iff] at rows
    exact rows
  have lonely : edited.peers = [] := ((three.peers.trans two.peers).trans one.peers).symm.trans peers
  have normal := History.normalizeOutput_thinned { refreshed with formatVersion := formatVersionNow }
  refine (normal.trans (Storage.evict_thinned (Storage.prepare_eq_ok fits).2.1)).get?_eq_none ?_
  change refreshed.history.entries.get? key = none
  rw [History.refreshOwned_entries idle published]
  exact edits.alone begun lonely idle key

theorem Notes.thinned (notes : s.Notes t) : s.Thinned t := by
  cases notes with
  | contact peer p => exact .of_eq ⟨rfl, rfl, rfl⟩ rfl rfl (fun done => done) (fun _ present => present) rfl
  | gaveUp id e allowed => exact thinned_of_rows (rows_modifyFirst s id _ (fun _ => rfl))
  | recoveryFailed e =>
    have stopped : s.Thinned { s with writeError := some (s.writeError.getD e.text) } :=
      .of_eq ⟨rfl, rfl, rfl⟩ rfl rfl (fun done => done) (fun _ present => present) rfl
    exact stopped.trans (thinned_markInterrupted _ _)

theorem thinned_reloaded (s : Store) : s.Thinned s.reloaded :=
  .of_eq ⟨rfl, rfl, rfl⟩ rfl rfl (fun done => done) (fun _ present => present) rfl

theorem thinned_stopped (s : Store) (e : Option String) : s.Thinned { s with writeError := e } :=
  .of_eq ⟨rfl, rfl, rfl⟩ rfl rfl (fun done => done) (fun _ present => present) rfl

theorem Thinned.begun (thinned : s.Thinned t) (begun : s.Begun) : t.Begun := by
  refine ⟨fun undone => ?_, fun peers jobs key => ?_⟩
  · rw [thinned.bindings]
    refine begun.unbound ?_
    by_contra done
    rw [Bool.not_eq_false] at done
    rw [thinned.initialized done] at undone
    cases undone
  · have idle := jobs_eq_nil_of_absent (s := s) (fun id => by
      by_contra present
      exact thinned.rows id present (job?_of_nil jobs id))
    exact thinned.get?_eq_none (begun.alone (thinned.trust.peers ▸ peers) idle key)

theorem Completes.begun (completes : s.Completes t) (begun : s.Begun) : t.Begun := by
  cases completes <;> exact ⟨begun.unbound, begun.alone⟩

end Store

/-- A property that each recording call keeps, and that completing a name or a key keeps, is sustained. -/
theorem Sustained.of_touch {c : Crypto} {Allowed : Store → Event → Prop} {P : Store → Prop}
    (touch : ∀ s t, s.Touch c Allowed t → P s → P t) (complete : ∀ s t, s.Completes t → P s → P t) :
    Sustained c Allowed (fun s => s.Begun ∧ P s) where
  write s next writes holds := by
    refine ⟨writes.begun holds.1, ?_⟩
    have touches := writes.touches holds.1
    have start := holds.2
    clear holds writes
    induction touches with
    | refl => exact start
    | tail _ last ih => exact touch _ _ last ih
  note s t notes holds := ⟨notes.thinned.begun holds.1, touch s t (.thin notes.thinned) holds.2⟩
  complete s t completes holds := ⟨completes.begun holds.1, complete s t completes holds.2⟩
  reload s holds := ⟨(Store.thinned_reloaded s).begun holds.1, touch s _ (.thin (Store.thinned_reloaded s)) holds.2⟩
  stop s e holds := ⟨(Store.thinned_stopped s e).begun holds.1, touch s _ (.thin (Store.thinned_stopped s e)) holds.2⟩

/-- A state with which a machine begins: just created, or saved before anything was signed. -/
structure Store.Initial (s : Store) : Prop where
  named : Pair.isName s.bodyName = true
  unique : s.desk.Unique
  unbound : s.jobCertificates = ∅
  unlabelled : s.legacyJobs = ∅
  unrecorded : s.history.entries = ∅

theorem Store.Initial.inv {c : Crypto} {s : Store} (initial : s.Initial) : Daemon.Inv c (Daemon.installed s) :=
  Daemon.inv_installed initial.named initial.unique

theorem Store.Initial.begun {s : Store} (initial : s.Initial) : s.Begun where
  unbound _ := initial.unbound
  alone _ _ key := by
    rw [initial.unrecorded]
    rfl

end Clix
