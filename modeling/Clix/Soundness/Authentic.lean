import Clix.Proofs.Labels

/-! # Who wrote the history

Every entry of a machine's history stands under the hash of its invocation. Its certificate and its facts are signed by
the keys that the certificate names, the machine knows their owners by these keys, and the bytes kept with an entry are
those that its selected fact describes. So whoever passed a record on, it says what its authors signed.
-/

namespace Clix

open Except DurableCell

/-- A fact that the author of a role signed about the invocation of a key. -/
structure SignedFact.By (c : Crypto) (key : String) (i : Invocation) (role : Role) (signed : SignedFact) : Prop where
  written : signed.fact.role = role
  bound : signed.fact.invocation = key
  signed : History.verify c "fact" signed.fact signed.signature (i.keyOf role) = .ok ()

/-- An entry that says what its authors signed, each known to a machine by the key in the certificate. -/
structure Entry.Authentic (c : Crypto) (s : Store) (key : String) (e : Entry) : Prop where
  keyed : History.invocationHash c e.record.certificate = key
  observer : ∀ observer, e.record.certificate.invocation.legacyObserver = some observer →
    observer = e.record.certificate.invocation.origin ∨ observer = e.record.certificate.invocation.body
  certified : History.verify c "invocation" e.record.certificate.invocation e.record.certificate.signature
    (e.record.certificate.invocation.keyOf e.record.certificate.invocation.signer) = .ok ()
  paired : e.record.certificate.invocation.Paired c s
  origin : ∀ signed, e.record.origin = some signed →
    signed.By c key e.record.certificate.invocation e.record.certificate.invocation.originRole
  runner : ∀ signed, e.record.runner = some signed → e.record.certificate.invocation.legacyObserver = none ∧
    signed.By c key e.record.certificate.invocation .runner
  output : ∀ output, e.output = some output →
    ∃ signed, e.record.selected = some signed ∧ History.outputMatches c output signed.fact = true

/-- Every entry is authentic, and a job is bound to a modern certificate or to one of this machine. -/
structure Store.Authentic (c : Crypto) (s : Store) : Prop where
  named : Pair.isName s.bodyName = true
  entries : ∀ key e, s.history.entries.get? key = some e → e.Authentic c s key
  entered : ∀ id key, s.jobCertificates.get? id = some key → ∃ e, s.history.entries.get? key = some e
  bound : ∀ id key e, s.jobCertificates.get? id = some key → s.history.entries.get? key = some e →
    e.record.certificate.invocation.legacyObserver = none ∨
      e.record.certificate.invocation.legacyObserver = some ⟨s.bodyName⟩

/-- A certificate presented for execution has the hash of no other invocation that is stored. -/
def Store.MeetsNoCollision (c : Crypto) (s : Store) (e : Event) : Prop :=
  ∀ peer cert entry, e = .execCertified peer cert →
    s.history.entries.get? (History.invocationHash c cert) = some entry →
    entry.record.certificate.invocation = cert.invocation

theorem Invocation.Paired.mono {c : Crypto} {s t : Store} {i : Invocation}
    (known : ∀ name key, History.knownKey c s name = .ok key → History.knownKey c t name = .ok key)
    (paired : i.Paired c s) : i.Paired c t := by
  unfold Invocation.Paired at *
  split at paired
  · exact known _ _ paired
  · exact ⟨known _ _ paired.1, known _ _ paired.2⟩

namespace History

variable {c : Crypto} {s : Store}

/-- A merge keeps one of the two facts. -/
theorem mergeFact_cases {existing incoming result : Option SignedFact} {changed : Bool}
    (success : mergeFact existing incoming = .ok (result, changed)) :
    (result = existing ∨ result = incoming) ∧ (existing ≠ none → result ≠ none) := by
  unfold mergeFact at success
  split at success
  · cases success
    exact ⟨.inl rfl, id⟩
  · cases success
    exact ⟨.inr rfl, fun _ => by simp⟩
  · split_ifs at success <;> cases success
    · exact ⟨.inl rfl, id⟩
    · exact ⟨.inl rfl, id⟩
    · exact ⟨.inr rfl, fun _ => by simp⟩

/-- What is kept after a merge matches the selected fact. -/
theorem mergeOutput_matches {key : String} {entry : Entry} {incoming : Option CapturedOutput} {output : CapturedOutput}
    (kept : (mergeOutput c s key entry incoming).1 = some output)
    (before : entry.record.selected = none → entry.output = none) :
    ∃ signed, entry.record.selected = some signed ∧ outputMatches c output signed.fact = true := by
  unfold mergeOutput at kept
  split_ifs at kept
  split at kept
  · next absent =>
    rw [before absent] at kept
    cases kept
  · next signed selected =>
    refine ⟨signed, selected, ?_⟩
    dsimp only at kept
    split_ifs at kept with stale
    rw [Bool.not_eq_true, Option.any_eq_false] at stale
    have fine := stale output kept
    simpa using fine

theorem keptOutput_matches {entry : Entry} {job : Job} {output : CapturedOutput} {signed : SignedFact}
    (selected : entry.record.selected = some signed) (kept : keptOutput c s entry job = some output) :
    outputMatches c output signed.fact = true := by
  rw [keptOutput, selected] at kept
  dsimp only at kept
  split_ifs at kept
  exact (Option.filter_eq_some_iff.mp kept).2

/-- The output that is chosen is what the selected fact describes. -/
theorem selectedOutput_matches {entry : Entry} {localJob : Option Job} {output : CapturedOutput}
    (chosen : selectedOutput c s entry localJob = some output) :
    ∃ signed, entry.record.selected = some signed ∧ outputMatches c output signed.fact = true := by
  rw [selectedOutput] at chosen
  split at chosen
  · cases chosen
  · next signed selected =>
    refine ⟨signed, selected, ?_⟩
    dsimp only at chosen
    split_ifs at chosen
    split at chosen
    · next job found =>
      cases chosen
      have held := (Option.filter_eq_some_iff.mp found).2
      simp only [holdsOutput, Bool.and_eq_true] at held
      simp only [outputMatches, Bool.and_eq_true]
      exact ⟨held.2.1.2, held.2.2⟩
    · exact (Option.filter_eq_some_iff.mp chosen).2

/-- What is published with a record is what its selected fact describes. -/
theorem exportEntry_matches {entry : Entry} {output : CapturedOutput}
    (exported : (exportEntry c s entry).output = some output) :
    ∃ signed, entry.record.selected = some signed ∧ outputMatches c output signed.fact = true :=
  selectedOutput_matches exported

end History

/-! ## What each call does to the entries -/

namespace Entry.Authentic

variable {c : Crypto} {s t : Store} {key : String} {e : Entry}

theorem congr (authentic : e.Authentic c s key) {e' : Entry} (record : e'.record = e.record)
    (output : e'.output = none ∨ e'.output = e.output)
    (known : ∀ name k, History.knownKey c s name = .ok k → History.knownKey c t name = .ok k) :
    e'.Authentic c t key := by
  obtain ⟨record', change, output'⟩ := e'
  obtain rfl : record' = e.record := record
  refine ⟨authentic.keyed, authentic.observer, authentic.certified, authentic.paired.mono known, authentic.origin,
    authentic.runner, fun o here => ?_⟩
  rcases output with gone | kept
  · rw [here] at gone
    cases gone
  · exact authentic.output o (kept.symm.trans here)

/-- A certificate whose facts are still to come. -/
theorem of_unsigned {cert : Certificate} {change : UInt64} (keyed : History.invocationHash c cert = key)
    (observer : ∀ o, cert.invocation.legacyObserver = some o → o = cert.invocation.origin ∨ o = cert.invocation.body)
    (certified : History.verify c "invocation" cert.invocation cert.signature
      (cert.invocation.keyOf cert.invocation.signer) = .ok ())
    (paired : cert.invocation.Paired c s) : (History.Entry.unsigned cert change).Authentic c s key :=
  ⟨keyed, observer, certified, paired, nofun, nofun, nofun⟩

end Entry.Authentic

namespace Store.Authentic

variable {c : Crypto} {Allowed : Store → Event → Prop} {s t : Store}

/-- Writing one authentic entry, of a certificate that may stand where the key is bound. -/
theorem setEntry (authentic : s.Authentic c) {key : String} {new : Entry} (here : new.Authentic c s key)
    (mine : ∀ id, s.jobCertificates.get? id = some key →
      new.record.certificate.invocation.legacyObserver = none ∨
        new.record.certificate.invocation.legacyObserver = some ⟨s.bodyName⟩)
    (clock : UInt64) :
    (Store.setEntry { s with history := { s.history with clock := clock } } key new).Authentic c := by
  refine ⟨authentic.named, fun other e found => ?_, fun id other bound => ?_, fun id other e bound found => ?_⟩
  · change (s.history.entries.insert key new).get? other = some e at found
    rw [OrdMap.get?_insert] at found
    split_ifs at found with same
    · cases found
      rw [same]
      exact here.congr rfl (.inr rfl) (fun _ _ known => known)
    · exact (authentic.entries other e found).congr rfl (.inr rfl) (fun _ _ known => known)
  · change ∃ e, (s.history.entries.insert key new).get? other = some e
    rw [OrdMap.get?_insert]
    split_ifs
    · exact ⟨new, rfl⟩
    · exact authentic.entered id other bound
  · change (s.history.entries.insert key new).get? other = some e at found
    rw [OrdMap.get?_insert] at found
    split_ifs at found with same
    · cases found
      exact mine id (same ▸ bound)
    · exact authentic.bound id other e bound found

theorem congr (authentic : s.Authentic c) (work : s.SameWork t) (name : t.bodyName = s.bodyName)
    (known : ∀ name k, History.knownKey c s name = .ok k → History.knownKey c t name = .ok k) : t.Authentic c := by
  refine ⟨name ▸ authentic.named, fun key e found => ?_, fun id key bound => ?_, fun id key e bound found => ?_⟩
  · rw [work.history] at found
    exact (authentic.entries key e found).congr rfl (.inr rfl) known
  · rw [work.jobCertificates] at bound
    rw [work.history]
    exact authentic.entered id key bound
  · rw [work.jobCertificates] at bound
    rw [work.history] at found
    rw [name]
    exact authentic.bound id key e bound found

theorem thin (authentic : s.Authentic c) (thinned : s.Thinned t) : t.Authentic c := by
  have before (key : String) (e : Entry) (found : t.history.entries.get? key = some e) :
      ∃ e', s.history.entries.get? key = some e' ∧ e'.record = e.record := by
    have same := thinned.records key
    rw [found, Option.map_some, eq_comm, Option.map_eq_some_iff] at same
    exact same
  refine ⟨thinned.trust.bodyName ▸ authentic.named, fun key e found => ?_, fun id key bound => ?_,
    fun id key e bound found => ?_⟩
  · obtain ⟨e', there, record⟩ := before key e found
    refine (authentic.entries key e' there).congr record.symm ?_
      (fun name k known => (thinned.trust.knownKey name).trans known)
    rcases thinned.outputs key e found with gone | ⟨e'', again, same⟩
    · exact .inl gone
    · obtain rfl : e' = e'' := Option.some.inj (there.symm.trans again)
      exact .inr same.symm
  · rw [thinned.bindings] at bound
    obtain ⟨e, found⟩ := authentic.entered id key bound
    obtain ⟨e', there, -⟩ := thinned.keepsEntries key e found
    exact ⟨e', there⟩
  · rw [thinned.bindings] at bound
    obtain ⟨e', there, record⟩ := before key e found
    rw [← record, thinned.trust.bodyName]
    exact authentic.bound id key e' bound there

/-- Certifying a job of this machine. -/
theorem certify (authentic : s.Authentic c) {old : List Job} {job : Job} {key : String}
    (unbound : s.jobCertificates.get? job.id = none) (own : job.origin.name = s.bodyName ∨ job.body.name = s.bodyName)
    (success : History.bindOwned c old s job = .ok (t, key)) : t.Authentic c := by
  obtain ⟨legacy, cert, chosen, made, rfl, -, rfl⟩ := History.bindOwned_eq_ok unbound success
  obtain ⟨-, -, -, -, -, observer, -, -, -, signature⟩ := History.certificate_eq_ok made
  have mine : cert.invocation.legacyObserver = none ∨ cert.invocation.legacyObserver = some ⟨s.bodyName⟩ := by
    rw [observer]
    split_ifs
    · exact .inr rfl
    · exact .inl rfl
  have signer := History.certified_own own chosen made
  have new : (History.Entry.unsigned cert (s.history.clock + 1)).Authentic c s (History.invocationHash c cert) := by
    refine .of_unsigned rfl signer.2.2 ?_ signer.1
    rw [signer.2.1, signature]
    exact History.verify_own _ _ _
  have written := authentic.setEntry new (fun _ _ => mine) (s.history.clock + 1)
  refine ⟨written.named, fun key e found => (written.entries key e found).congr rfl (.inr rfl) (fun _ _ known => known),
    fun id key bound => ?_, fun id key e bound found => ?_⟩
  · dsimp only at bound
    rw [OrdMap.get?_insert] at bound
    split_ifs at bound with same
    · cases bound
      exact ⟨_, OrdMap.get?_insert_self _ _ _⟩
    · exact written.entered id key bound
  · dsimp only at bound
    rw [OrdMap.get?_insert] at bound
    split_ifs at bound with same
    · cases bound
      rw [show e = History.Entry.unsigned cert (s.history.clock + 1) from
        (Option.some.inj ((OrdMap.get?_insert_self _ _ _).symm.trans found)).symm]
      exact mine
    · exact written.bound id key e bound found

/-- Admitting a certificate that has the hash of no other invocation. -/
theorem admit_of (authentic : s.Authentic c) {cert : Certificate}
    (distinct : ∀ entry, s.history.entries.get? (History.invocationHash c cert) = some entry →
      entry.record.certificate.invocation = cert.invocation)
    (valid : History.validateInvocation c s cert = .ok ()) (modern : cert.invocation.legacyObserver = none)
    (success : History.bindAdmission c s cert = .ok t) : t.Authentic c := by
  obtain ⟨genuine, paired⟩ := History.validateInvocation_eq_ok.mp valid
  obtain ⟨-, u, added, same⟩ := History.bindAdmission_eq_ok success
  have entered : u.Authentic c ∧ ∃ e, u.history.entries.get? (History.invocationHash c cert) = some e ∧
      e.record.certificate.invocation.legacyObserver = none := by
    rcases History.ensureEntry_eq_ok added with ⟨present, rfl⟩ | ⟨-, -, rfl⟩
    · obtain ⟨e, found⟩ := OrdMap.contains_eq_true_iff.mp present
      exact ⟨authentic, e, found, by rw [distinct e found, modern]⟩
    · refine ⟨authentic.setEntry ?_ (fun _ _ => .inl modern) _, _, OrdMap.get?_insert_self _ _ _, modern⟩
      exact .of_unsigned rfl genuine.observer genuine.signed paired
  obtain ⟨entries, e, found, plain⟩ := entered
  rw [same]
  refine ⟨entries.named, fun key e' there => (entries.entries key e' there).congr rfl (.inr rfl) (fun _ _ known => known),
    fun id key bound => ?_, fun id key e' bound there => ?_⟩
  · dsimp only at bound
    rw [OrdMap.get?_insert] at bound
    split_ifs at bound with here
    · cases bound
      exact ⟨e, found⟩
    · exact entries.entered id key bound
  · dsimp only at bound
    rw [OrdMap.get?_insert] at bound
    split_ifs at bound with here
    · cases bound
      obtain rfl : e = e' := Option.some.inj (found.symm.trans there)
      exact .inl plain
    · exact entries.bound id key e' bound there

/-- Signing a fact of this machine. -/
theorem sign (authentic : s.Authentic c) {key : String} {entry : Entry} {job : Job} {role : Role}
    (found : s.history.entries.get? key = some entry) (bound : s.jobCertificates.get? job.id = some key)
    (matched : History.matchesJob entry.record.certificate job = true)
    (owned : History.ownedRole s entry.record job = some role)
    (success : History.publishFact c s key entry job role = .ok t) : t.Authentic c := by
  obtain ⟨stdout, stderr, -, ⟨-, rfl⟩ | ⟨-, revision, signed, -, fact, length, signature, -, signedEntry, equal, rfl⟩⟩ :=
    History.publishFact_eq_ok success
  · exact authentic
  have here := authentic.entries key entry found
  obtain ⟨-, origin, body, -⟩ := History.matchesJob_eq_true matched
  -- The role that this machine owns is the one its key is given to.
  have mine : (role = .runner ∧ entry.record.certificate.invocation.legacyObserver = none ∨
      role = entry.record.certificate.invocation.originRole ∧ role ≠ .runner) ∧
      entry.record.certificate.invocation.keyOf role = c.verifyingKey s.ownerSk := by
    have paired := here.paired
    unfold Invocation.Paired at paired
    unfold History.ownedRole at owned
    rw [Invocation.originRole, Invocation.signer]
    cases legacy : entry.record.certificate.invocation.legacyObserver with
    | some observer =>
      rw [legacy] at owned paired
      obtain rfl : Role.legacyObserver = role := Option.some.inj owned
      refine ⟨.inr ⟨rfl, by decide⟩, ?_⟩
      rcases authentic.bound job.id key entry bound found with absent | self
      · rw [legacy] at absent
        cases absent
      · rw [legacy] at self
        cases self
        dsimp only at paired
        rw [History.knownKey_own rfl length] at paired
        exact (Except.ok.inj paired).symm
    | none =>
      rw [legacy, Option.isSome_none, if_neg Bool.false_ne_true] at owned
      rw [legacy] at paired
      dsimp only at paired
      split_ifs at owned with runs asks
      · cases owned
        refine ⟨.inl ⟨rfl, rfl⟩, ?_⟩
        have known := paired.2
        rw [History.knownKey_own (by rw [body]; exact runs.1) length] at known
        exact (Except.ok.inj known).symm
      · cases owned
        refine ⟨.inr ⟨rfl, by decide⟩, ?_⟩
        have known := paired.1
        rw [History.knownKey_own (by rw [origin]; exact asks.1) length] at known
        exact (Except.ok.inj known).symm
  have by' : signed.By c key entry.record.certificate.invocation role := by
    refine ⟨by rw [fact], by rw [fact], ?_⟩
    rw [mine.2, signature]
    exact History.verify_own _ _ _
  have certificate : (History.Record.setFact entry.record role signed).certificate = entry.record.certificate := by
    cases role <;> rfl
  refine authentic.setEntry ?_ (fun id there => ?_) _
  · rw [equal]
    refine ⟨?_, ?_, ?_, ?_, fun other there => ?_, fun other there => ?_, fun output kept => ?_⟩
    · dsimp only
      rw [certificate]
      exact here.keyed
    · dsimp only
      rw [certificate]
      exact here.observer
    · dsimp only
      rw [certificate]
      exact here.certified
    · dsimp only
      rw [certificate]
      exact here.paired
    · dsimp only at there ⊢
      rw [certificate]
      cases role with
      | runner => exact here.origin other there
      | origin | legacyObserver =>
        cases there
        rw [← (mine.1.resolve_left (fun left => absurd left.1 (by decide))).1]
        exact by'
    · dsimp only at there ⊢
      rw [certificate]
      cases role with
      | runner =>
        cases there
        exact ⟨(mine.1.resolve_right (fun right => right.2 rfl)).2, by'⟩
      | origin | legacyObserver => exact here.runner other there
    · dsimp only at kept ⊢
      have present : ∃ latest, (History.Record.setFact entry.record role signed).selected = some latest := by
        cases role with
        | runner => exact ⟨signed, rfl⟩
        | origin | legacyObserver =>
          cases old : entry.record.runner with
          | none => exact ⟨signed, by simp [Record.selected, History.Record.setFact, old]⟩
          | some latest => exact ⟨latest, by simp [Record.selected, History.Record.setFact, old]⟩
      obtain ⟨latest, selected⟩ := present
      exact ⟨latest, selected, History.keptOutput_matches selected kept⟩
  · rw [equal]
    dsimp only
    rw [certificate]
    exact authentic.bound id key entry there found

theorem base_of (authentic : s.Authentic c) {record : Record} (genuine : record.Genuine c)
    (paired : record.certificate.invocation.Paired c s) :
    (History.base s c record.certificate).Authentic c s (History.invocationHash c record.certificate) := by
  rw [History.base]
  cases found : s.history.entries.get? (History.invocationHash c record.certificate) with
  | none => exact .of_unsigned rfl genuine.certificate.observer genuine.certificate.signed paired
  | some e => exact authentic.entries _ e found

end Store.Authentic

/-- An entry with the facts of another record merged in, and with bytes that match. -/
theorem Entry.Authentic.merged {c : Crypto} {s : Store} {key : String} {e : Entry} (authentic : e.Authentic c s key)
    {record : Record} (genuine : record.Genuine c) (certificate : e.record.certificate = record.certificate)
    (hash : History.invocationHash c record.certificate = key) {origin runner : Option SignedFact} {changed changed' : Bool}
    (originMerged : History.mergeFact e.record.origin record.origin = .ok (origin, changed))
    (runnerMerged : History.mergeFact e.record.runner record.runner = .ok (runner, changed'))
    {offered : Option CapturedOutput} {change : UInt64} {new : Entry}
    (same : new = { e with
      record := ⟨record.certificate, origin, runner⟩
      change := change
      output := (History.mergeOutput c s key { e with record := ⟨record.certificate, origin, runner⟩ } offered).1 }) :
    new.Authentic c s key := by
  obtain ⟨originFrom, originKept⟩ := History.mergeFact_cases originMerged
  obtain ⟨runnerFrom, runnerKept⟩ := History.mergeFact_cases runnerMerged
  have incoming {role : Role} {signed : SignedFact} (wrote : signed.Genuine c record.certificate role) :
      signed.By c key record.certificate.invocation role := ⟨wrote.written, wrote.bound.trans hash, wrote.signed⟩
  have paired := authentic.paired
  rw [certificate] at paired
  subst same
  refine ⟨hash, genuine.certificate.observer, genuine.certificate.signed, paired, fun signed there => ?_,
    fun signed there => ?_, fun output kept => ?_⟩
  · dsimp only at there ⊢
    rcases originFrom with held | offered
    · rw [held] at there
      have old := authentic.origin signed there
      rwa [certificate] at old
    · rw [offered] at there
      exact incoming (genuine.origin signed there)
  · dsimp only at there ⊢
    rcases runnerFrom with held | offered
    · rw [held] at there
      have old := authentic.runner signed there
      rwa [certificate] at old
    · rw [offered] at there
      exact ⟨(genuine.runner signed there).may.1, incoming (genuine.runner signed there)⟩
  · dsimp only at kept ⊢
    refine History.mergeOutput_matches kept (fun unselected => ?_)
    -- Facts are never dropped, so without one now there was none before, and no bytes either.
    cases stored : e.output with
    | none => rfl
    | some output =>
      exfalso
      obtain ⟨signed, selected, -⟩ := authentic.output output stored
      rw [Record.selected] at unselected
      have absent : runner = none ∧ origin = none := by
        cases runner with
        | some latest => cases unselected
        | none => exact ⟨rfl, unselected⟩
      cases ran : e.record.runner with
      | some signed => exact runnerKept (by rw [ran]; simp) absent.1
      | none =>
        refine originKept (fun gone => ?_) absent.2
        rw [Record.selected, ran, gone] at selected
        cases selected

namespace Store.Authentic

variable {c : Crypto} {Allowed : Store → Event → Prop} {s t : Store}

/-- Merging a record that its authors signed. -/
theorem ingest (authentic : s.Authentic c) {published : Published} {changed : Bool}
    (success : History.ingest c s published = .ok (t, changed)) : t.Authentic c := by
  have ingested := History.ingest_eq_ok success
  obtain ⟨genuine, paired⟩ := History.validateRecord_eq_ok.mp ingested.valid
  obtain ⟨origin, runner, _, _, originMerged, runnerMerged, -, same⟩ := ingested.merged
  rcases same with ⟨-, rfl⟩ | ⟨-, change, u, stamped, rfl⟩
  · exact authentic
  obtain ⟨-, rfl, rfl⟩ := History.nextChange_eq_ok stamped
  have before := authentic.base_of genuine paired
  refine authentic.setEntry (before.merged genuine ingested.certificate rfl originMerged runnerMerged rfl)
    (fun id bound => ?_) _
  obtain ⟨e, found⟩ := authentic.entered id _ bound
  have mine := authentic.bound id _ e bound found
  have equal : History.base s c published.record.certificate = e := by
    rw [History.base, found]
    rfl
  rwa [← equal, ingested.certificate] at mine

theorem touch (authentic : s.Authentic c) (touch : s.Touch c (fun s e => s.MeetsNoCollision c e) t) : t.Authentic c := by
  cases touch with
  | thin thinned => exact authentic.thin thinned
  | befriend work name seed known => exact authentic.congr work name known
  | rename work seed alone named unrecorded =>
    have absent := unrecorded authentic.named
    refine ⟨named, fun key e found => ?_, fun id key bound => ?_, fun id key e bound found => ?_⟩
    · rw [work.history, absent] at found
      cases found
    · rw [work.jobCertificates] at bound
      obtain ⟨e, found⟩ := authentic.entered id key bound
      rw [absent] at found
      cases found
    · rw [work.history, absent] at found
      cases found
  | label unlabelled unbound =>
    rw [History.markLegacy, if_neg (by rw [unlabelled]; decide)]
    exact ⟨authentic.named, fun key e found => (authentic.entries key e found).congr rfl (.inr rfl) (fun _ _ known => known),
      authentic.entered, authentic.bound⟩
  | certify old job key present unbound own ran => exact authentic.certify unbound own ran
  | admitted peer cert permitted valid modern ran =>
    exact authentic.admit_of (fun entry found => permitted peer cert entry rfl found) valid modern ran
  | sign key entry job role found bound matched own owned ran => exact authentic.sign found bound matched owned ran
  | ingest published changed ran => exact authentic.ingest ran

theorem complete (authentic : s.Authentic c) (completes : s.Completes t) : t.Authentic c := by
  cases completes with
  | name hostname unnamed =>
    simp only [Daemon.isUnnamed, Bool.and_eq_true, beq_iff_eq] at unnamed
    have named := authentic.named
    rw [unnamed.1.1.1] at named
    cases named
  | key seed keyless =>
    refine ⟨authentic.named, fun key e found => (authentic.entries key e found).congr rfl (.inr rfl) (fun name k known => ?_),
      authentic.entered, authentic.bound⟩
    unfold History.knownKey at known ⊢
    split_ifs at known ⊢ with own
    · rw [List.isEmpty_iff] at keyless
      rw [History.publicKey, History.signingKey, keyless] at known
      cases known
    · exact known

end Store.Authentic

theorem sustained_authentic (c : Crypto) :
    Sustained c (fun s e => s.MeetsNoCollision c e) (fun s => s.Begun ∧ s.Authentic c) :=
  Sustained.of_touch (fun _ _ touch authentic => authentic.touch touch)
    (fun _ _ completes authentic => authentic.complete completes)

namespace Daemon

/-- In every run in which no presented certificate has the hash of another stored invocation, every entry in memory and
in every content of the file is authentic, and what is published of it has the output that its fact describes. -/
theorem authenticity (c : Crypto) (file : Store) (initial : file.Initial) (events : List (Env × Event))
    (distinct : (installed file).PermitsAll c (fun s e => s.MeetsNoCollision c e) events) :
    Everywhere (fun image => ∀ key e, image.store.history.entries.get? key = some e → e.Authentic c image.store key ∧
      ∀ output, (History.exportEntry c image.store e).output = some output →
        ∃ signed, e.record.selected = some signed ∧ History.outputMatches c output signed.fact = true)
      ((installed file).run c events).cell := by
  have start : Everywhere (Image.Being (fun s => s.Begun ∧ s.Authentic c)) (installed file).cell := by
    refine everywhere_installed ⟨initial.begun, initial.named, fun key e found => ?_, fun id key bound => ?_,
      fun id key e bound => ?_⟩
    · rw [initial.unrecorded] at found
      cases found
    · rw [initial.unbound] at bound
      cases bound
    · rw [initial.unbound] at bound
      cases bound
  have holds := everywhere_run (sustained_authentic c) initial.inv (ready_installed file) events distinct start
  refine Everywhere.mono (fun image here key e found => ⟨here.2.entries key e found, fun output exported => ?_⟩) holds
  exact History.exportEntry_matches exported

end Daemon

/-! ## Bob is asked to run a certified tool -/

namespace AuthenticExample

set_option maxRecDepth 40000

def crypto : Crypto := Crypto.transparent

def aliceKey : Bytes := List.replicate 32 1

def bobKey : Bytes := List.replicate 32 2

def alice : Peer := ⟨⟨"alice"⟩, aliceKey, none⟩

def env : Env where
  now := ⟨0, .mon, 0, 0⟩
  newId := .ok "request"
  epochId := .ok "epoch"
  fs := ⟨fun _ => .error .unreachable, fun _ => .error .unreachable⟩
  fault := none
  meshBusy := false

def invocation : Invocation := ⟨"job", ⟨"alice"⟩, aliceKey, ⟨"bob"⟩, bobKey, ["tool"], none, none⟩

def certificate : Certificate :=
  ⟨invocation, crypto.sign aliceKey (History.bytes "invocation" invocation)⟩

def grant : Grant := ⟨"tool", "/tool", some [⟨"alice"⟩], false, none, none, none, none⟩

def file : Store := { Store.first crypto "bobs" "bob" bobKey with
  peers := [alice]
  grants := [grant] }

def key : String := History.invocationHash crypto certificate

def authorized : List (Env × Event) := [
  (env, .restart ⟨false, "bob", bobKey, none, none, none⟩),
  (env, .accept aliceKey),
  (env, .authorize alice certificate)]

/-- The run is admitted, and its child writes two bytes and ends. -/
def worked : List (Env × Event) := [
  (env, .execCertified alice certificate),
  (env, .launch "job" none),
  (env, .exited "job" ⟨some 0, none⟩),
  (env, .collect "job" (.ok ([104, 105], [])) none),
  (env, .finish "job"),
  (env, .authorize alice certificate)]

def again : List (Env × Event) := [(env, .execCertified alice certificate)]

def bob : Daemon := (Daemon.installed file).run crypto (authorized ++ worked ++ again)

theorem initial : file.Initial where
  named := by rfl
  unique := List.nodup_nil
  unbound := by rfl
  unlabelled := by rfl
  unrecorded := by rfl

/-- When alice asks again, her own invocation is stored under the hash. -/
theorem distinct : (Daemon.installed file).PermitsAll crypto (fun s e => s.MeetsNoCollision crypto e)
    (authorized ++ worked ++ again) := by
  have unseen : ((Daemon.installed file).run crypto authorized).store.history.entries.get? key = none := by
    decide
  have seen : (((Daemon.installed file).run crypto (authorized ++ worked)).store.history.entries.get? key).all
      (fun e => decide (e.record.certificate.invocation = invocation)) = true := by decide
  rw [Daemon.permitsAll_append, Daemon.permitsAll_append]
  refine ⟨⟨Daemon.permitsAll_of_forall _ _ (fun e member s peer cert entry same => ?_), ?_⟩,
    fun peer cert entry presented found => ?_, trivial⟩
  · simp only [authorized, List.mem_cons, List.not_mem_nil, or_false] at member
    rcases member with rfl | rfl | rfl <;> cases same
  · refine ⟨fun peer cert entry presented found => ?_, Daemon.permitsAll_of_forall _ _ (fun e member s peer cert entry
      presented => ?_)⟩
    · cases presented
      rw [key] at unseen
      rw [unseen] at found
      cases found
    · simp only [List.mem_cons, List.not_mem_nil, or_false] at member
      rcases member with rfl | rfl | rfl | rfl | rfl <;> cases presented
  · cases presented
    rw [key] at seen
    rw [found] at seen
    exact of_decide_eq_true seen

/-- Bob admits a run that alice signed, signs what became of it and keeps its output. -/
theorem bob_authentic :
    (bob.store.history.entries.get? key).map (fun e =>
        (e.record.certificate, e.record.runner.map (fun signed => (signed.fact.revision, signed.fact.status)),
          (History.exportEntry crypto bob.store e).output.isSome)) =
      some (certificate, some (2, .done 0), true) ∧
    Everywhere (fun image => ∀ key e, image.store.history.entries.get? key = some e →
      e.Authentic crypto image.store key ∧
      ∀ output, (History.exportEntry crypto image.store e).output = some output →
        ∃ signed, e.record.selected = some signed ∧ History.outputMatches crypto output signed.fact = true)
    bob.cell :=
  ⟨by decide, Daemon.authenticity crypto file initial (authorized ++ worked ++ again) distinct⟩

end AuthenticExample

end Clix
