import Clix.Proofs.Later
import Clix.ToMathlib.Versioned

/-! # How facts change

Each slot of a record takes newer facts only, and none after a final one, whether a machine signs the fact or merges
it. The one other way an entry changes is that a machine certifies a job of its own under the same digest, which starts
the entry anew.
-/

namespace Clix

open Except Versioned

instance : Versioned SignedFact where
  revision signed := signed.fact.revision.toNat
  final signed := signed.fact.status.isTerminal

/-- Records of one certificate whose slots are related. -/
structure Record.Each (R : Option SignedFact → Option SignedFact → Prop) (old new : Record) : Prop where
  certificate : new.certificate = old.certificate
  origin : R old.origin new.origin
  runner : R old.runner new.runner

namespace Record.Each

variable {R S : Option SignedFact → Option SignedFact → Prop} {q r w : Record}

theorem refl (each : ∀ slot, R slot slot) (r : Record) : r.Each R r := ⟨rfl, each _, each _⟩

theorem trans (each : ∀ {x y z}, R x y → R y z → R x z) (first : q.Each R r) (second : r.Each R w) : q.Each R w :=
  ⟨second.certificate.trans first.certificate, each first.origin second.origin, each first.runner second.runner⟩

theorem mono (each : ∀ {x y}, R x y → S x y) (related : q.Each R r) : q.Each S r :=
  ⟨related.certificate, each related.origin, each related.runner⟩

end Record.Each

namespace History

variable {c : Crypto} {Allowed : Store → Event → Prop} {s t : Store}

/-! ### One slot -/

/-- A merge keeps the newer of two facts. -/
theorem mergeFact_eq_ok {existing incoming merged : Option SignedFact} {changed : Bool}
    (success : mergeFact existing incoming = .ok (merged, changed)) :
    Succeeds existing merged ∧ Reaches incoming merged := by
  cases incoming with
  | none =>
    cases success
    exact ⟨.refl _, fun a absent => by cases absent⟩
  | some incoming =>
    cases existing with
    | none =>
      cases success
      exact ⟨.of_none _, .refl _⟩
    | some current =>
      rw [mergeFact] at success
      split_ifs at success with older same differs final
      · cases success
        refine ⟨.refl _, fun a here => ?_⟩
        cases here
        exact .inr ⟨current, rfl, UInt64.lt_iff_toNat_lt.mp older⟩
      · cases success
        rw [not_ne_iff] at differs
        exact ⟨.refl _, differs ▸ .refl _⟩
      · cases success
        refine ⟨.of_lt ?_ (Bool.not_eq_true _ ▸ final), .refl _⟩
        change current.fact.revision.toNat < incoming.fact.revision.toNat
        have apart : incoming.fact.revision.toNat ≠ current.fact.revision.toNat := fun equal =>
          same (UInt64.toNat_inj.mp equal)
        have above : current.fact.revision.toNat ≤ incoming.fact.revision.toNat :=
          not_lt.mp (fun below => older (UInt64.lt_iff_toNat_lt.mpr below))
        exact lt_of_le_of_ne above apart.symm

theorem eq_of_mergeFact {existing incoming merged : Option SignedFact}
    (success : mergeFact existing incoming = .ok (merged, false)) : merged = existing := by
  cases incoming with
  | none =>
    cases success
    rfl
  | some incoming =>
    cases existing with
    | none => cases success
    | some current =>
      rw [mergeFact] at success
      split_ifs at success <;> cases success <;> rfl

/-- A signed fact is the next revision of one that was not final. -/
theorem succeeds_of_signed {previous : Option SignedFact} {status : JobStatus} {stdout stderr : OutputRef}
    {signed : SignedFact} (unsettled : isSettledFact previous status stdout stderr = false)
    (next : nextRevision previous = .ok signed.fact.revision) : Succeeds previous (some signed) := by
  cases previous with
  | none => exact .of_none _
  | some before =>
    simp only [isSettledFact, Option.any_some, Bool.or_eq_false_iff] at unsettled
    refine .of_lt ?_ unsettled.2
    rw [nextRevision, checkedNext] at next
    split_ifs at next with room
    have same : before.fact.revision + 1 = signed.fact.revision := Except.ok.inj next
    change before.fact.revision.toNat < signed.fact.revision.toNat
    rw [← same, UInt64.toNat_add]
    change before.fact.revision.toNat < (before.fact.revision.toNat + 1) % 2 ^ 64
    omega

theorem each_setFact {record : Record} {role : Role} {signed : SignedFact}
    (succeeds : Succeeds (Record.fact? record role) (some signed)) :
    record.Each Succeeds (Record.setFact record role signed) := by
  cases role with
  | runner => exact ⟨rfl, .refl _, succeeds⟩
  | origin | legacyObserver => exact ⟨rfl, succeeds, .refl _⟩

end History

/-! ### The entries of a machine -/

/-- The fact that a role wrote about an invocation, as a machine holds it. -/
def Store.fact? (s : Store) (key : String) (role : Role) : Option SignedFact :=
  (s.history.entries.get? key).bind (fun e => History.Record.fact? e.record role)

/-- The record of an invocation, as a machine holds it. -/
def Store.record? (s : Store) (key : String) : Option Record := (s.history.entries.get? key).map Entry.record

/-- A job of this machine is bound to a certificate that it signed with its own key. -/
structure Store.CertifiedOwn (c : Crypto) (s : Store) (id key : String) : Prop where
  bound : s.jobCertificates.get? id = some key
  seeded : s.ownerSk ≠ []
  signed : ∃ cert : Certificate, History.invocationHash c cert = key ∧ cert.invocation.id = id ∧
    cert.invocation.keyOf cert.invocation.signer = c.verifyingKey s.ownerSk ∧
    cert.signature = c.sign s.ownerSk (History.bytes "invocation" cert.invocation)

/-- The machine certified a job of its own under a key since. -/
def Store.Certified (c : Crypto) (s t : Store) (key : String) : Prop :=
  ∃ id, s.jobCertificates.get? id = none ∧ t.CertifiedOwn c id key

/-- Where an ID is free, a binding is added. -/
theorem bindings_insert {bindings : OrdMap String String} {id key : String}
    (free : ∀ old, bindings.get? id = some old → old = key) (other old : String)
    (bound : bindings.get? other = some old) : (bindings.insert id key).get? other = some old := by
  rw [OrdMap.get?_insert]
  split_ifs with same
  · rw [free old (same ▸ bound)]
  · exact bound

/-- The own key and the bindings stay, and so does every record, with newer facts only, unless the machine certified a
job of its own under the record's key. -/
structure Store.FactsSucceed (c : Crypto) (s t : Store) : Prop where
  seed : s.ownerSk ≠ [] → t.ownerSk = s.ownerSk
  bindings : ∀ id key, s.jobCertificates.get? id = some key → t.jobCertificates.get? id = some key
  records : ∀ key e, s.history.entries.get? key = some e →
    (∃ e', t.history.entries.get? key = some e' ∧ e.record.Each Succeeds e'.record) ∨ s.Certified c t key

namespace Store.FactsSucceed

variable {s t u : Store}

theorem of_eq (seed : t.ownerSk = s.ownerSk) (bindings : t.jobCertificates = s.jobCertificates)
    (entries : t.history.entries = s.history.entries) : s.FactsSucceed c t where
  seed _ := seed
  bindings id key bound := by rwa [bindings]
  records _ e found := .inl ⟨e, entries ▸ found, .refl Succeeds.refl _⟩

theorem refl (s : Store) : s.FactsSucceed c s := of_eq rfl rfl rfl

theorem own (succeeds : s.FactsSucceed c t) {id key : String} (own : s.CertifiedOwn c id key) :
    t.CertifiedOwn c id key := by
  have same := succeeds.seed own.seeded
  obtain ⟨cert, hash, named, signed⟩ := own.signed
  exact ⟨succeeds.bindings id key own.bound, by rw [same]; exact own.seeded, cert, hash, named, by rw [same]; exact signed⟩

theorem trans (first : s.FactsSucceed c t) (second : t.FactsSucceed c u) : s.FactsSucceed c u where
  seed seeded := by
    have same := first.seed seeded
    rw [← same] at seeded ⊢
    exact second.seed seeded
  bindings id key bound := second.bindings id key (first.bindings id key bound)
  records key e found := by
    rcases first.records key e found with ⟨e', there, one⟩ | ⟨id, free, own⟩
    · rcases second.records key e' there with ⟨e'', here, two⟩ | ⟨id, free, own⟩
      · exact .inl ⟨e'', here, one.trans Succeeds.trans two⟩
      · refine .inr ⟨id, ?_, own⟩
        by_contra known
        obtain ⟨old, before⟩ := Option.ne_none_iff_exists'.mp known
        rw [first.bindings id old before] at free
        cases free
    · exact .inr ⟨id, free, second.own own⟩

/-- One entry is written, over a record that it succeeds. -/
theorem setEntry {key : String} {new : Entry} (seed : t.ownerSk = s.ownerSk)
    (bindings : t.jobCertificates = s.jobCertificates) (entries : t.history.entries = s.history.entries.insert key new)
    (newer : ∀ e, s.history.entries.get? key = some e → e.record.Each Succeeds new.record) : s.FactsSucceed c t where
  seed _ := seed
  bindings id key bound := by rwa [bindings]
  records other e found := by
    refine .inl ?_
    rw [entries, OrdMap.get?_insert]
    split_ifs with same
    · exact ⟨new, rfl, newer e (same ▸ found)⟩
    · exact ⟨e, found, .refl Succeeds.refl _⟩

end Store.FactsSucceed

namespace Store

variable {c : Crypto} {Allowed : Store → Event → Prop} {s t next : Store}

theorem factsSucceed_ingest {published : Published} {changed : Bool}
    (success : History.ingest c s published = .ok (t, changed)) : s.FactsSucceed c t := by
  have ingested := History.ingest_eq_ok success
  obtain ⟨origin, runner, _, _, first, second, -, ⟨-, rfl⟩ | ⟨-, change, u, stamped, rfl⟩⟩ := ingested.merged
  · exact .refl _
  · obtain ⟨-, -, rfl⟩ := History.nextChange_eq_ok stamped
    refine .setEntry rfl rfl rfl (fun e found => ?_)
    have held : History.base s c published.record.certificate = e := by rw [History.base, found, Option.getD_some]
    have certificate := ingested.certificate
    rw [held] at first second certificate
    exact ⟨certificate.symm, (History.mergeFact_eq_ok first).1, (History.mergeFact_eq_ok second).1⟩

theorem Touch.factsSucceed (touch : s.Touch c Allowed t) : s.FactsSucceed c t := by
  cases touch with
  | thin thinned =>
    refine ⟨fun _ => thinned.trust.ownerSk, fun id key bound => by rwa [thinned.bindings], fun key e found => ?_⟩
    have same := thinned.records key
    rw [found, Option.map_some, Option.map_eq_some_iff] at same
    obtain ⟨e', there, record⟩ := same
    exact .inl ⟨e', there, record ▸ .refl Succeeds.refl _⟩
  | befriend work name seed known => exact .of_eq seed work.jobCertificates (by rw [work.history])
  | rename work seed alone named unrecorded => exact .of_eq seed work.jobCertificates (by rw [work.history])
  | label unlabelled unbound =>
    rw [History.markLegacy]
    split_ifs <;> exact .of_eq rfl rfl rfl
  | certify old job key present unbound own ran =>
    obtain ⟨legacy, cert, chosen, made, rfl, -, rfl⟩ := History.bindOwned_eq_ok unbound ran
    have free : ∀ old, s.jobCertificates.get? job.id = some old → old = History.invocationHash c cert := by
      intro old bound
      rw [unbound] at bound
      cases bound
    refine ⟨fun _ => rfl, bindings_insert free, fun other e found => ?_⟩
    by_cases same : other = History.invocationHash c cert
    · obtain ⟨named, -, -, -, -, -, -, -, length, signature⟩ := History.certificate_eq_ok made
      refine .inr ⟨job.id, unbound, same ▸ OrdMap.get?_insert_self _ _ _, fun empty => ?_, cert, same.symm, named,
        (History.certified_own own chosen made).2.1, signature⟩
      rw [show s.ownerSk = [] from empty] at length
      cases length
    · exact .inl ⟨e, (OrdMap.get?_insert_of_ne _ _ same).trans found, .refl Succeeds.refl _⟩
  | admitted peer cert permitted valid modern ran =>
    obtain ⟨checked, u, added, same⟩ := History.bindAdmission_eq_ok ran
    have entered : s.FactsSucceed c u := by
      rcases History.ensureEntry_eq_ok added with ⟨-, rfl⟩ | ⟨absent, -, rfl⟩
      · exact .refl u
      · refine .setEntry rfl rfl rfl (fun e found => ?_)
        rw [absent] at found
        cases found
    have free : ∀ old, u.jobCertificates.get? cert.invocation.id = some old → old = History.invocationHash c cert := by
      intro old bound
      have kept : u.jobCertificates = s.jobCertificates := by
        rcases History.ensureEntry_eq_ok added with ⟨-, rfl⟩ | ⟨-, -, rfl⟩ <;> rfl
      rw [History.checkBinding, ← kept, bound] at checked
      exact not_not.mp (refuseIf_eq_ok.mp checked)
    rw [same]
    exact entered.trans ⟨fun _ => rfl, bindings_insert free, fun _ e found => .inl ⟨e, found, .refl Succeeds.refl _⟩⟩
  | sign key entry job role found bound matched own owned ran =>
    obtain ⟨stdout, stderr, -, ⟨-, rfl⟩ | ⟨unsettled, revision, signed, revised, fact, -, -, -, signedEntry, same, rfl⟩⟩ :=
      History.publishFact_eq_ok ran
    · exact .refl _
    · refine .setEntry rfl rfl rfl (fun e here => ?_)
      obtain rfl : entry = e := Option.some.inj (found.symm.trans here)
      rw [same]
      refine History.each_setFact (History.succeeds_of_signed unsettled ?_)
      rw [fact]
      exact revised
  | ingest published changed ran => exact factsSucceed_ingest ran

theorem Touches.factsSucceed (touches : s.Touches c Allowed t) : s.FactsSucceed c t := by
  induction touches with
  | refl => exact .refl s
  | tail _ last ih => exact ih.trans last.factsSucceed

/-- What an update does after its edit. -/
theorem factsSucceed_of_edited {edited refreshed : Store} {epochId : Result String}
    (unbound : edited.history.initialized = false → edited.jobCertificates = ∅)
    (published : History.refreshOwned c epochId edited (some s) = .ok refreshed)
    (fits : Storage.prepare (History.normalizeOutput { refreshed with formatVersion := formatVersionNow }) s = .ok next) :
    edited.FactsSucceed c next := by
  have touches : edited.Touches c (fun _ _ => True) refreshed := History.touches_refreshOwned unbound published
  have versioned : refreshed.FactsSucceed c { refreshed with formatVersion := formatVersionNow } := .of_eq rfl rfl rfl
  have thinned := (History.normalizeOutput_thinned { refreshed with formatVersion := formatVersionNow }).trans
    (Storage.evict_thinned (Storage.prepare_eq_ok fits).2.1)
  exact (touches.factsSucceed.trans versioned).trans (@Touch.factsSucceed c (fun _ _ => True) _ _ (.thin thinned))

/-- A state that keeps what was recorded, with newer facts only. -/
structure Onward (c : Crypto) (s t : Store) : Prop extends s.Later (fun _ => True) t, s.FactsSucceed c t

theorem Onward.of_seeded (seed : s.ownerSk ≠ [] → t.ownerSk = s.ownerSk) (history : t.history = s.history)
    (histories : t.historyPruned = s.historyPruned) (outputs : t.outputPruned = s.outputPruned)
    (bindings : t.jobCertificates = s.jobCertificates) : s.Onward c t :=
  ⟨.of_history history histories outputs, seed, fun id key bound => by rwa [bindings],
    fun key e found => .inl ⟨e, by rwa [history], .refl Succeeds.refl _⟩⟩

theorem Onward.of_history (seed : t.ownerSk = s.ownerSk) (history : t.history = s.history)
    (histories : t.historyPruned = s.historyPruned) (outputs : t.outputPruned = s.outputPruned)
    (bindings : t.jobCertificates = s.jobCertificates) : s.Onward c t :=
  .of_seeded (fun _ => seed) history histories outputs bindings

theorem Writes.onward (writes : s.Writes c Allowed next) (begun : s.Begun) : s.Onward c next :=
  ⟨writes.later, (writes.touches begun).factsSucceed⟩

theorem Notes.onward (notes : s.Notes t) : s.Onward c t ∧ t.Onward c s := by
  obtain ⟨ahead, back⟩ := notes.later
  have same : t.ownerSk = s.ownerSk ∧ t.jobCertificates = s.jobCertificates ∧
      t.history.entries = s.history.entries := by
    cases notes <;> exact ⟨rfl, rfl, rfl⟩
  obtain ⟨seed, bindings, entries⟩ := same
  exact ⟨⟨ahead, .of_eq seed bindings entries⟩, ⟨back, .of_eq seed.symm bindings.symm entries.symm⟩⟩

end Store

theorem forward_onward (c : Crypto) (Allowed : Store → Event → Prop) : Forward c Allowed (Store.Onward c) where
  refl s := .of_history rfl rfl rfl rfl rfl
  trans _ _ _ first second := ⟨first.toLater.trans second.toLater, first.toFactsSucceed.trans second.toFactsSucceed⟩
  write _ _ begun writes := writes.onward begun
  note _ _ notes := notes.onward
  complete _ _ completes := by
    cases completes with
    | name hostname unnamed => exact .of_history rfl rfl rfl rfl rfl
    | key seed keyless => exact .of_seeded (fun seeded => absurd (List.isEmpty_iff.mp keyless) seeded) rfl rfl rfl rfl
  reload s := ⟨⟨(Store.later_reloaded s).1, .of_eq rfl rfl rfl⟩, ⟨(Store.later_reloaded s).2, .of_eq rfl rfl rfl⟩⟩
  stop _ _ := ⟨.of_history rfl rfl rfl rfl rfl, .of_history rfl rfl rfl rfl rfl⟩

end Clix
