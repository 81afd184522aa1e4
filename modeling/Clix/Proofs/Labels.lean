import Clix.Proofs.Touches

/-! # Jobs from before the history

A job that was saved before the history began is labelled, and so is one that is certified as such. A job that is
bound and not labelled has a certificate of its execution, and stays so whatever is recorded later.
-/

namespace Clix

open Except

/-- A job that is bound as one that was signed for, not as one from before. -/
def Store.SignedJob (s : Store) (id : String) : Prop :=
  s.jobCertificates.contains id = true ∧ s.legacyJobs.contains id = false

instance (s : Store) (id : String) : Decidable (s.SignedJob id) :=
  inferInstanceAs (Decidable (_ ∧ _))

/-- Labels are of jobs, bindings are of entries, and a job with a modern certificate is not labelled. -/
structure Store.Labelled (s : Store) : Prop where
  held : ∀ id, s.legacyJobs.contains id = true → s.job? id ≠ none
  entered : ∀ id key, s.jobCertificates.get? id = some key → ∃ e, s.history.entries.get? key = some e
  modern : ∀ id key e, s.jobCertificates.get? id = some key → s.history.entries.get? key = some e →
    e.record.certificate.invocation.id = id → e.record.certificate.invocation.legacyObserver = none →
    s.legacyJobs.contains id = false

namespace Store

variable {c : Crypto} {Allowed : Store → Event → Prop} {s t : Store} {id : String}

/-- Every entry is still there, with its certificate. -/
def KeepsEntries (s t : Store) : Prop :=
  ∀ key e, s.history.entries.get? key = some e →
    ∃ e', t.history.entries.get? key = some e' ∧ e'.record.certificate = e.record.certificate

theorem keepsEntries_of_eq (same : t.history.entries = s.history.entries) : s.KeepsEntries t :=
  fun _ e found => ⟨e, same ▸ found, rfl⟩

theorem Thinned.keepsEntries (thinned : s.Thinned t) : s.KeepsEntries t := by
  intro key e found
  have same := thinned.records key
  rw [found, Option.map_some, Option.map_eq_some_iff] at same
  obtain ⟨e', there, record⟩ := same
  exact ⟨e', there, by rw [record]⟩

/-- Writing an entry over one with its certificate, or where there is none. -/
theorem keepsEntries_setEntry {key : String} {new : Entry} (kept : ∀ e, s.history.entries.get? key = some e →
    new.record.certificate = e.record.certificate) : s.KeepsEntries (s.setEntry key new) := by
  intro other e found
  by_cases same : other = key
  · subst same
    exact ⟨new, OrdMap.get?_insert_self _ _ _, kept e found⟩
  · exact ⟨e, (OrdMap.get?_insert_of_ne _ _ same).trans found, rfl⟩

theorem Labelled.congr (labelled : s.Labelled) (entries : s.KeepsEntries t)
    (bindings : t.jobCertificates = s.jobCertificates) (labels : t.legacyJobs = s.legacyJobs)
    (rows : ∀ id, s.job? id ≠ none → t.job? id ≠ none) : t.Labelled where
  held id present := rows id (labelled.held id (labels ▸ present))
  entered id key bound := by
    obtain ⟨e, found⟩ := labelled.entered id key (bindings ▸ bound)
    obtain ⟨e', there, -⟩ := entries key e found
    exact ⟨e', there⟩
  modern id key e' bound there named modern := by
    rw [bindings] at bound
    obtain ⟨e, found⟩ := labelled.entered id key bound
    obtain ⟨e'', again, same⟩ := entries key e found
    obtain rfl : e' = e'' := Option.some.inj (there.symm.trans again)
    rw [same] at named modern
    exact labels ▸ labelled.modern id key e bound found named modern

/-! ### What each call does to the labels -/

theorem keepsEntries_ensureEntry {cert : Certificate} (success : History.ensureEntry c s cert = .ok t) :
    s.KeepsEntries t := by
  rcases History.ensureEntry_eq_ok success with ⟨-, rfl⟩ | ⟨absent, -, rfl⟩
  · exact keepsEntries_of_eq rfl
  · refine keepsEntries_setEntry (fun e found => ?_)
    rw [absent] at found
    cases found

theorem ensureEntry_frame {cert : Certificate} (success : History.ensureEntry c s cert = .ok t) :
    t.jobCertificates = s.jobCertificates ∧ t.legacyJobs = s.legacyJobs ∧ t.jobs = s.jobs := by
  rcases History.ensureEntry_eq_ok success with ⟨-, rfl⟩ | ⟨-, -, rfl⟩ <;> exact ⟨rfl, rfl, rfl⟩

theorem entered_ensureEntry {cert : Certificate} (success : History.ensureEntry c s cert = .ok t) :
    ∃ e, t.history.entries.get? (History.invocationHash c cert) = some e := by
  rcases History.ensureEntry_eq_ok success with ⟨present, rfl⟩ | ⟨-, -, rfl⟩
  · exact OrdMap.contains_eq_true_iff.mp present
  · exact ⟨_, OrdMap.get?_insert_self _ _ _⟩

theorem keepsEntries_ingest {published : Published} {changed : Bool}
    (success : History.ingest c s published = .ok (t, changed)) : s.KeepsEntries t := by
  have ingested := History.ingest_eq_ok success
  obtain ⟨_, _, _, _, -, -, -, ⟨-, rfl⟩ | ⟨-, change, u, stamped, rfl⟩⟩ := ingested.merged
  · exact keepsEntries_of_eq rfl
  · obtain ⟨-, -, rfl⟩ := History.nextChange_eq_ok stamped
    refine keepsEntries_setEntry (fun e found => ?_)
    have found : s.history.entries.get? (History.invocationHash c published.record.certificate) = some e := found
    have same := ingested.certificate
    rw [History.base, found, Option.getD_some] at same
    exact same.symm

theorem keepsEntries_publishFact {key : String} {entry : Entry} {job : Job} {role : Role}
    (found : s.history.entries.get? key = some entry)
    (success : History.publishFact c s key entry job role = .ok t) : s.KeepsEntries t := by
  obtain ⟨stdout, stderr, -, ⟨-, rfl⟩ | ⟨-, revision, signed, -, -, -, -, -, signedEntry, rfl, rfl⟩⟩ :=
    History.publishFact_eq_ok success
  · exact keepsEntries_of_eq rfl
  · refine keepsEntries_setEntry (fun e here => ?_)
    obtain rfl : entry = e := Option.some.inj (found.symm.trans here)
    cases role <;> rfl

theorem publishFact_frame {key : String} {entry : Entry} {job : Job} {role : Role}
    (success : History.publishFact c s key entry job role = .ok t) :
    t.jobCertificates = s.jobCertificates ∧ t.legacyJobs = s.legacyJobs ∧ t.jobs = s.jobs := by
  obtain ⟨stdout, stderr, -, ⟨-, rfl⟩ | ⟨-, revision, signed, -, -, -, -, -, signedEntry, rfl, rfl⟩⟩ :=
    History.publishFact_eq_ok success <;> exact ⟨rfl, rfl, rfl⟩

/-- Certifying a job binds it, and labels it when the certificate is an observation. -/
theorem Labelled.certify (labelled : s.Labelled) {old : List Job} {job : Job} {key : String}
    (present : s.job? job.id ≠ none) (unbound : s.jobCertificates.get? job.id = none)
    (success : History.bindOwned c old s job = .ok (t, key)) : t.Labelled := by
  obtain ⟨legacy, cert, chosen, made, rfl, -, rfl⟩ := History.bindOwned_eq_ok unbound success
  obtain ⟨named, -, -, -, -, observer, -⟩ := History.certificate_eq_ok made
  have others {id : String} (differs : id ≠ job.id) :
      (if legacy then s.legacyJobs.insert job.id () else s.legacyJobs).contains id = s.legacyJobs.contains id := by
    split_ifs
    · rw [OrdMap.contains, OrdMap.contains, OrdMap.get?_insert_of_ne _ _ differs]
    · rfl
  refine ⟨fun id label => ?_, fun id key bound => ?_, fun id key e bound found names modern => ?_⟩
  · by_cases same : id = job.id
    · exact same ▸ present
    · exact labelled.held id ((others same).symm.trans label)
  · dsimp only at bound ⊢
    rw [OrdMap.get?_insert] at bound ⊢
    split_ifs at bound with same
    · cases bound
      exact ⟨_, if_pos rfl⟩
    · split_ifs
      · exact ⟨_, rfl⟩
      · exact labelled.entered id key bound
  · dsimp only at bound found ⊢
    rw [OrdMap.get?_insert] at bound found
    split_ifs at bound found with same here
    · -- the job itself: its certificate is modern only when it gets no label
      cases found
      rw [same]
      have modern := observer.symm.trans modern
      cases legacy with
      | true => cases modern
      | false =>
        rw [if_neg Bool.false_ne_true]
        have unlabelled := chosen.symm
        rw [Bool.or_eq_false_iff, Bool.or_eq_false_iff] at unlabelled
        exact unlabelled.1.1
    · cases bound
      exact absurd rfl here
    · cases found
      exact absurd (names.symm.trans named) same
    · rw [others same]
      exact labelled.modern id key e bound found names modern

/-- An admission binds no job that is labelled, since a labelled job was there before. -/
theorem Labelled.bindAdmission (labelled : s.Labelled) {cert : Certificate}
    (success : History.bindAdmission c s cert = .ok t) : t.Labelled := by
  obtain ⟨checked, u, added, same⟩ := History.bindAdmission_eq_ok success
  obtain ⟨bindings, labels, jobs⟩ := ensureEntry_frame added
  have entered : u.Labelled := labelled.congr (keepsEntries_ensureEntry added) bindings labels
    (fun id present => by rw [Store.job?, jobs]; exact present)
  obtain ⟨e, found⟩ := entered_ensureEntry added
  rw [same]
  refine ⟨entered.held, fun id key bound => ?_, fun id key e bound found named modern => ?_⟩
  · dsimp only at bound
    rw [OrdMap.get?_insert] at bound
    split_ifs at bound with here
    · cases bound
      exact ⟨e, found⟩
    · exact entered.entered id key bound
  · dsimp only at bound ⊢
    rw [OrdMap.get?_insert] at bound
    split_ifs at bound with here
    · cases bound
      by_contra label
      rw [Bool.not_eq_false] at label
      rw [History.checkBinding] at checked
      split at checked
      · next old already =>
        rw [refuseIf_eq_ok, not_not] at checked
        rw [checked, ← here, ← bindings] at already
        rw [entered.modern id _ _ already found named modern] at label
        cases label
      · rw [refuseIf_eq_ok] at checked
        rw [labels] at label
        refine labelled.held id label (List.find?_eq_none.mpr (fun j member equal => checked ?_))
        rw [List.any_eq_true]
        exact ⟨j, member, here ▸ equal⟩
    · exact entered.modern id key e bound found named modern

theorem Labelled.touch (labelled : s.Labelled) (touch : s.Touch c Allowed t) : t.Labelled := by
  cases touch with
  | thin thinned => exact labelled.congr thinned.keepsEntries thinned.bindings thinned.labels thinned.rows
  | befriend work name seed known =>
    exact labelled.congr (keepsEntries_of_eq (congrArg _ work.history)) work.jobCertificates work.legacyJobs
      (fun id present => by rw [Store.job?, work.jobs]; exact present)
  | rename work seed alone named unrecorded =>
    exact labelled.congr (keepsEntries_of_eq (congrArg _ work.history)) work.jobCertificates work.legacyJobs
      (fun id present => by rw [Store.job?, work.jobs]; exact present)
  | label unlabelled unbound =>
    have none (id : String) : s.jobCertificates.get? id = none := by rw [unbound]; rfl
    have same : (History.markLegacy s).jobCertificates = s.jobCertificates := by
      rw [History.markLegacy]
      split_ifs <;> rfl
    refine ⟨fun id label => ?_, fun id key bound => ?_, fun id key e bound => ?_⟩
    · rw [History.markLegacy, if_neg (by rw [unlabelled]; decide)] at label ⊢
      dsimp only at label
      rw [OrdMap.contains_extend, Bool.or_eq_true] at label
      rcases label with before | row
      · exact labelled.held id before
      · rw [List.contains_iff_mem, List.mem_map] at row
        obtain ⟨j, member, rfl⟩ := row
        exact fun absent => List.find?_eq_none.mp absent j member (beq_self_eq_true j.id)
    · rw [same, none] at bound
      cases bound
    · rw [same, none] at bound
      cases bound
  | certify old job key present unbound own ran => exact labelled.certify present unbound ran
  | admitted peer cert permitted valid modern ran => exact labelled.bindAdmission ran
  | sign key entry job role found bound matched own owned ran =>
    obtain ⟨bindings, labels, jobs⟩ := publishFact_frame ran
    exact labelled.congr (keepsEntries_publishFact found ran) bindings labels
      (fun id present => by rw [Store.job?, jobs]; exact present)
  | ingest published changed ran =>
    obtain ⟨bindings, labels, -⟩ := History.ingest_bindings ran
    refine labelled.congr (keepsEntries_ingest ran) bindings labels
      (Thinned.rows_of_desk (congrArg Desk.rows (History.ingest_samePublished ran).desk))

/-- A job that was signed for stays so. -/
theorem SignedJob.touch (signed : s.SignedJob id) (touch : s.Touch c Allowed t) : t.SignedJob id := by
  obtain ⟨bound, unlabelled⟩ := signed
  cases touch with
  | thin thinned => exact ⟨thinned.bindings ▸ bound, thinned.labels ▸ unlabelled⟩
  | befriend work name seed known => exact ⟨work.jobCertificates ▸ bound, work.legacyJobs ▸ unlabelled⟩
  | rename work seed alone named unrecorded => exact ⟨work.jobCertificates ▸ bound, work.legacyJobs ▸ unlabelled⟩
  | label _ unbound =>
    rw [unbound] at bound
    cases bound
  | certify old job key present unbound own ran =>
    obtain ⟨legacy, cert, -, -, rfl, -, rfl⟩ := History.bindOwned_eq_ok unbound ran
    have differs : id ≠ job.id := by
      rintro rfl
      obtain ⟨key, found⟩ := OrdMap.contains_eq_true_iff.mp bound
      rw [unbound] at found
      cases found
    refine ⟨?_, ?_⟩
    · dsimp only
      rw [OrdMap.contains, OrdMap.get?_insert_of_ne _ _ differs]
      exact bound
    · dsimp only
      split_ifs
      · rw [OrdMap.contains, OrdMap.get?_insert_of_ne _ _ differs]
        exact unlabelled
      · exact unlabelled
  | admitted peer cert permitted valid modern ran =>
    obtain ⟨-, u, added, same⟩ := History.bindAdmission_eq_ok ran
    obtain ⟨bindings, labels, -⟩ := ensureEntry_frame added
    rw [same]
    refine ⟨?_, ?_⟩
    · dsimp only
      rw [OrdMap.contains_insert, bindings, bound, Bool.or_true]
    · dsimp only
      rw [labels]
      exact unlabelled
  | sign key entry job role found here matched own owned ran =>
    obtain ⟨bindings, labels, -⟩ := publishFact_frame ran
    exact ⟨bindings ▸ bound, labels ▸ unlabelled⟩
  | ingest published changed ran =>
    obtain ⟨bindings, labels, -⟩ := History.ingest_bindings ran
    exact ⟨bindings ▸ bound, labels ▸ unlabelled⟩

theorem SignedJob.touches (signed : s.SignedJob id) (touches : s.Touches c Allowed t) : t.SignedJob id := by
  induction touches with
  | refl => exact signed
  | tail _ last ih => exact ih.touch last

theorem Completes.frame (completes : s.Completes t) : t.history = s.history ∧
    t.jobCertificates = s.jobCertificates ∧ t.legacyJobs = s.legacyJobs ∧ t.jobs = s.jobs := by
  cases completes <;> exact ⟨rfl, rfl, rfl, rfl⟩

end Store

theorem sustained_labelled {c : Crypto} {Allowed : Store → Event → Prop} :
    Sustained c Allowed (fun s => s.Begun ∧ s.Labelled) := by
  refine Sustained.of_touch (fun s t touch labelled => labelled.touch touch) (fun s t completes labelled => ?_)
  obtain ⟨history, bindings, labels, jobs⟩ := completes.frame
  exact labelled.congr (Store.keepsEntries_of_eq (congrArg _ history)) bindings labels
    (fun id present => by rw [Store.job?, jobs]; exact present)

/-- A job with a modern certificate is one that was signed for. -/
theorem Store.Labelled.signedJob {s : Store} (labelled : s.Labelled) {job : Job} {e : Entry}
    (found : History.forJob s job = some e) : s.SignedJob job.id := by
  rw [History.forJob] at found
  split at found
  · cases found
  · next key bound =>
    rw [Option.filter_eq_some_iff, Bool.and_eq_true, Option.isNone_iff_eq_none] at found
    obtain ⟨there, modern, agrees⟩ := found
    refine ⟨OrdMap.contains_eq_true_iff.mpr ⟨key, bound⟩, ?_⟩
    exact labelled.modern job.id key e bound there (History.matchesJob_eq_true agrees).1 modern

theorem Store.Initial.labelled {s : Store} (initial : s.Initial) : s.Labelled where
  held id label := by
    rw [initial.unlabelled] at label
    cases label
  entered id key bound := by
    rw [initial.unbound] at bound
    cases bound
  modern id key e bound := by
    rw [initial.unbound] at bound
    cases bound

end Clix
