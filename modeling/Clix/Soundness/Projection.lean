import Clix.Proofs.Projection
import Clix.Soundness.Authentic

/-! # The log is a faithful view

Each invocation that a local row or a fact is about has one row, each stored fact is an observation of the row of its
invocation, a verified runner fact is what its row shows, and what is shown as available has the digests that are shown,
except that an outcome without output may be shown under digests that its signer made up.
-/

namespace Clix

open Except History DurableCell

/-! ## Where entries stand -/

/-- An entry that stands under the hash of its invocation, of authors that are known, with a runner fact only if it is
modern. -/
structure Entry.Filed (c : Crypto) (s : Store) (key : String) (e : Entry) : Prop where
  keyed : invocationHash c e.record.certificate = key
  paired : e.record.certificate.invocation.Paired c s
  plain : e.record.runner ≠ none → e.record.certificate.invocation.legacyObserver = none

structure Store.Filed (c : Crypto) (s : Store) : Prop where
  named : Pair.isName s.bodyName = true
  entries : ∀ key e, s.history.entries.get? key = some e → e.Filed c s key

namespace Entry.Filed

variable {c : Crypto} {s t : Store} {key : String} {e : Entry}

theorem congr (filed : e.Filed c s key) {e' : Entry} (record : e'.record = e.record)
    (known : ∀ name k, knownKey c s name = .ok k → knownKey c t name = .ok k) : e'.Filed c t key := by
  refine ⟨record ▸ filed.keyed, ?_, record ▸ filed.plain⟩
  rw [record]
  exact filed.paired.mono known

theorem of_unsigned {cert : Certificate} {change : UInt64} (paired : cert.invocation.Paired c s) :
    (Entry.unsigned cert change).Filed c s (invocationHash c cert) :=
  ⟨rfl, paired, fun absent => absurd rfl absent⟩

end Entry.Filed

namespace Store.Filed

variable {c : Crypto} {Allowed : Store → Event → Prop} {s t : Store}

/-- Only the entry of one key changed, and nothing that is known. -/
theorem insert (filed : s.Filed c) {key : String} {new : Entry} (here : new.Filed c s key)
    (entries : t.history.entries = s.history.entries.insert key new) (name : t.bodyName = s.bodyName)
    (known : ∀ name k, knownKey c s name = .ok k → knownKey c t name = .ok k) : t.Filed c := by
  refine ⟨name ▸ filed.named, fun other e found => ?_⟩
  rw [entries, OrdMap.get?_insert] at found
  split_ifs at found with same
  · cases found
    exact same ▸ here.congr rfl known
  · exact (filed.entries other e found).congr rfl known

theorem setEntry (filed : s.Filed c) {key : String} {new : Entry} (here : new.Filed c s key) (clock : UInt64) :
    (Store.setEntry { s with history := { s.history with clock := clock } } key new).Filed c :=
  filed.insert here rfl rfl (fun _ _ known => known)

theorem congr (filed : s.Filed c) (entries : t.history.entries = s.history.entries) (name : t.bodyName = s.bodyName)
    (known : ∀ name k, knownKey c s name = .ok k → knownKey c t name = .ok k) : t.Filed c := by
  refine ⟨name ▸ filed.named, fun key e found => ?_⟩
  rw [entries] at found
  exact (filed.entries key e found).congr rfl known

theorem thin (filed : s.Filed c) (thinned : s.Thinned t) : t.Filed c := by
  refine ⟨thinned.trust.bodyName ▸ filed.named, fun key e found => ?_⟩
  have same := thinned.records key
  rw [found, Option.map_some, eq_comm, Option.map_eq_some_iff] at same
  obtain ⟨e', there, record⟩ := same
  exact (filed.entries key e' there).congr record.symm (fun name k known => (thinned.trust.knownKey name).trans known)

theorem sign (filed : s.Filed c) {key : String} {entry : Entry} {job : Job} {role : Role}
    (found : s.history.entries.get? key = some entry) (owned : ownedRole s entry.record job = some role)
    (success : publishFact c s key entry job role = .ok t) : t.Filed c := by
  obtain ⟨stdout, stderr, -, ⟨-, rfl⟩ | ⟨-, revision, signed, -, -, -, -, -, signedEntry, equal, rfl⟩⟩ :=
    publishFact_eq_ok success
  · exact filed
  have here := filed.entries key entry found
  have certificate : (Record.setFact entry.record role signed).certificate = entry.record.certificate := by
    cases role <;> rfl
  have written : Entry.Filed c s key { signedEntry with output := keptOutput c s signedEntry job } := by
    rw [equal]
    refine ⟨?_, ?_, fun runs => ?_⟩
    · dsimp only
      rw [certificate]
      exact here.keyed
    · dsimp only
      rw [certificate]
      exact here.paired
    · dsimp only at runs ⊢
      rw [certificate]
      cases role with
      | runner =>
        unfold ownedRole at owned
        split_ifs at owned with legacy own asks
        · cases owned
        · exact Option.not_isSome_iff_eq_none.mp legacy
        · cases owned
      | origin | legacyObserver => exact here.plain runs
  exact filed.setEntry written _

theorem base (filed : s.Filed c) {record : Record} (paired : record.certificate.invocation.Paired c s) :
    (History.base s c record.certificate).Filed c s (invocationHash c record.certificate) := by
  rw [History.base]
  cases found : s.history.entries.get? (invocationHash c record.certificate) with
  | none => exact .of_unsigned paired
  | some e => exact filed.entries _ e found

theorem ingest (filed : s.Filed c) {published : Published} {changed : Bool}
    (success : History.ingest c s published = .ok (t, changed)) : t.Filed c := by
  have ingested := ingest_eq_ok success
  obtain ⟨genuine, paired⟩ := validateRecord_eq_ok.mp ingested.valid
  obtain ⟨origin, runner, _, _, -, merged, -, same⟩ := ingested.merged
  rcases same with ⟨-, rfl⟩ | ⟨-, change, u, stamped, rfl⟩
  · exact filed
  obtain ⟨-, rfl, rfl⟩ := nextChange_eq_ok stamped
  refine filed.setEntry ?_ _
  refine ⟨?_, ?_, fun runs => ?_⟩
  · dsimp only
  · exact paired
  dsimp only at runs ⊢
  rcases (mergeFact_cases merged).1 with held | offered
  · rw [held] at runs
    exact ingested.certificate ▸ (filed.base paired).plain runs
  · rw [offered] at runs
    obtain ⟨signed, wrote⟩ := Option.ne_none_iff_exists'.mp runs
    exact (genuine.runner signed wrote).may.1

theorem touch (filed : s.Filed c) (touch : s.Touch c Allowed t) : t.Filed c := by
  cases touch with
  | thin thinned => exact filed.thin thinned
  | befriend work name seed known => exact filed.congr (congrArg _ work.history) name known
  | rename work seed alone named unrecorded =>
    refine ⟨named, fun key e found => ?_⟩
    rw [work.history, unrecorded filed.named] at found
    cases found
  | label unlabelled unbound =>
    refine filed.congr ?_ ?_ (fun name k known => ?_) <;> rw [markLegacy, if_neg (by rw [unlabelled]; decide)]
    exact known
  | certify old job key present unbound own ran =>
    obtain ⟨legacy, cert, chosen, made, rfl, -, rfl⟩ := bindOwned_eq_ok unbound ran
    exact filed.insert (.of_unsigned (certified_own own chosen made).1) rfl rfl (fun _ _ known => known)
  | admitted peer cert permitted valid modern ran =>
    obtain ⟨-, paired⟩ := validateInvocation_eq_ok.mp valid
    obtain ⟨-, u, added, same⟩ := bindAdmission_eq_ok ran
    rw [same]
    rcases ensureEntry_eq_ok added with ⟨-, rfl⟩ | ⟨-, -, rfl⟩
    · exact filed.congr rfl rfl (fun _ _ known => known)
    · exact filed.insert (.of_unsigned paired) rfl rfl (fun _ _ known => known)
  | sign key entry job role found bound matched own owned ran => exact filed.sign found owned ran
  | ingest published changed ran => exact filed.ingest ran

theorem complete (filed : s.Filed c) (completes : s.Completes t) : t.Filed c := by
  cases completes with
  | name hostname unnamed =>
    simp only [Daemon.isUnnamed, Bool.and_eq_true, beq_iff_eq] at unnamed
    have named := filed.named
    rw [unnamed.1.1.1] at named
    cases named
  | key seed keyless =>
    refine filed.congr rfl rfl (fun name k known => ?_)
    unfold knownKey at known ⊢
    split_ifs at known ⊢ with own
    · rw [List.isEmpty_iff] at keyless
      rw [publicKey, signingKey, keyless] at known
      cases known
    · exact known

end Store.Filed

theorem sustained_filed (c : Crypto) (Allowed : Store → Event → Prop) :
    Sustained c Allowed (fun s => s.Begun ∧ s.Filed c) :=
  Sustained.of_touch (fun _ _ touch filed => filed.touch touch) (fun _ _ completes filed => filed.complete completes)

/-! ## What a row is about -/

/-- What rows are told apart by: the ID, the machines, the command, and what it retries. -/
abbrev About := String × BodyId × BodyId × List String × Option String

namespace History

def View.about (v : View) : About := (v.job.id, v.job.origin, v.job.body, v.job.argv, v.retryOf)

def jobAbout (s : Store) (j : Job) : About := (j.id, j.origin, j.body, j.argv, s.retryLinks.get? j.id)

def invocationAbout (i : Invocation) : About := (i.id, i.origin, i.body, i.argv, i.retryOf)

def groupOf (a : About) : Group := viewGroup ⟨a.1, a.2.2.1, a.2.2.2.1, a.2.1, .queued, [], []⟩ a.2.2.2.2

theorem groupOf_injective : Function.Injective groupOf := by
  intro a b same
  obtain ⟨id, origin, body, argv, retryOf⟩ := viewGroup_inj.mp same
  exact Prod.ext id (Prod.ext origin (Prod.ext body (Prod.ext argv retryOf)))

variable {c : Crypto} {s : Store} {v v' : View} {key key' : String} {e e' : Entry}

theorem group_eq (v : View) : v.group = groupOf v.about := viewGroup_inj.mpr ⟨rfl, rfl, rfl, rfl, rfl⟩

theorem jobGroup_eq (s : Store) (j : Job) : jobGroup s j = groupOf (jobAbout s j) :=
  viewGroup_inj.mpr ⟨rfl, rfl, rfl, rfl, rfl⟩

theorem invocationGroup_eq (i : Invocation) : invocationGroup i = groupOf (invocationAbout i) := rfl

/-! ## Observations -/

theorem mem_observations (ids : (s.jobs.map (·.id)).Nodup) (shown : v ∈ views c s) {o : Observation} :
    o ∈ v.observations ↔ ∃ key e, s.history.entries.get? key = some e ∧
      invocationAbout e.record.certificate.invocation = v.about ∧ o ∈ observationsOf c e.record := by
  have rows : o ∈ (groupRows c s v.group).flatMap (·.2.observations) ↔ ∃ key e,
      s.history.entries.get? key = some e ∧ invocationAbout e.record.certificate.invocation = v.about ∧
        o ∈ observationsOf c e.record := by
    simp only [List.mem_flatMap, groupRows_eq, List.mem_filterMap, List.mem_filter, decide_eq_true_eq]
    constructor
    · rintro ⟨row, ⟨⟨key, e⟩, ⟨there, group⟩, made⟩, inside⟩
      obtain ⟨fact, -, rfl⟩ := Option.map_eq_some_iff.mp made
      rw [invocationGroup_eq, group_eq] at group
      exact ⟨key, e, OrdMap.get?_eq_some_iff.mpr there, groupOf_injective group, inside⟩
    · rintro ⟨key, e, found, about, inside⟩
      cases selected : e.record.selected with
      | none =>
        have absent : e.record.runner = none ∧ e.record.origin = none := by
          rw [Record.selected] at selected
          cases ran : e.record.runner with
          | none => exact ⟨rfl, by rwa [ran] at selected⟩
          | some fact => rw [ran] at selected; cases selected
        rw [observationsOf, absent.1, absent.2] at inside
        cases inside
      | some fact =>
        refine ⟨_, ⟨(key, e), ⟨OrdMap.get?_eq_some_iff.mp found, ?_⟩, by rw [entryRow, selected]; rfl⟩, inside⟩
        rw [invocationGroup_eq, group_eq, about]
  rcases view_cases ids shown with ⟨j, -, silent, same⟩ | ⟨key, e, fact, observations, -, -, perm, same⟩
  · rw [← rows, silent]
    rw [same]
    exact iff_of_false List.not_mem_nil List.not_mem_nil
  · rw [← rows, ← perm.mem_iff]
    conv_lhs => rw [same]
    cases lost : lostJob s _ with
    | none => rw [warned_of_not_lost lost]
    | some j =>
      rw [warned_of_lost lost, warnRow]
      split_ifs <;> rfl

/-! ## What a row of a run shows -/

theorem standing_of_runner {record : Record} (modern : record.certificate.invocation.legacyObserver = none)
    (ran : record.runner ≠ none) : (standing record).1 = 4 := by
  obtain ⟨signed, ran⟩ := Option.ne_none_iff_exists'.mp ran
  rw [standing, modern, ran]
  rfl

theorem runner_of_standing {record : Record} (most : 4 ≤ (standing record).1) :
    record.certificate.invocation.legacyObserver = none ∧ record.runner ≠ none := by
  unfold standing at most
  split at most
  · split_ifs at most <;> omega
  · next modern =>
    split_ifs at most with ran
    · exact ⟨modern, Option.isSome_iff_ne_none.mp ran⟩
    · omega

/-- Two modern records of the same that a machine has paired the authors of are one. -/
theorem key_eq_of_about (filed : e.Filed c s key) (filed' : e'.Filed c s key')
    (modern : e.record.certificate.invocation.legacyObserver = none)
    (modern' : e'.record.certificate.invocation.legacyObserver = none)
    (about : invocationAbout e.record.certificate.invocation = invocationAbout e'.record.certificate.invocation) :
    key = key' := by
  have paired := filed.paired
  have paired' := filed'.paired
  rw [← filed.keyed, ← filed'.keyed, invocationHash, invocationHash]
  cases h : e.record.certificate.invocation with
  | mk id origin originKey body runnerKey argv retryOf legacyObserver =>
  cases h' : e'.record.certificate.invocation with
  | mk id' origin' originKey' body' runnerKey' argv' retryOf' legacyObserver' =>
    rw [h] at paired modern about
    rw [h'] at paired' modern' about
    cases about
    cases modern
    cases modern'
    have origins := paired.1.symm.trans paired'.1
    have runners := paired.2.symm.trans paired'.2
    cases origins
    cases runners
    rfl

/-- A row whose invocation has a runner fact is that of its entry. -/
theorem runner_leads (filed : s.Filed c) (found : s.history.entries.get? key = some e) (ran : e.record.runner ≠ none)
    {g : Group} (group : invocationGroup e.record.certificate.invocation = g) (leads : Leads s g key' e') :
    key' = key ∧ e' = e := by
  have modern := (filed.entries key e found).plain ran
  have told : e.record.selected ≠ none := by
    obtain ⟨signed, ran⟩ := Option.ne_none_iff_exists'.mp ran
    rw [Record.selected, ran]
    simp
  have high : 4 ≤ (standing e'.record).1 := by
    rw [← standing_of_runner modern ran]
    rcases leads.most key e found group told with low | ⟨tie, -⟩
    · exact low.le
    · exact tie.le
  have about : invocationAbout e'.record.certificate.invocation = invocationAbout e.record.certificate.invocation := by
    refine groupOf_injective ?_
    rw [← invocationGroup_eq, ← invocationGroup_eq, leads.group, group]
  have same := key_eq_of_about (filed.entries key' e' leads.found) (filed.entries key e found)
    (runner_of_standing high).1 modern about
  subst same
  exact ⟨rfl, Option.some.inj (leads.found.symm.trans found)⟩

/-- A local row that shows a loss of its outcome that no fact tells. -/
structure Lost (s : Store) (a : About) (status : JobStatus) (j : Job) : Prop where
  listed : j ∈ s.jobs
  about : jobAbout s j = a
  own : j.body.name = s.bodyName
  uncertain : isUncertain j.status = true
  untold : status ≠ j.status

theorem lostJob_eq_some (ids : (s.jobs.map (·.id)).Nodup) {a : About} {j : Job} : lostJob s (groupOf a) = some j ↔
    j ∈ s.jobs ∧ jobAbout s j = a ∧ j.body.name = s.bodyName ∧ isUncertain j.status = true := by
  have found : jobOf s (groupOf a) = some j ↔ j ∈ s.jobs ∧ jobAbout s j = a := by
    rw [← Option.mem_toList, ← filter_jobGroup ids, List.mem_filter, decide_eq_true_iff, jobGroup_eq]
    exact and_congr_right (fun _ => groupOf_injective.eq_iff)
  rw [lostJob, Option.filter_eq_some_iff, found, Bool.and_eq_true, decide_eq_true_iff, and_assoc]

/-- The diagnostic of a lost outcome changes the status, and nothing else that is shown. -/
theorem warned_cases (ids : (s.jobs.map (·.id)).Nodup) (v : View) :
    (∃ j, Lost s v.about v.job.status j ∧ warned s v =
      { v with job := { v.job with status := j.status }, localWarning := some unsavedWarning }) ∨
    (∀ j, ¬Lost s v.about v.job.status j) ∧ warned s v = v := by
  cases lost : lostJob s v.group with
  | none =>
    refine .inr ⟨fun j loss => ?_, warned_of_not_lost lost⟩
    rw [group_eq, (lostJob_eq_some ids).mpr ⟨loss.listed, loss.about, loss.own, loss.uncertain⟩] at lost
    cases lost
  | some j =>
    have shown := warned_of_lost lost
    rw [group_eq, lostJob_eq_some ids] at lost
    obtain ⟨listed, about, own, uncertain⟩ := lost
    by_cases same : v.job.status = j.status
    · rw [warnRow, if_neg (not_not.mpr same)] at shown
      refine .inr ⟨fun j' loss => loss.untold ?_, shown⟩
      have equal : j' = j := by
        have first := (lostJob_eq_some ids).mpr ⟨loss.listed, loss.about, loss.own, loss.uncertain⟩
        rw [(lostJob_eq_some ids).mpr ⟨listed, about, own, uncertain⟩] at first
        exact (Option.some.inj first).symm
      exact equal ▸ same
    · rw [warnRow, if_pos same] at shown
      exact .inl ⟨j, ⟨listed, about, own, uncertain, same⟩, shown⟩

/-- A log that shows what is recorded. -/
structure Faithful (c : Crypto) (s : Store) : Prop where
  once : ((views c s).map View.about).Nodup
  rows : ∀ a, a ∈ (views c s).map View.about ↔ (∃ j ∈ s.jobs, jobAbout s j = a) ∨
    ∃ key e, s.history.entries.get? key = some e ∧ e.record.selected ≠ none ∧
      invocationAbout e.record.certificate.invocation = a
  facts : ∀ key e signed, s.history.entries.get? key = some e →
    e.record.origin = some signed ∨ e.record.runner = some signed →
    ∃ v ∈ views c s, v.about = invocationAbout e.record.certificate.invocation ∧
      ⟨key, signed.fact.role, e.record.certificate.invocation.legacyObserver, signed.fact.status⟩ ∈ v.observations ∧
      ∀ v' ∈ views c s, ⟨key, signed.fact.role, e.record.certificate.invocation.legacyObserver, signed.fact.status⟩ ∈
        v'.observations → v' = v
  runner : ∀ v ∈ views c s, ∀ key e signed, s.history.entries.get? key = some e →
    invocationAbout e.record.certificate.invocation = v.about → e.record.runner = some signed →
    v.invocation = some key ∧ v.stdout = signed.fact.stdout ∧ v.stderr = signed.fact.stderr ∧
      ((∃ j, Lost s v.about signed.fact.status j ∧ v.job.status = j.status ∧ v.localWarning = some unsavedWarning) ∨
        (∀ j, ¬Lost s v.about signed.fact.status j) ∧ v.job.status = signed.fact.status ∧ v.localWarning = none)
  output : ∀ v ∈ views c s, v.outputAvailable = true →
    OutputRef.of c v.job.stdout = v.stdout ∧ OutputRef.of c v.job.stderr = v.stderr ∨
      v.stdout.bytes = 0 ∧ v.stderr.bytes = 0 ∧ v.job.stdout = [] ∧ v.job.stderr = []
  one : ∀ id, viewsForJob c s id = (views c s).filter (fun v => decide (v.job.id = id))

theorem mem_about_iff {a : About} : a ∈ (views c s).map View.about ↔ ∃ v ∈ views c s, v.group = groupOf a := by
  rw [List.mem_map]
  refine exists_congr (fun v => and_congr_right (fun _ => ?_))
  rw [group_eq]
  exact groupOf_injective.eq_iff.symm

theorem groupRows_ne_nil {g : Group} : groupRows c s g ≠ [] ↔ ∃ key e, s.history.entries.get? key = some e ∧
    e.record.selected ≠ none ∧ invocationGroup e.record.certificate.invocation = g := by
  rw [groupRows_eq, ne_eq, List.filterMap_eq_nil_iff]
  simp only [List.mem_filter, decide_eq_true_eq, entryRow, Option.map_eq_none_iff, not_forall, Prod.exists]
  constructor
  · rintro ⟨key, e, ⟨there, group⟩, told⟩
    exact ⟨key, e, OrdMap.get?_eq_some_iff.mpr there, told, group⟩
  · rintro ⟨key, e, found, told, group⟩
    exact ⟨key, e, ⟨OrdMap.get?_eq_some_iff.mp found, group⟩, told⟩

theorem jobOf_ne_none {a : About} : jobOf s (groupOf a) ≠ none ↔ ∃ j ∈ s.jobs, jobAbout s j = a := by
  rw [jobOf, ne_eq, List.find?_eq_none]
  simp only [not_forall, decide_eq_true_eq, not_not, jobGroup_eq, groupOf_injective.eq_iff, exists_prop]

theorem mem_observationsOf {record : Record} {o : Observation} : o ∈ observationsOf c record ↔
    ∃ signed, (record.origin = some signed ∨ record.runner = some signed) ∧
      o = ⟨invocationHash c record.certificate, signed.fact.role, record.certificate.invocation.legacyObserver,
        signed.fact.status⟩ := by
  simp only [observationsOf, List.mem_filterMap, List.mem_cons, List.not_mem_nil, or_false, Option.map_eq_some_iff]
  constructor
  · rintro ⟨_, held | held, signed, rfl, rfl⟩
    · exact ⟨signed, .inl held.symm, rfl⟩
    · exact ⟨signed, .inr held.symm, rfl⟩
  · rintro ⟨signed, held | held, rfl⟩
    · exact ⟨_, .inl rfl, signed, held, rfl⟩
    · exact ⟨_, .inr rfl, signed, held, rfl⟩

/-- What the row of an entry shows, whatever diagnostic it carries. -/
theorem about_warned (ids : (s.jobs.map (·.id)).Nodup) (v : View) : (warned s v).about = v.about := by
  rcases warned_cases ids v with ⟨j, -, same⟩ | ⟨-, same⟩ <;> rw [same]
  rfl

theorem selected_of_runner {record : Record} {signed : SignedFact} (ran : record.runner = some signed) :
    record.selected = some signed := by
  rw [Record.selected, ran]
  rfl

theorem faithful_of_filed (ids : (s.jobs.map (·.id)).Nodup) (filed : s.Filed c) : Faithful c s where
  once := by
    have groups := groups_nodup c s
    rw [List.map_congr_left (fun v _ => group_eq v)] at groups
    exact List.Nodup.of_map groupOf (by rwa [List.map_map])
  rows a := by
    rw [mem_about_iff, exists_view ids, jobOf_ne_none, groupRows_ne_nil]
    simp only [invocationGroup_eq, groupOf_injective.eq_iff]
  facts key e signed found held := by
    have keyed := (filed.entries key e found).keyed
    have inside : ⟨key, signed.fact.role, e.record.certificate.invocation.legacyObserver, signed.fact.status⟩ ∈
        observationsOf c e.record := mem_observationsOf.mpr ⟨signed, held, by rw [keyed]⟩
    have told : e.record.selected ≠ none := by
      rw [Record.selected]
      rcases held with held | held <;> rw [held]
      · cases e.record.runner <;> simp
      · simp
    obtain ⟨v, shown, group⟩ := (exists_view ids).mpr (.inr (groupRows_ne_nil.mpr ⟨key, e, found, told, rfl⟩))
    have about : v.about = invocationAbout e.record.certificate.invocation :=
      groupOf_injective ((group_eq v).symm.trans group)
    refine ⟨v, shown, about, (mem_observations ids shown).mpr ⟨key, e, found, about.symm, inside⟩, fun v' shown' also => ?_⟩
    obtain ⟨key', e', found', about', inside'⟩ := (mem_observations ids shown').mp also
    obtain ⟨_, -, same⟩ := mem_observationsOf.mp inside'
    obtain rfl : key = key' := (congrArg Observation.invocation same).trans (filed.entries key' e' found').keyed
    obtain rfl : e = e' := Option.some.inj (found.symm.trans found')
    refine List.inj_on_of_nodup_map (groups_nodup c s) shown' shown ?_
    rw [group_eq, group_eq, ← about', about]
  runner v shown key e signed found about ran := by
    have told : groupRows c s v.group ≠ [] := groupRows_ne_nil.mpr ⟨key, e, found,
      by rw [selected_of_runner ran]; simp, by rw [invocationGroup_eq, about, group_eq]⟩
    rcases view_cases ids shown with ⟨j, -, silent, -⟩ | ⟨key', e', fact, observations, leads, selected, -, same⟩
    · exact absurd silent told
    obtain ⟨rfl, rfl⟩ := runner_leads filed found (by rw [ran]; simp)
      (by rw [invocationGroup_eq, about, group_eq]) leads
    rw [selected_of_runner ran] at selected
    cases selected
    have keyed := (filed.entries key' e' found).keyed
    rcases warned_cases ids { entryView c s (s.job? e'.record.certificate.invocation.id) e' signed with
        observations := observations } with ⟨j, loss, shows⟩ | ⟨quiet, shows⟩
    · rw [shows] at same
      subst same
      exact ⟨congrArg some keyed, rfl, rfl, .inl ⟨j, loss, rfl, rfl⟩⟩
    · rw [shows] at same
      subst same
      exact ⟨congrArg some keyed, rfl, rfl, .inr ⟨quiet, rfl, rfl⟩⟩
  output v shown available := by
    rcases view_cases ids shown with ⟨j, -, -, rfl⟩ | ⟨key, e, fact, observations, -, selected, -, same⟩
    · exact .inl ⟨rfl, rfl⟩
    have kept : v.outputAvailable = (entryView c s (s.job? e.record.certificate.invocation.id) e fact).outputAvailable ∧
        v.job.stdout = (entryView c s (s.job? e.record.certificate.invocation.id) e fact).job.stdout ∧
        v.job.stderr = (entryView c s (s.job? e.record.certificate.invocation.id) e fact).job.stderr ∧
        v.stdout = fact.fact.stdout ∧ v.stderr = fact.fact.stderr := by
      rcases warned_cases ids { entryView c s (s.job? e.record.certificate.invocation.id) e fact with
        observations := observations } with ⟨j, -, shows⟩ | ⟨-, shows⟩ <;>
      · rw [shows] at same
        subst same
        exact ⟨rfl, rfl, rfl, rfl, rfl⟩
    obtain ⟨availability, stdout, stderr, out, err⟩ := kept
    rw [stdout, stderr, out, err]
    rw [availability] at available
    unfold entryView at available ⊢
    dsimp only at available ⊢
    cases chosen : selectedOutput c s e (s.job? e.record.certificate.invocation.id) with
    | some output =>
      obtain ⟨signed, shown, matched⟩ := selectedOutput_matches chosen
      rw [selected] at shown
      cases shown
      rw [outputMatches, Bool.and_eq_true, beq_iff_eq, beq_iff_eq] at matched
      exact .inl matched
    | none =>
      rw [chosen, Option.isSome_none, Bool.false_or, Bool.and_eq_true, decide_eq_true_iff, decide_eq_true_iff] at available
      exact .inr ⟨available.1, available.2, rfl, rfl⟩
  one := viewsForJob_eq c s

end History

/-- In every run, no two rows share an ID, and entries stand where they belong. -/
theorem Daemon.everywhere_filed (c : Crypto) (file : Store) (initial : file.Initial) (events : List (Env × Event)) :
    Everywhere (fun image => (image.store.jobs.map (·.id)).Nodup ∧ image.store.Filed c)
      ((installed file).run c events).cell := by
  have start : Everywhere (Image.Being (fun s => s.Begun ∧ s.Filed c)) (installed file).cell := by
    refine everywhere_installed ⟨initial.begun, initial.named, fun key e found => ?_⟩
    rw [initial.unrecorded] at found
    cases found
  have filed := everywhere_run (sustained_filed c (fun _ _ => True)) initial.inv (ready_installed file) events
    (permitsAll_true _ events) start
  have inv : Inv c ((installed file).run c events) := inv_run initial.inv events
  have fit (image : Image) (first : Image.Being (fun s => s.Begun ∧ s.Filed c) image)
      (second : Image.Has (fun desk _ => desk.Unique) image) :
      (image.store.jobs.map (·.id)).Nodup ∧ image.store.Filed c := by
    change ((image.store.jobs.map Job.row).map (·.id)).Nodup at second
    rw [List.map_map] at second
    exact ⟨second, first.2⟩
  exact ⟨fit _ filed.1 inv.unique.1, fit _ filed.2.1 inv.unique.2.1,
    fun old here => fit _ (filed.2.2 old here) (inv.unique.2.2 old here)⟩

/-- In every run, whatever is in memory or may be found on disk is shown faithfully. -/
theorem Daemon.log_faithful (c : Crypto) (file : Store) (initial : file.Initial) (events : List (Env × Event)) :
    Everywhere (fun image => Faithful c image.store) ((installed file).run c events).cell :=
  (everywhere_filed c file initial events).mono (fun _ stands => faithful_of_filed stands.1 stands.2)

/-! ## A fact with a digest that is not of its output -/

namespace LogExample

set_option maxRecDepth 40000

def crypto : Crypto := Crypto.transparent

def aliceKey : Bytes := List.replicate 32 1

def bobKey : Bytes := List.replicate 32 2

def alice : Peer := ⟨⟨"alice"⟩, aliceKey, none⟩

def env : Env where
  now := ⟨0, .mon, 0, 0⟩
  newId := .ok "request"
  epochId := .ok "epoch"
  fs := ⟨fun _ => .error .unreachable, fun _ => .error .unreachable⟩
  fault := none
  meshBusy := false

def file : Store := Store.first crypto "bobs" "bob" bobKey

theorem initial : file.Initial where
  named := by rfl
  unique := List.nodup_nil
  unbound := by rfl
  unlabelled := by rfl
  unrecorded := by rfl

def paired : List (Env × Event) := [
  (env, .restart ⟨false, "bob", bobKey, none, none, none⟩),
  (env, .pair "bob" bobKey alice)]

def asking : Daemon := (Daemon.installed file).run crypto paired

def sync : Sync := ⟨⟨"alice"⟩, progress asking.store ⟨"alice"⟩, asking.store.history.trust⟩

def invocation : Invocation := ⟨"job", ⟨"alice"⟩, aliceKey, ⟨"bob"⟩, bobKey, ["tool"], none, none⟩

def certificate : Certificate := ⟨invocation, crypto.sign aliceKey (bytes "invocation" invocation)⟩

/-- No output, under the digest of some. -/
def digest : OutputRef := ⟨0, crypto.hash [1]⟩

def fact : Fact := ⟨invocationHash crypto certificate, .origin, 1, .queued, digest, digest⟩

def page : Page := ⟨"alices", true, 1, 1, true,
  [⟨⟨certificate, some ⟨fact, crypto.sign aliceKey (bytes "fact" fact)⟩, none⟩, none, 1⟩]⟩

def merged : List (Env × Event) := paired ++ [(env, .startSync ⟨"alice"⟩), (env, .mergePage sync page)]

theorem shown_wrong : ∃ v ∈ views crypto ((Daemon.installed file).run crypto merged).store, v.outputAvailable = true ∧
    OutputRef.of crypto v.job.stdout ≠ v.stdout := by
  decide

theorem merged_faithful : Everywhere (fun image => Faithful crypto image.store)
    ((Daemon.installed file).run crypto merged).cell := Daemon.log_faithful crypto file initial merged

end LogExample

end Clix
