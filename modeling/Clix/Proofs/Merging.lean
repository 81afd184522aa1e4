import Clix.Proofs.Facts
import Clix.Proofs.Paging

/-! # Merging rows one after the other

What a machine holds after it merged some rows: of each slot the newest fact that it held or was offered. A row is
refused for three reasons only: its authors are not paired under their keys, what it says conflicts with what is held
by then, or the clock has no room.
-/

namespace Clix.History

open Except Versioned

variable {c : Crypto} {s t u : Store} {row : Published} {rows rest done all : List Published} {key : String}
  {role : Role} {unknown unknown' : Bool}

/-- Whether a machine has paired the authors of a row, by name and key. -/
abbrev Published.Paired (c : Crypto) (s : Store) (row : Published) : Prop :=
  row.record.certificate.invocation.Paired c s

instance (c : Crypto) (s : Store) (i : Invocation) : Decidable (i.Paired c s) :=
  match legacy : i.legacyObserver with
  | some observer =>
    decidable_of_iff (knownKey c s observer = .ok (i.keyOf .legacyObserver)) (by rw [Invocation.Paired, legacy])
  | none =>
    decidable_of_iff (knownKey c s i.origin = .ok i.originKey ∧ knownKey c s i.body = .ok i.runnerKey)
      (by rw [Invocation.Paired, legacy])

/-- The facts that a machine held before, or was offered. -/
def told (c : Crypto) (s : Store) (rows : List Published) (key : String) (role : Role) : Set SignedFact :=
  {signed | s.fact? key role = some signed ∨ ∃ row ∈ rows,
    invocationHash c row.record.certificate = key ∧ Record.fact? row.record role = some signed}

/-- A machine has no part in an invocation and has not pruned it. -/
structure Apart (s : Store) (key : String) : Prop where
  unbound : ∀ id, s.jobCertificates.get? id ≠ some key
  kept : s.historyPruned.contains key = false

/-- What some rows say agrees with what a machine holds: one certificate for an invocation, and no fact that conflicts
with the newest one before it. -/
structure Agreeing (c : Crypto) (s : Store) (rows : List Published) : Prop where
  certificates : ∀ row ∈ rows, ∀ other ∈ rows,
    invocationHash c row.record.certificate = invocationHash c other.record.certificate →
    row.record.certificate = other.record.certificate
  held : ∀ row ∈ rows, ∀ e, s.history.entries.get? (invocationHash c row.record.certificate) = some e →
    e.record.certificate = row.record.certificate
  continues : ∀ before row after, rows = before ++ row :: after → ∀ role newest offered,
    Newest (told c s before (invocationHash c row.record.certificate) role) (some newest) →
    Record.fact? row.record role = some offered → Continues newest offered

/-- What a machine has when it merged some rows. -/
structure Merged (c : Crypto) (s : Store) (done : List Published) (t : Store) : Prop where
  trust : s.SameTrust t
  clock : t.history.clock.toNat ≤ s.history.clock.toNat + done.length
  present : ∀ key, t.history.entries.get? key = none ↔
    s.history.entries.get? key = none ∧ ∀ row ∈ done, invocationHash c row.record.certificate ≠ key
  before : ∀ key e e', s.history.entries.get? key = some e → t.history.entries.get? key = some e' →
    e'.record.certificate = e.record.certificate
  certificate : ∀ row ∈ done, ∀ e, t.history.entries.get? (invocationHash c row.record.certificate) = some e →
    e.record.certificate = row.record.certificate
  latest : ∀ key role, Latest (told c s done key role) (t.fact? key role)

/-! ### One row -/

theorem one_of_mergeFact {existing incoming merged : Option SignedFact} {changed : Bool}
    (success : mergeFact existing incoming = .ok (merged, changed)) : merged = existing ∨ merged = incoming := by
  cases incoming with
  | none =>
    cases success
    exact .inl rfl
  | some incoming =>
    cases existing with
    | none =>
      cases success
      exact .inr rfl
    | some current =>
      rw [mergeFact] at success
      split_ifs at success <;> cases success
      · exact .inl rfl
      · exact .inl rfl
      · exact .inr rfl

theorem mergeFact_iff {existing incoming : Option SignedFact} :
    (∃ merged changed, mergeFact existing incoming = .ok (merged, changed)) ↔
      ∀ a b, existing = some a → incoming = some b → Continues a b := by
  cases incoming with
  | none => exact ⟨fun _ _ _ _ absent => (by cases absent), fun _ => ⟨existing, false, rfl⟩⟩
  | some incoming =>
    cases existing with
    | none => exact ⟨fun _ _ _ absent => (by cases absent), fun _ => ⟨some incoming, true, rfl⟩⟩
    | some current =>
      have order : current.fact.revision.toNat ≤ incoming.fact.revision.toNat ↔
          ¬incoming.fact.revision < current.fact.revision := by
        rw [UInt64.lt_iff_toNat_lt, not_lt]
      constructor
      · rintro ⟨merged, changed, success⟩ a b held offered below
        obtain rfl := Option.some.inj held
        obtain rfl := Option.some.inj offered
        rw [mergeFact] at success
        split_ifs at success with older same differs final
        · exact absurd older (order.mp below)
        · exact .inl (not_not.mp differs)
        · have apart : current.fact.revision.toNat ≠ incoming.fact.revision.toNat := fun equal =>
            same (UInt64.toNat_inj.mp equal).symm
          exact .inr ⟨lt_of_le_of_ne below apart, Bool.not_eq_true _ ▸ final⟩
      · intro continues
        have reached := continues current incoming rfl rfl
        rw [mergeFact]
        split_ifs with older same differs final
        · exact ⟨_, _, rfl⟩
        · rcases reached (order.mpr older) with equal | ⟨later, -⟩
          · exact absurd equal differs
          · exact absurd (congrArg UInt64.toNat same) later.ne'
        · exact ⟨_, _, rfl⟩
        · rcases reached (order.mpr older) with equal | ⟨-, open'⟩
          · exact absurd (congrArg (fun signed => signed.fact.revision) equal) same
          · exact absurd (Eq.trans (Eq.symm final) open') (by decide)
        · exact ⟨_, _, rfl⟩

/-- A valid row merges when its facts do. -/
theorem ingest_of_facts (valid : validateRecord c s row.record = .ok ()) (described : validateOutput c row = .ok ())
    (certificate : (base s c row.record.certificate).record.certificate = row.record.certificate)
    {origin runner : Option SignedFact} {originChanged runnerChanged : Bool}
    (first : mergeFact (base s c row.record.certificate).record.origin row.record.origin = .ok (origin, originChanged))
    (second : mergeFact (base s c row.record.certificate).record.runner row.record.runner = .ok (runner, runnerChanged))
    (room : s.history.clock.toNat + 1 < 2 ^ 64) : ∃ next, ingest c s row = .ok next := by
  unfold ingest
  unfold base at certificate first second
  rw [valid, ok_bind, described, ok_bind]
  dsimp only
  rw [refuseIf_neg (not_not.mpr certificate), ok_bind, first, ok_bind, second, ok_bind]
  dsimp only
  split_ifs
  · rw [nextChange_of_room room, ok_bind]
    exact ⟨_, rfl⟩
  · exact ⟨_, rfl⟩

theorem heldLocally_of_apart (apart : Apart s key) (record : Record) : heldLocally c s key record = false := by
  rw [heldLocally]
  cases record.selected with
  | none => rfl
  | some selected =>
    refine List.any_eq_false.mpr (fun job _ => ?_)
    have unbound : (s.jobCertificates.get? job.id == some key) = false := beq_false_of_ne (apart.unbound job.id)
    rw [admittedUnder, unbound, Bool.false_and, Bool.false_and]
    exact Bool.false_ne_true

/-- What a merged row leaves in its entry. -/
structure Landed (c : Crypto) (s : Store) (row : Published) (t : Store) (e : Entry) : Prop where
  found : t.history.entries.get? (invocationHash c row.record.certificate) = some e
  rest : ∀ key, key ≠ invocationHash c row.record.certificate → t.history.entries.get? key = s.history.entries.get? key
  certificate : e.record.certificate = row.record.certificate
  origin : ∃ changed, mergeFact (base s c row.record.certificate).record.origin row.record.origin =
    .ok (e.record.origin, changed)
  runner : ∃ changed, mergeFact (base s c row.record.certificate).record.runner row.record.runner =
    .ok (e.record.runner, changed)
  output : Apart s (invocationHash c row.record.certificate) → e.output = (mergeOutput c s
    (invocationHash c row.record.certificate)
    { base s c row.record.certificate with record := e.record } row.output).1
  clock : t.history.clock.toNat ≤ s.history.clock.toNat + 1

/-- When a merge changes nothing, the output it would keep is the one that is there. -/
theorem mergeOutput_unchanged {entry : Entry} {incoming : Option CapturedOutput}
    (elsewhere : heldLocally c s key entry.record = false) (unchanged : (mergeOutput c s key entry incoming).2 = false) :
    (mergeOutput c s key entry incoming).1 = entry.output := by
  rw [mergeOutput, elsewhere, if_neg Bool.false_ne_true] at unchanged ⊢
  cases selected : entry.record.selected with
  | none => rfl
  | some signed =>
    rw [selected] at unchanged
    dsimp only at unchanged ⊢
    split_ifs at unchanged ⊢
    rw [Option.isSome_eq_false_iff, Option.isNone_iff_eq_none] at unchanged
    rw [unchanged]
    rfl

theorem landed_of_ingest {changed : Bool} (success : ingest c s row = .ok (t, changed)) : ∃ e, Landed c s row t e := by
  have ingested := ingest_eq_ok success
  obtain ⟨origin, runner, originChanged, runnerChanged, first, second, same, ⟨unchanged, rfl⟩ | ⟨-, change, u, stamped, rfl⟩⟩ :=
    ingested.merged
  · rw [unchanged] at same
    simp only [Bool.or_eq_false_iff, eq_comm (a := false)] at same
    obtain ⟨⟨⟨rfl, rfl⟩, kept⟩, there⟩ := same
    obtain ⟨e, found⟩ := Option.isSome_iff_exists.mp (Option.isNone_eq_false_iff.mp there)
    have held : base t c row.record.certificate = e := by rw [base, found, Option.getD_some]
    have certificate := ingested.certificate
    rw [held] at first second kept certificate
    obtain rfl := eq_of_mergeFact first
    obtain rfl := eq_of_mergeFact second
    have record : (⟨row.record.certificate, e.record.origin, e.record.runner⟩ : Record) = e.record := by
      rw [← certificate]
    rw [record] at kept
    refine ⟨e, found, fun _ _ => rfl, certificate, ⟨false, held ▸ first⟩, ⟨false, held ▸ second⟩, fun apart => ?_,
      Nat.le_succ _⟩
    rw [held]
    exact (mergeOutput_unchanged (heldLocally_of_apart apart _) kept).symm
  · obtain ⟨room, rfl, rfl⟩ := nextChange_eq_ok stamped
    refine ⟨_, OrdMap.get?_insert_self _ _ _, fun key differs => OrdMap.get?_insert_of_ne _ _ differs, rfl, ⟨_, first⟩,
      ⟨_, second⟩, fun _ => rfl, ?_⟩
    change (s.history.clock + 1).toNat ≤ _
    rw [UInt64.toNat_add]
    exact Nat.mod_le _ _

/-! ### All rows -/

theorem told_mono (fewer : ∀ row ∈ done, row ∈ all) : told c s done key role ⊆ told c s all key role := by
  rintro signed (held | ⟨row, member, same, offered⟩)
  · exact .inl held
  · exact .inr ⟨row, fewer row member, same, offered⟩

theorem told_append (c : Crypto) (s : Store) (done : List Published) (row : Published) (key : String) (role : Role) :
    told c s (done ++ [row]) key role = told c s done key role ∪
      {signed | invocationHash c row.record.certificate = key ∧ Record.fact? row.record role = some signed} := by
  ext signed
  constructor
  · rintro (held | ⟨other, member, same⟩)
    · exact .inl (.inl held)
    · rcases List.mem_append.mp member with before | here
      · exact .inl (.inr ⟨other, before, same⟩)
      · exact .inr (List.mem_singleton.mp here ▸ same)
  · rintro ((held | ⟨other, member, same⟩) | same)
    · exact .inl held
    · exact .inr ⟨other, List.mem_append_left _ member, same⟩
    · exact .inr ⟨row, List.mem_append_right _ (List.mem_singleton_self row), same⟩

theorem fact?_base (s : Store) (cert : Certificate) (role : Role) :
    Record.fact? (base s c cert).record role = s.fact? (invocationHash c cert) role := by
  rw [Store.fact?, base]
  cases s.history.entries.get? (invocationHash c cert) with
  | none => cases role <;> rfl
  | some e => rfl

theorem Landed.fact {e : Entry} (landed : Landed c s row t e) (role : Role) :
    ∃ changed, mergeFact (s.fact? (invocationHash c row.record.certificate) role) (Record.fact? row.record role) =
      .ok (t.fact? (invocationHash c row.record.certificate) role, changed) := by
  have found : t.fact? (invocationHash c row.record.certificate) role = Record.fact? e.record role := by
    rw [Store.fact?, landed.found, Option.bind_some]
  rw [← fact?_base, found]
  cases role with
  | runner => exact landed.runner
  | origin | legacyObserver => exact landed.origin

/-- Of a merged row's slots each holds the newest fact there was. -/
theorem Landed.latest {e : Entry} (landed : Landed c t row u e)
    (latest : ∀ key role, Latest (told c s done key role) (t.fact? key role)) (key : String) (role : Role) :
    Latest (told c s (done ++ [row]) key role) (u.fact? key role) := by
  rw [told_append]
  by_cases same : key = invocationHash c row.record.certificate
  · subst same
    obtain ⟨changed, merged⟩ := landed.fact role
    obtain ⟨succeeds, reaches⟩ := mergeFact_eq_ok merged
    have offered : {signed | invocationHash c row.record.certificate = invocationHash c row.record.certificate ∧
        Record.fact? row.record role = some signed} = {signed | Record.fact? row.record role = some signed} := by
      ext signed
      exact and_iff_right rfl
    rw [offered]
    exact (latest _ role).merge succeeds reaches (one_of_mergeFact merged)
  · have none : {signed | invocationHash c row.record.certificate = key ∧ Record.fact? row.record role = some signed} = ∅ :=
      Set.eq_empty_of_forall_notMem (fun signed there => same there.1.symm)
    rw [none, Set.union_empty, Store.fact?, landed.rest key same]
    exact latest key role

theorem merged_refl (c : Crypto) (s : Store) : Merged c s [] s where
  trust := .refl s
  clock := le_rfl
  present key := ⟨fun none => ⟨none, fun row member => absurd member List.not_mem_nil⟩, And.left⟩
  before key e e' held found := by rw [Option.some.inj (held.symm.trans found)]
  certificate row member := absurd member List.not_mem_nil
  latest key role := by
    have only : told c s [] key role = {signed | s.fact? key role = some signed} := by
      ext signed
      refine or_iff_left ?_
      rintro ⟨row, member, -⟩
      exact List.not_mem_nil member
    rw [only]
    exact latest_self _

namespace Merged

/-- The entry that a row merges into has a certificate, of an earlier row or from before. -/
theorem base_certificate (merged : Merged c s done t) (agreeing : Agreeing c s all) (fewer : ∀ row ∈ done, row ∈ all)
    (member : row ∈ all) : (base t c row.record.certificate).record.certificate = row.record.certificate := by
  rw [base]
  cases found : t.history.entries.get? (invocationHash c row.record.certificate) with
  | none => rfl
  | some e =>
    rw [Option.getD_some]
    have known := mt (merged.present (invocationHash c row.record.certificate)).mpr (by rw [found]; exact Option.some_ne_none e)
    rw [not_and_or] at known
    rcases known with held | told
    · obtain ⟨e₀, there⟩ := Option.ne_none_iff_exists'.mp held
      exact (merged.before _ e₀ e there found).trans (agreeing.held row member e₀ there)
    · push Not at told
      obtain ⟨other, before, same⟩ := told
      exact (merged.certificate other before e (same ▸ found)).trans
        (agreeing.certificates other (fewer other before) row member same)

/-- A genuine row of paired authors that agrees with what is held by then merges. -/
theorem ingest (merged : Merged c s done t) (agreeing : Agreeing c s (done ++ row :: rest))
    (genuine : row.record.Genuine c) (described : validateOutput c row = .ok ()) (paired : Published.Paired c s row)
    (room : s.history.clock.toNat + done.length + 1 < 2 ^ 64) : ∃ u changed, ingest c t row = .ok (u, changed) := by
  have paired' : Published.Paired c t row := (merged.trust.paired _).mpr paired
  have facts (role : Role) : ∃ new changed, mergeFact (Record.fact? (base t c row.record.certificate).record role)
      (Record.fact? row.record role) = .ok (new, changed) := by
    rw [fact?_base]
    refine mergeFact_iff.mpr (fun a b held offered => ?_)
    refine agreeing.continues done row rest rfl role a b ?_ offered
    rw [← held]
    exact (merged.latest _ role).toNewest
  obtain ⟨origin, _, first⟩ := facts .origin
  obtain ⟨runner, _, second⟩ := facts .runner
  obtain ⟨⟨u, changed⟩, success⟩ := ingest_of_facts (validateRecord_eq_ok.mpr ⟨genuine, paired'⟩) described
    (merged.base_certificate agreeing (fun _ there => List.mem_append_left _ there)
      (List.mem_append_right _ List.mem_cons_self)) first second
    (lt_of_le_of_lt (Nat.add_le_add_right merged.clock 1) room)
  exact ⟨u, changed, success⟩

theorem extend (merged : Merged c s done t) {changed : Bool} (success : History.ingest c t row = .ok (u, changed)) :
    Merged c s (done ++ [row]) u := by
  obtain ⟨e, landed⟩ := landed_of_ingest success
  have based := (ingest_eq_ok success).certificate
  have kept {e' : Entry} (found : t.history.entries.get? (invocationHash c row.record.certificate) = some e') :
      e'.record.certificate = row.record.certificate := by
    rw [← based, base, found, Option.getD_some]
  exact {
    trust := merged.trust.trans (ingest_sameTrust success)
    clock := by
      have one := landed.clock
      have before := merged.clock
      rw [List.length_append, List.length_singleton]
      omega
    present := fun key => by
      by_cases same : key = invocationHash c row.record.certificate
      · subst same
        rw [landed.found]
        refine ⟨fun none => (Option.some_ne_none e none).elim, fun absent => ?_⟩
        exact absurd rfl (absent.2 row (List.mem_append_right _ (List.mem_singleton_self row)))
      · rw [landed.rest key same, merged.present]
        refine and_congr_right (fun _ => ⟨fun absent r there => ?_, fun absent r there => ?_⟩)
        · rcases List.mem_append.mp there with before | here
          · exact absent r before
          · exact List.mem_singleton.mp here ▸ fun equal => same equal.symm
        · exact absent r (List.mem_append_left _ there)
    before := fun key e₀ e' held found => by
      by_cases same : key = invocationHash c row.record.certificate
      · subst same
        obtain rfl : e = e' := Option.some.inj (landed.found.symm.trans found)
        have there := mt (merged.present (invocationHash c row.record.certificate)).mp
          (fun absent => Option.some_ne_none e₀ (held.symm.trans absent.1))
        obtain ⟨e₁, found₁⟩ := Option.ne_none_iff_exists'.mp there
        rw [landed.certificate, ← kept found₁, merged.before _ e₀ e₁ held found₁]
      · rw [landed.rest key same] at found
        exact merged.before key e₀ e' held found
    certificate := fun r there e' found => by
      by_cases same : invocationHash c r.record.certificate = invocationHash c row.record.certificate
      · rw [same] at found
        obtain rfl : e = e' := Option.some.inj (landed.found.symm.trans found)
        rw [landed.certificate]
        rcases List.mem_append.mp there with before | here
        · have known := mt (merged.present (invocationHash c row.record.certificate)).mp
            (fun absent => absent.2 r before same)
          obtain ⟨e₁, found₁⟩ := Option.ne_none_iff_exists'.mp known
          rw [← kept found₁, merged.certificate r before e₁ (same ▸ found₁)]
        · rw [List.mem_singleton.mp here]
      · rw [landed.rest _ same] at found
        rcases List.mem_append.mp there with before | here
        · exact merged.certificate r before e' found
        · rw [List.mem_singleton.mp here] at same
          exact absurd rfl same
    latest := landed.latest merged.latest }

/-- Rows that were merged gave their invocation the certificate that is held. -/
theorem agreed (merged : Merged c s done t) :
    (∀ row ∈ done, ∀ other ∈ done,
      invocationHash c row.record.certificate = invocationHash c other.record.certificate →
      row.record.certificate = other.record.certificate) ∧
    (∀ row ∈ done, ∀ e, s.history.entries.get? (invocationHash c row.record.certificate) = some e →
      e.record.certificate = row.record.certificate) := by
  have entered {row : Published} (member : row ∈ done) :
      ∃ e, t.history.entries.get? (invocationHash c row.record.certificate) = some e := by
    refine Option.ne_none_iff_exists'.mp (fun absent => ?_)
    exact ((merged.present _).mp absent).2 row member rfl
  refine ⟨fun row member other member' same => ?_, fun row member e held => ?_⟩
  · obtain ⟨e, found⟩ := entered member
    rw [← merged.certificate row member e found, merged.certificate other member' e (same ▸ found)]
  · obtain ⟨e', found⟩ := entered member
    rw [← merged.before _ e e' held found, merged.certificate row member e' found]

end Merged

theorem mergeRows_of_known (known : authorsKnown c s row.record.certificate = true) :
    mergeRows c s unknown (row :: rest) = (ingest c s row).bind (fun next => mergeRows c next.1 unknown rest) := by
  rw [mergeRows, if_pos known]
  rfl

theorem mergeRows_of_unknown (stranger : authorsKnown c s row.record.certificate = false) :
    mergeRows c s unknown (row :: rest) = mergeRows c s true rest := by
  rw [mergeRows, stranger, if_neg Bool.false_ne_true]


/-- The rows whose authors a machine has paired. -/
def pairedRows (c : Crypto) (s : Store) (rows : List Published) : List Published :=
  rows.filter (fun row => decide (Published.Paired c s row))

theorem mem_pairedRows : row ∈ pairedRows c s rows ↔ row ∈ rows ∧ Published.Paired c s row := by
  rw [pairedRows, List.mem_filter, decide_eq_true_iff]

theorem pairedRows_cons_of_paired (paired : Published.Paired c s row) :
    pairedRows c s (row :: rest) = row :: pairedRows c s rest :=
  List.filter_cons_of_pos (decide_eq_true paired)

theorem pairedRows_cons_of_stranger (stranger : ¬Published.Paired c s row) :
    pairedRows c s (row :: rest) = pairedRows c s rest :=
  List.filter_cons_of_neg (by rw [decide_eq_false stranger]; exact Bool.false_ne_true)

/-- Rows of paired authors that agree with what is held all merge, and the others are skipped. -/
theorem merged_mergeRows (merged : Merged c s done t) (agreeing : Agreeing c s (done ++ pairedRows c s rows))
    (genuine : ∀ row ∈ rows, row.record.Genuine c ∧ validateOutput c row = .ok ())
    (known : ∀ row ∈ rows, authorsKnown c s row.record.certificate = true → Published.Paired c s row)
    (room : s.history.clock.toNat + done.length + rows.length < 2 ^ 64) (unknown : Bool) :
    ∃ u, mergeRows c t unknown rows = .ok (u, unknown || rows.any (fun row => !decide (Published.Paired c s row))) ∧
      Merged c s (done ++ pairedRows c s rows) u := by
  induction rows generalizing t done unknown with
  | nil => exact ⟨t, by rw [List.any_nil, Bool.or_false]; rfl, by rwa [pairedRows, List.filter_nil, List.append_nil]⟩
  | cons row rest ih =>
    rw [List.length_cons] at room
    obtain ⟨real, described⟩ := genuine row List.mem_cons_self
    have genuine' := fun other there => genuine other (List.mem_cons_of_mem row there)
    have known' := fun other there => known other (List.mem_cons_of_mem row there)
    by_cases paired : Published.Paired c s row
    · rw [pairedRows_cons_of_paired paired] at agreeing ⊢
      obtain ⟨next, changed, success⟩ := merged.ingest agreeing real described paired (by omega)
      have same : done ++ row :: pairedRows c s rest = (done ++ [row]) ++ pairedRows c s rest := by
        rw [List.append_assoc, List.singleton_append]
      rw [same] at agreeing ⊢
      obtain ⟨u, rows, further⟩ := ih (merged.extend success) agreeing genuine' known' (by
        rw [List.length_append, List.length_singleton]
        omega) unknown
      refine ⟨u, ?_, further⟩
      rw [mergeRows_of_known (authorsKnown_of_paired ((merged.trust.paired _).mpr paired)), success, List.any_cons,
        decide_eq_true paired, Bool.not_true, Bool.false_or]
      exact rows
    · rw [pairedRows_cons_of_stranger paired] at agreeing ⊢
      obtain ⟨u, rows, further⟩ := ih merged agreeing genuine' known' (by omega) true
      refine ⟨u, ?_, further⟩
      have stranger : authorsKnown c t row.record.certificate = false := by
        rw [merged.trust.authorsKnown]
        exact Bool.eq_false_iff.mpr (fun here => paired (known row List.mem_cons_self here))
      rw [mergeRows_of_unknown stranger, rows, List.any_cons, decide_eq_false paired, Bool.not_false, Bool.true_or,
        Bool.or_true]

/-- Where all rows were merged or skipped, no author was known by name only, and nothing conflicted. -/
theorem mergeRows_eq_ok (merged : Merged c s done t) (success : mergeRows c t unknown rows = .ok (u, unknown')) :
    (∀ row ∈ rows, authorsKnown c s row.record.certificate = true → Published.Paired c s row) ∧
    Merged c s (done ++ pairedRows c s rows) u ∧
    ∀ before row after, pairedRows c s rows = before ++ row :: after → ∀ role newest offered,
      Newest (told c s (done ++ before) (invocationHash c row.record.certificate) role) (some newest) →
      Record.fact? row.record role = some offered → Continues newest offered := by
  induction rows generalizing t done unknown with
  | nil =>
    cases success
    refine ⟨fun row member => absurd member List.not_mem_nil, by rwa [pairedRows, List.filter_nil, List.append_nil],
      fun before row after split => ?_⟩
    rw [pairedRows, List.filter_nil] at split
    exact absurd split.symm (List.append_ne_nil_of_right_ne_nil _ (List.cons_ne_nil _ _))
  | cons row rest ih =>
    cases asked : authorsKnown c t row.record.certificate with
    | false =>
      rw [mergeRows_of_unknown asked] at success
      obtain ⟨known, further, continues⟩ := ih merged success
      rw [merged.trust.authorsKnown] at asked
      have stranger : ¬Published.Paired c s row := fun paired => by
        rw [authorsKnown_of_paired paired] at asked
        cases asked
      rw [pairedRows_cons_of_stranger stranger]
      refine ⟨fun other member here => ?_, further, continues⟩
      rcases List.mem_cons.mp member with rfl | member
      · rw [asked] at here
        cases here
      · exact known other member here
    | true =>
      rw [mergeRows_of_known asked] at success
      obtain ⟨⟨next, changed⟩, ingested, success⟩ := bind_eq_ok.mp success
      have paired : Published.Paired c s row :=
        (merged.trust.paired _).mp (validateRecord_eq_ok.mp (ingest_eq_ok ingested).valid).2
      obtain ⟨known, further, continues⟩ := ih (merged.extend ingested) success
      rw [pairedRows_cons_of_paired paired]
      refine ⟨fun other member here => ?_, ?_, fun before other after split role newest offered latest told => ?_⟩
      · rcases List.mem_cons.mp member with rfl | member
        · exact paired
        · exact known other member here
      · rwa [List.append_assoc, List.singleton_append] at further
      · cases before with
        | nil =>
          obtain ⟨rfl, -⟩ := List.cons.inj split
          rw [List.append_nil] at latest
          obtain ⟨e, landed⟩ := landed_of_ingest ingested
          obtain ⟨changed, mergedFact⟩ := landed.fact role
          exact mergeFact_iff.mp ⟨_, _, mergedFact⟩ newest offered
            ((merged.latest _ role).eq_of_newest latest) told
        | cons first before =>
          obtain ⟨rfl, tail⟩ := List.cons.inj split
          refine continues before other after tail role newest offered ?_ told
          rwa [List.append_assoc, List.singleton_append]

end Clix.History
