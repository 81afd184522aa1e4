import Clix.Proofs.Merging
import Clix.Soundness.Replies

/-! # Replicas converge

A replica merges records of other machines one by one, older and newer snapshots of each, from whoever has them. What
it ends with depends on which records it was given, and neither on their order nor on how often they came.
-/

namespace Clix

open Except Versioned

/-- Two records from which the same fact is selected. -/
structure Record.SelectsAs (r e : Record) : Prop where
  runner : r.runner = e.runner
  origin : e.runner = none → r.origin = e.origin

theorem Record.SelectsAs.selected {r e : Record} (same : r.SelectsAs e) : r.selected = e.selected := by
  rw [Record.selected, Record.selected, same.runner]
  cases found : e.runner with
  | some signed => rfl
  | none => exact same.origin found

namespace History

variable {c : Crypto} {s t u : Store} {row : Published} {rows done : List Published} {key : String}

/-- Genuine rows of paired authors: one certificate for an invocation, the one that is held where there is one, and no
two facts of a slot with one revision, nor one after a final one. -/
structure Mergeable (c : Crypto) (s : Store) (rows : List Published) : Prop where
  genuine : ∀ row ∈ rows, row.record.Genuine c ∧ validateOutput c row = .ok ()
  paired : ∀ row ∈ rows, Published.Paired c s row
  certificates : ∀ row ∈ rows, ∀ other ∈ rows,
    invocationHash c row.record.certificate = invocationHash c other.record.certificate →
    row.record.certificate = other.record.certificate
  held : ∀ row ∈ rows, ∀ e, s.history.entries.get? (invocationHash c row.record.certificate) = some e →
    e.record.certificate = row.record.certificate
  coherent : ∀ key role, Coherent (told c s rows key role)

theorem Mergeable.agreeing (mergeable : Mergeable c s all) (fewer : ∀ row ∈ rows, row ∈ all) : Agreeing c s rows where
  certificates row member other member' := mergeable.certificates row (fewer row member) other (fewer other member')
  held row member := mergeable.held row (fewer row member)
  continues := by
    intro before row after split role newest offered latest told
    have earlier : ∀ r ∈ before, r ∈ all := fun r there => fewer r (split ▸ List.mem_append_left _ there)
    have member : row ∈ all := fewer row (split ▸ List.mem_append_right _ List.mem_cons_self)
    exact (mergeable.coherent _ role).continues (told_mono earlier (latest.mem newest rfl)) (.inr ⟨row, member, rfl, told⟩)

/-- What a machine has when it merged some rows that may all be merged. -/
structure Gathered (c : Crypto) (s : Store) (done : List Published) (t : Store) : Prop extends Merged c s done t where
  bindings : t.jobCertificates = s.jobCertificates
  pruned : t.historyPruned = s.historyPruned
  output : ∀ row ∈ done, ∀ e, t.history.entries.get? (invocationHash c row.record.certificate) = some e →
    Apart s (invocationHash c row.record.certificate) → row.record.SelectsAs e.record → row.output.isSome = true →
    ∃ output, e.output = some output ∧ ∃ signed, e.record.selected = some signed ∧
      outputMatches c output signed.fact = true

/-! ### One row -/

/-- An output that describes the selected fact is kept, be it offered or held. -/
theorem mergeOutput_keeps {entry : Entry} {incoming : Option CapturedOutput} {signed : SignedFact} {o : CapturedOutput}
    (elsewhere : heldLocally c s key entry.record = false) (selected : entry.record.selected = some signed)
    (matched : outputMatches c o signed.fact = true)
    (there : entry.output = some o ∨ incoming = some o ∧ s.historyPruned.contains key = false) :
    ∃ output, (mergeOutput c s key entry incoming).1 = some output ∧ outputMatches c output signed.fact = true := by
  rw [mergeOutput, elsewhere, if_neg Bool.false_ne_true, selected]
  dsimp only
  cases offered : incoming.filter (fun output => !s.historyPruned.contains key && outputMatches c output signed.fact &&
      entry.output != some output) with
  | some output =>
    have fits := (Option.filter_eq_some_iff.mp offered).2
    rw [Bool.and_eq_true, Bool.and_eq_true] at fits
    have kept : ((some output : Option CapturedOutput) <|> entry.output) = some output := rfl
    rw [kept, Option.any_some, fits.1.2, Bool.not_true, if_neg Bool.false_ne_true]
    exact ⟨output, rfl, fits.1.2⟩
  | none =>
    have held : entry.output = some o := by
      rcases there with held | ⟨rfl, kept⟩
      · exact held
      · by_contra differs
        rw [Option.filter_some, kept, matched, bne_iff_ne.mpr differs] at offered
        cases offered
    have kept : ((none : Option CapturedOutput) <|> entry.output) = some o := held
    rw [kept, Option.any_some, matched, Bool.not_true, if_neg Bool.false_ne_true]
    exact ⟨o, rfl, matched⟩

/-! ### All rows -/

variable {all : List Published} {role : Role}

/-- A row that was merged selects as the entry does only if the entry did before the next row. -/
theorem Gathered.selectsAs (gathered : Gathered c s done t) (mergeable : Mergeable c s all)
    (fewer : ∀ row ∈ done, row ∈ all) (member : row ∈ all)
    (newest : ∀ key role, Newest (told c s (done ++ [row]) key role) (u.fact? key role)) {other : Published}
    (before : other ∈ done) {e e' : Entry}
    (held : t.history.entries.get? (invocationHash c other.record.certificate) = some e)
    (found : u.history.entries.get? (invocationHash c other.record.certificate) = some e')
    (selects : other.record.SelectsAs e'.record) : e.record.SelectsAs e'.record := by
  have grown : ∀ r ∈ done ++ [row], r ∈ all := by
    intro r there
    rcases List.mem_append.mp there with old | here
    · exact fewer r old
    · exact List.mem_singleton.mp here ▸ member
  have settled (role : Role) (same : Record.fact? other.record role = Record.fact? e'.record role) :
      Record.fact? e.record role = Record.fact? e'.record role := by
    have now : u.fact? (invocationHash c other.record.certificate) role = Record.fact? e'.record role := by
      rw [Store.fact?, found, Option.bind_some]
    have was : t.fact? (invocationHash c other.record.certificate) role = Record.fact? e.record role := by
      rw [Store.fact?, held, Option.bind_some]
    rw [← now, ← was]
    refine Newest.settled ((mergeable.coherent _ role).mono (told_mono grown)) (newest _ role) (gathered.latest _ role).toNewest
      (told_mono (fun r there => List.mem_append_left _ there)) (fun a there => ?_)
    exact .inr ⟨other, before, rfl, by rw [same, ← now, there]⟩
  exact ⟨settled .runner selects.runner, fun none => settled .origin (selects.origin none)⟩

theorem ingest_settings {changed : Bool} (success : History.ingest c s row = .ok (t, changed)) :
    t.jobCertificates = s.jobCertificates ∧ t.historyPruned = s.historyPruned := by
  obtain ⟨_, _, _, _, -, -, -, ⟨-, rfl⟩ | ⟨-, change, u, stamped, rfl⟩⟩ := (ingest_eq_ok success).merged
  · exact ⟨rfl, rfl⟩
  · obtain ⟨-, -, rfl⟩ := nextChange_eq_ok stamped
    exact ⟨rfl, rfl⟩

theorem matches_of_validateOutput {o : CapturedOutput} (described : validateOutput c row = .ok ())
    (carried : row.output = some o) :
    ∃ signed, row.record.selected = some signed ∧ outputMatches c o signed.fact = true := by
  rw [validateOutput, carried] at described
  dsimp only at described
  cases selected : row.record.selected with
  | none =>
    rw [selected] at described
    cases described
  | some signed =>
    rw [selected] at described
    exact ⟨signed, rfl, (Bool.not_eq_false _).mp (refuseIf_eq_ok.mp described)⟩

/-- An output that came with the selected fact is there after the next row. -/
theorem Gathered.output_extend (gathered : Gathered c s done t) (mergeable : Mergeable c s all)
    (fewer : ∀ row ∈ done, row ∈ all) (member : row ∈ all) {e : Entry} (landed : Landed c t row u e)
    {other : Published} (there : other ∈ done ∨ other = row)
    (same : invocationHash c other.record.certificate = invocationHash c row.record.certificate)
    (apart : Apart s (invocationHash c row.record.certificate)) (selects : other.record.SelectsAs e.record)
    (carried : other.output.isSome = true) :
    ∃ output, e.output = some output ∧ ∃ signed, e.record.selected = some signed ∧
      outputMatches c output signed.fact = true := by
  have here : Apart t (invocationHash c row.record.certificate) :=
    ⟨by rw [gathered.bindings]; exact apart.unbound, by rw [gathered.pruned]; exact apart.kept⟩
  have elsewhere : heldLocally c t (invocationHash c row.record.certificate) e.record = false :=
    heldLocally_of_apart here e.record
  rw [landed.output here]
  have keeps {signed : SignedFact} {o : CapturedOutput} (selected : e.record.selected = some signed)
      (matched : outputMatches c o signed.fact = true) (there : (base t c row.record.certificate).output = some o ∨
        row.output = some o ∧ t.historyPruned.contains (invocationHash c row.record.certificate) = false) :=
    @mergeOutput_keeps c t _ { base t c row.record.certificate with record := e.record } row.output signed o elsewhere
      selected matched there
  rcases there with before | rfl
  · have known : t.history.entries.get? (invocationHash c row.record.certificate) ≠ none := fun none =>
      ((gathered.present _).mp none).2 other before same
    obtain ⟨e₀, held⟩ := Option.ne_none_iff_exists'.mp known
    have kept := gathered.selectsAs mergeable fewer member (fun key role => (landed.latest gathered.latest key role).toNewest) before (same ▸ held)
      (same ▸ landed.found) selects
    obtain ⟨o, stored, signed, selected, matched⟩ := gathered.output other before e₀ (same ▸ held) (same ▸ apart)
      ⟨selects.runner.trans kept.runner.symm, fun none => (selects.origin (kept.runner ▸ none)).trans
        (kept.origin (kept.runner ▸ none)).symm⟩ carried
    rw [kept.selected] at selected
    have was : base t c row.record.certificate = e₀ := by rw [base, held, Option.getD_some]
    obtain ⟨output, now, fits⟩ := keeps selected matched (.inl (was ▸ stored))
    exact ⟨output, now, signed, selected, fits⟩
  · obtain ⟨o, offered⟩ := Option.isSome_iff_exists.mp carried
    obtain ⟨signed, selected, matched⟩ := matches_of_validateOutput (mergeable.genuine other member).2 offered
    rw [selects.selected] at selected
    obtain ⟨output, now, fits⟩ := keeps selected matched (.inr ⟨offered, here.kept⟩)
    exact ⟨output, now, signed, selected, fits⟩

theorem Gathered.extend (gathered : Gathered c s done t) (mergeable : Mergeable c s all)
    (fewer : ∀ row ∈ done, row ∈ all) (member : row ∈ all) {changed : Bool}
    (success : History.ingest c t row = .ok (u, changed)) : Gathered c s (done ++ [row]) u := by
  obtain ⟨e, landed⟩ := landed_of_ingest success
  obtain ⟨bindings, pruned⟩ := ingest_settings success
  refine ⟨gathered.toMerged.extend success, bindings.trans gathered.bindings, pruned.trans gathered.pruned,
    fun r there e' found apart selects carried => ?_⟩
  have split : r ∈ done ∨ r = row := (List.mem_append.mp there).imp_right List.mem_singleton.mp
  by_cases same : invocationHash c r.record.certificate = invocationHash c row.record.certificate
  · rw [same] at apart found
    obtain rfl : e = e' := Option.some.inj (landed.found.symm.trans found)
    exact gathered.output_extend mergeable fewer member landed split same apart selects carried
  · rw [landed.rest _ same] at found
    rcases split with before | rfl
    · exact gathered.output r before e' found apart selects carried
    · exact absurd rfl same

theorem gathered_refl (c : Crypto) (s : Store) : Gathered c s [] s where
  toMerged := merged_refl c s
  bindings := rfl
  pruned := rfl
  output _ member := absurd member List.not_mem_nil

/-- All rows are merged, one after the other. -/
theorem gathered_mergeRows (gathered : Gathered c s done t) (mergeable : Mergeable c s (done ++ rows)) (unknown : Bool)
    (room : s.history.clock.toNat + (done ++ rows).length < 2 ^ 64) :
    ∃ u, mergeRows c t unknown rows = .ok (u, unknown) ∧ Gathered c s (done ++ rows) u := by
  induction rows generalizing t done with
  | nil => exact ⟨t, rfl, by rwa [List.append_nil]⟩
  | cons row rest ih =>
    have fewer : ∀ r ∈ done, r ∈ done ++ row :: rest := fun r there => List.mem_append_left _ there
    have member : row ∈ done ++ row :: rest := List.mem_append_right _ List.mem_cons_self
    have paired : Published.Paired c t row := (gathered.trust.paired _).mpr (mergeable.paired row member)
    rw [List.length_append, List.length_cons] at room
    obtain ⟨genuine, described⟩ := mergeable.genuine row member
    obtain ⟨next, changed, success⟩ := gathered.toMerged.ingest (mergeable.agreeing (fun _ there => there)) genuine
      described (mergeable.paired row member) (by omega)
    have further := gathered.extend mergeable fewer member success
    have same : done ++ row :: rest = (done ++ [row]) ++ rest := by rw [List.append_assoc, List.singleton_append]
    rw [same] at mergeable
    obtain ⟨u, merged, gathered'⟩ := ih further mergeable (by
      rw [List.length_append, List.length_append, List.length_singleton]
      omega)
    refine ⟨u, ?_, same ▸ gathered'⟩
    rw [mergeRows_of_known (authorsKnown_of_paired paired), success]
    exact merged

/-! ### Two replicas -/

variable {s' t' : Store} {xs ys : List Published}

theorem fact?_eq (s : Store) (key : String) (role : Role) :
    s.fact? key role = (s.record? key).bind (fun record => Record.fact? record role) := by
  rw [Store.fact?, Store.record?, Option.bind_map]
  rfl

theorem told_congr (began : ∀ key, s'.record? key = s.record? key) (same : ∀ row, row ∈ xs ↔ row ∈ ys) (key : String)
    (role : Role) : told c s' ys key role = told c s xs key role := by
  ext signed
  simp only [told, fact?_eq, began, same]

/-- Rows that one machine can merge, another can that began with the same records and has paired their authors. -/
theorem Mergeable.congr (mergeable : Mergeable c s xs) (began : ∀ key, s'.record? key = s.record? key)
    (same : ∀ row, row ∈ xs ↔ row ∈ ys) (paired : ∀ row ∈ ys, Published.Paired c s' row) : Mergeable c s' ys where
  genuine row member := mergeable.genuine row ((same row).mpr member)
  paired := paired
  certificates row member other member' :=
    mergeable.certificates row ((same row).mpr member) other ((same other).mpr member')
  held row member e found := by
    have there := began (invocationHash c row.record.certificate)
    rw [Store.record?, Store.record?, found, Option.map_some, eq_comm, Option.map_eq_some_iff] at there
    obtain ⟨e₀, held, record⟩ := there
    rw [← record]
    exact mergeable.held row ((same row).mpr member) e₀ held
  coherent key role := by
    rw [told_congr began same]
    exact mergeable.coherent key role

/-- Two machines that began with the same records and merged the same rows hold the same records. -/
theorem Gathered.agree (first : Gathered c s xs t) (second : Gathered c s' ys t') (mergeable : Mergeable c s xs)
    (began : ∀ key, s'.record? key = s.record? key) (same : ∀ row, row ∈ xs ↔ row ∈ ys) (key : String) :
    t.record? key = t'.record? key := by
  have absent : t.history.entries.get? key = none ↔ t'.history.entries.get? key = none := by
    have start : s'.history.entries.get? key = none ↔ s.history.entries.get? key = none := by
      rw [← Option.map_eq_none_iff (f := Entry.record), ← Option.map_eq_none_iff (f := Entry.record)]
      exact iff_of_eq (congrArg (· = none) (began key))
    rw [first.present, second.present, start]
    simp only [same]
  have facts (role : Role) : t.fact? key role = t'.fact? key role := by
    have newest := (second.latest key role).toNewest
    rw [told_congr began same] at newest
    exact (first.latest key role).toNewest.unique (mergeable.coherent key role) newest
  rw [Store.record?, Store.record?]
  cases found : t.history.entries.get? key with
  | none => rw [absent.mp found]
  | some e =>
    cases found' : t'.history.entries.get? key with
    | none => cases found.symm.trans (absent.mpr found')
    | some e' =>
      have slot (role : Role) : Record.fact? e.record role = Record.fact? e'.record role := by
        have equal := facts role
        rwa [Store.fact?, Store.fact?, found, found', Option.bind_some, Option.bind_some] at equal
      have certificate : e.record.certificate = e'.record.certificate := by
        cases held : s.history.entries.get? key with
        | some e₀ =>
          have there := began key
          rw [Store.record?, Store.record?, held, Option.map_some, Option.map_eq_some_iff] at there
          obtain ⟨e₀', held', record⟩ := there
          rw [first.before key e₀ e held found, second.before key e₀' e' held' found', record]
        | none =>
          have known := mt (first.present key).mpr (by rw [found]; exact Option.some_ne_none e)
          rw [not_and] at known
          have told := known held
          push Not at told
          obtain ⟨row, member, rfl⟩ := told
          rw [first.certificate row member e found, second.certificate row ((same row).mp member) e' found']
      obtain ⟨⟨cert, origin, runner⟩, change, output⟩ := e
      obtain ⟨⟨cert', origin', runner'⟩, change', output'⟩ := e'
      obtain rfl : cert = cert' := certificate
      obtain rfl : origin = origin' := slot .origin
      obtain rfl : runner = runner' := slot .runner
      rfl

/-- Two machines that began with the same records, and were given the same genuine rows of authors they have paired in
any order and any number, both merge all of them and hold the same records. And where a row came with the output of the
fact that remains, both hold an output that this fact describes, as long as they have no part in the invocation and have
not pruned it. The authors must not have written two facts of one revision, or a fact after a final one. -/
theorem replicas_converge (c : Crypto) (s s' : Store) (xs ys : List Published) (mergeable : Mergeable c s xs)
    (paired : ∀ row ∈ ys, Published.Paired c s' row) (began : ∀ key, s'.record? key = s.record? key)
    (same : ∀ row, row ∈ xs ↔ row ∈ ys) (room : s.history.clock.toNat + xs.length < 2 ^ 64)
    (room' : s'.history.clock.toNat + ys.length < 2 ^ 64) (unknown unknown' : Bool) :
    ∃ t t', mergeRows c s unknown xs = .ok (t, unknown) ∧ mergeRows c s' unknown' ys = .ok (t', unknown') ∧
      (∀ key, t.record? key = t'.record? key) ∧
      ∀ row ∈ xs, ∀ e e', t.history.entries.get? (invocationHash c row.record.certificate) = some e →
        t'.history.entries.get? (invocationHash c row.record.certificate) = some e' →
        Apart s (invocationHash c row.record.certificate) → Apart s' (invocationHash c row.record.certificate) →
        row.record.SelectsAs e.record → row.output.isSome = true →
        ∃ signed output output', e.record.selected = some signed ∧ e.output = some output ∧ e'.output = some output' ∧
          outputMatches c output signed.fact = true ∧ outputMatches c output' signed.fact = true := by
  have mergeable' := mergeable.congr began same paired
  obtain ⟨t, merged, gathered⟩ := gathered_mergeRows (gathered_refl c s) mergeable unknown room
  obtain ⟨t', merged', gathered'⟩ := gathered_mergeRows (gathered_refl c s') mergeable' unknown' room'
  rw [List.nil_append] at gathered gathered'
  have agree := gathered.agree gathered' mergeable began same
  refine ⟨t, t', merged, merged', agree, fun row member e e' found found' apart apart' selects carried => ?_⟩
  have record : e.record = e'.record := by
    have equal := agree (invocationHash c row.record.certificate)
    rw [Store.record?, Store.record?, found, found'] at equal
    exact Option.some.inj equal
  obtain ⟨output, stored, signed, selected, fits⟩ := gathered.output row member e found apart selects carried
  obtain ⟨output', stored', signed', selected', fits'⟩ := gathered'.output row ((same row).mp member) e' found' apart'
    (record ▸ selects) carried
  obtain rfl : signed = signed' := Option.some.inj (selected.symm.trans (record ▸ selected'))
  exact ⟨signed, output, output', selected, stored, stored', fits, fits'⟩

end History

/-! ## Two snapshots of one record -/

namespace ConvergeExample

set_option maxRecDepth 40000

open History ReplyExample

def replica (name : String) (seed : Bytes) : Store :=
  { Store.first crypto name name seed with peers := [alice, ⟨⟨"bob"⟩, bobKey, none⟩] }

def carol : Store := replica "carol" (List.replicate 32 3)

def dave : Store := replica "dave" (List.replicate 32 4)

def finished : Fact := ⟨key, .runner, 2, .done 0, OutputRef.of crypto [111], OutputRef.of crypto []⟩

def signedFinished : SignedFact := ⟨finished, crypto.sign bobKey (bytes "fact" finished)⟩

def older : Published := ⟨⟨certificate, none, some signed⟩, none, 2⟩

def newer : Published := ⟨⟨certificate, none, some signedFinished⟩, some ⟨[111], []⟩, 3⟩

theorem rows_valid : validateRecord crypto carol older.record = .ok () ∧ validateRecord crypto carol newer.record = .ok () ∧
    validateRecord crypto dave older.record = .ok () ∧ validateRecord crypto dave newer.record = .ok () ∧
    validateOutput crypto older = .ok () ∧ validateOutput crypto newer = .ok () := by
  decide

theorem replicas_empty : carol.history.entries.entries = [] ∧ dave.history.entries.entries = [] ∧
    carol.history.clock = 0 ∧ dave.history.clock = 0 := by
  decide

theorem eq_of_runnerOnly {cert : Certificate} {signed a : SignedFact} {role : Role}
    (there : Record.fact? ⟨cert, none, some signed⟩ role = some a) : signed = a := by
  cases role with
  | runner => exact Option.some.inj there
  | origin | legacyObserver => cases there

theorem told_carol {key : String} {role : Role} {a : SignedFact} (there : a ∈ told crypto carol [older, newer] key role) :
    a = signed ∨ a = signedFinished := by
  rcases there with held | ⟨row, member, -, offered⟩
  · rw [Store.fact?, OrdMap.eq_empty replicas_empty.1, OrdMap.get?_empty] at held
    cases held
  · rcases List.mem_pair.mp member with rfl | rfl
    · exact .inl (eq_of_runnerOnly offered).symm
    · exact .inr (eq_of_runnerOnly offered).symm

theorem mergeable_carol : Mergeable crypto carol [older, newer] where
  genuine row member := by
    obtain ⟨first, second, -, -, none, output⟩ := rows_valid
    rcases List.mem_pair.mp member with rfl | rfl
    · exact ⟨(validateRecord_eq_ok.mp first).1, none⟩
    · exact ⟨(validateRecord_eq_ok.mp second).1, output⟩
  paired row member := by
    rcases List.mem_pair.mp member with rfl | rfl
    · exact (validateRecord_eq_ok.mp rows_valid.1).2
    · exact (validateRecord_eq_ok.mp rows_valid.2.1).2
  certificates row member other member' _ := by
    rcases List.mem_pair.mp member with rfl | rfl <;> rcases List.mem_pair.mp member' with rfl | rfl <;> rfl
  held row member e found := by
    rw [OrdMap.eq_empty replicas_empty.1, OrdMap.get?_empty] at found
    cases found
  coherent key role := {
    one := fun a first b second same => by
      rcases told_carol first with rfl | rfl <;> rcases told_carol second with rfl | rfl
      · rfl
      · exact absurd same (by decide)
      · exact absurd same (by decide)
      · rfl
    last := fun a first b second final => by
      rcases told_carol first with rfl | rfl
      · exact absurd final (by decide)
      · rcases told_carol second with rfl | rfl <;> decide }

/-- Two machines that see a run and its end in opposite orders agree. -/
theorem carol_dave_converge : ∃ t t', mergeRows crypto carol false [older, newer] = .ok (t, false) ∧
    mergeRows crypto dave false [newer, older, newer] = .ok (t', false) ∧ (∀ key, t.record? key = t'.record? key) ∧
    ∀ row ∈ [older, newer], ∀ e e',
      t.history.entries.get? (invocationHash crypto row.record.certificate) = some e →
      t'.history.entries.get? (invocationHash crypto row.record.certificate) = some e' →
      Apart carol (invocationHash crypto row.record.certificate) →
      Apart dave (invocationHash crypto row.record.certificate) →
      row.record.SelectsAs e.record → row.output.isSome = true →
      ∃ signed output output', e.record.selected = some signed ∧ e.output = some output ∧ e'.output = some output' ∧
        outputMatches crypto output signed.fact = true ∧ outputMatches crypto output' signed.fact = true := by
  obtain ⟨empty, empty', clock, clock'⟩ := replicas_empty
  refine replicas_converge crypto carol dave [older, newer] [newer, older, newer] mergeable_carol (fun row member => ?_)
    (fun key => ?_) (fun row => ?_) (by rw [clock]; decide) (by rw [clock']; decide) false false
  · obtain ⟨-, -, first, second, -⟩ := rows_valid
    rcases List.mem_cons.mp member with rfl | member
    · exact (validateRecord_eq_ok.mp second).2
    · rcases List.mem_pair.mp member with rfl | rfl
      · exact (validateRecord_eq_ok.mp first).2
      · exact (validateRecord_eq_ok.mp second).2
  · rw [Store.record?, Store.record?, OrdMap.eq_empty empty, OrdMap.eq_empty empty']
  · simp only [List.mem_cons, List.not_mem_nil, or_false]
    tauto

end ConvergeExample

end Clix
