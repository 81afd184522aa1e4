import Clix.Proofs.Records

/-! # Merging records and serving pages

What merging one record does to a store, what a served page contains, and what merging its rows leaves
untouched. Nothing here depends on which machine the page came from.
-/

namespace Clix.History

open Except

variable {c : Crypto} {s t : Store}

/-- The entry a record is merged into. -/
def base (s : Store) (c : Crypto) (cert : Certificate) : Entry :=
  (s.history.entries.get? (invocationHash c cert)).getD (Entry.unsigned cert 0)

/-- A merge of one record: what was checked, the facts that were kept, and what was written. -/
structure Ingested (c : Crypto) (s : Store) (published : Published) (t : Store) (changed : Bool) :
    Prop where
  valid : validateRecord c s published.record = .ok ()
  described : validateOutput c published = .ok ()
  certificate : (base s c published.record.certificate).record.certificate = published.record.certificate
  merged : ∃ origin runner originChanged runnerChanged,
    mergeFact (base s c published.record.certificate).record.origin published.record.origin =
      .ok (origin, originChanged) ∧
    mergeFact (base s c published.record.certificate).record.runner published.record.runner =
      .ok (runner, runnerChanged) ∧
    let key := invocationHash c published.record.certificate
    let entry : Entry := { base s c published.record.certificate with
      record := ⟨published.record.certificate, origin, runner⟩ }
    let output := mergeOutput c s key entry published.output
    changed = (originChanged || runnerChanged || output.2 || (s.history.entries.get? key).isNone) ∧
      ((changed = false ∧ t = s) ∨
        (changed = true ∧ ∃ change u, nextChange s = .ok (change, u) ∧
          t = u.setEntry key { entry with change := change, output := output.1 }))

theorem ingest_eq_ok {published : Published} {changed : Bool}
    (success : ingest c s published = .ok (t, changed)) : Ingested c s published t changed := by
  unfold ingest at success
  dsimp only at success
  rw [bind_eq_ok] at success
  obtain ⟨⟨⟩, valid, success⟩ := success
  rw [bind_eq_ok] at success
  obtain ⟨⟨⟩, described, success⟩ := success
  rw [refuseIf_bind_eq_ok, not_not] at success
  obtain ⟨same, success⟩ := success
  rw [bind_eq_ok] at success
  obtain ⟨⟨origin, originChanged⟩, originMerged, success⟩ := success
  rw [bind_eq_ok] at success
  obtain ⟨⟨runner, runnerChanged⟩, runnerMerged, success⟩ := success
  refine ⟨valid, described, same, origin, runner, originChanged, runnerChanged, originMerged,
    runnerMerged, ?_⟩
  simp only [same] at success
  split_ifs at success with change
  · rw [bind_eq_ok] at success
    obtain ⟨⟨stamp, u⟩, next, success⟩ := success
    cases success
    exact ⟨change.symm, .inr ⟨rfl, stamp, u, next, rfl⟩⟩
  · cases success
    exact ⟨(Bool.eq_false_iff.mpr change).symm, .inl ⟨rfl, rfl⟩⟩

theorem nextChange_of_room (room : s.history.clock.toNat + 1 < 2 ^ 64) :
    nextChange s = .ok (s.history.clock + 1,
      { s with history := { s.history with clock := s.history.clock + 1 } }) := by
  rw [nextChange, checkedNext, if_pos room]
  rfl

theorem ingest_sameTrust {published : Published} {changed : Bool}
    (success : ingest c s published = .ok (t, changed)) : s.SameTrust t := by
  obtain ⟨_, _, _, _, -, -, -, ⟨-, rfl⟩ | ⟨-, change, u, next, rfl⟩⟩ := (ingest_eq_ok success).merged
  · exact .refl _
  · exact ((nextChange_samePublished next).trans (setEntry_samePublished u _ _)).sameTrust

theorem outputMatches_of_selectedOutput {entry : Entry} {job : Option Job} {output : CapturedOutput}
    (found : selectedOutput c s entry job = some output) :
    ∃ selected, entry.record.selected = some selected ∧ outputMatches c output selected.fact = true := by
  unfold selectedOutput at found
  split at found
  · cases found
  · rename_i selected same
    refine ⟨selected, same, ?_⟩
    dsimp only at found
    split_ifs at found
    split at found
    · rename_i job held
      obtain ⟨-, held⟩ := Option.filter_eq_some_iff.mp held
      simp only [holdsOutput, Bool.and_eq_true] at held
      cases found
      exact Bool.and_eq_true_iff.mpr ⟨held.2.1.2, held.2.2⟩
    · exact (Option.filter_eq_some_iff.mp found).2

/-- What a machine exports with a record is what the record describes. -/
theorem validateOutput_exportEntry (entry : Entry) : validateOutput c (exportEntry c s entry) = .ok () := by
  unfold validateOutput
  split
  · rfl
  · rename_i output found
    obtain ⟨selected, same, described⟩ := outputMatches_of_selectedOutput found
    have shown : (exportEntry c s entry).record.selected = some selected := same
    rw [shown]
    exact refuseIf_neg (by simp [described])

/-! ## Served pages -/

/-- The row at which a scan continues after some rows, when they were not the last. -/
def lastChange (next : UInt64) (taken : List Entry) : UInt64 := (taken.getLast?.map (·.change)).getD next

theorem fillPage_eq_ok {count size : ℕ} {next next' : UInt64} {entries : List Entry} {rows : List Published}
    (success : fillPage c s count size next entries = .ok (rows, next')) :
    ∃ taken rest, entries = taken ++ rest ∧ rows = taken.map (exportEntry c s) ∧
      next' = lastChange next taken ∧ (count ≤ pageRows → count + rows.length ≤ pageRows) := by
  induction entries generalizing count size next rows with
  | nil =>
    cases success
    exact ⟨[], [], rfl, rfl, rfl, id⟩
  | cons entry entries ih =>
    rw [fillPage] at success
    dsimp only at success
    rw [refuseIf_bind_eq_ok] at success
    obtain ⟨-, success⟩ := success
    split_ifs at success with full
    · cases success
      exact ⟨[], entry :: entries, rfl, rfl, rfl, id⟩
    · rw [bind_eq_ok] at success
      obtain ⟨⟨others, last⟩, filled, success⟩ := success
      cases success
      obtain ⟨taken, rest, rfl, rfl, rfl, bound⟩ := ih filled
      refine ⟨entry :: taken, rest, rfl, rfl, ?_, fun below => ?_⟩
      · cases taken <;> rfl
      · rw [not_or] at full
        have total := bound (by omega)
        rw [List.length_cons]
        dsimp only at total ⊢
        omega

/-- A page served by a machine: the first rows of the window that the request asks for. -/
structure ServedBy (c : Crypto) (s : Store) (epoch : String) (after : UInt64) (high : Option UInt64)
    (p : Page) : Prop where
  sameEpoch : p.epoch = s.history.epoch
  restarted : p.reset = (decide (epoch ≠ s.history.epoch) || decide (s.history.clock < after))
  captured : p.high = if p.reset then s.history.clock
    else min (high.getD s.history.clock) s.history.clock
  boundary : (if p.reset then 0 else after) ≤ p.high
  rows : ∃ taken rest, window s (if p.reset then 0 else after) p.high = taken ++ rest ∧
    p.entries = taken.map (exportEntry c s) ∧ p.complete = rest.isEmpty ∧ p.entries.length ≤ pageRows ∧
    p.next = if rest.isEmpty then p.high else lastChange (if p.reset then 0 else after) taken

theorem page_eq_ok {epoch : String} {after : UInt64} {high : Option UInt64} {p : Page}
    (success : page c s epoch after high = .ok p) : ServedBy c s epoch after high p := by
  rw [page] at success
  dsimp only at success
  rw [refuseIf_bind_eq_ok, bind_eq_ok] at success
  obtain ⟨boundary, ⟨published, next⟩, filled, success⟩ := success
  cases success
  obtain ⟨taken, rest, split, rfl, rfl, bound⟩ := fillPage_eq_ok filled
  have complete : decide ((taken.map (exportEntry c s)).length = (taken ++ rest).length) = rest.isEmpty := by
    cases rest <;> simp
  refine ⟨rfl, rfl, rfl, UInt64.not_lt.mp boundary, taken, rest, split, rfl, ?_, ?_, ?_⟩
  · dsimp only
    rw [split, complete]
  · simpa using bound (Nat.zero_le _)
  · dsimp only
    rw [split, complete]

theorem mem_window {after high : UInt64} {entry : Entry} : entry ∈ window s after high ↔
    (∃ key, s.history.entries.get? key = some entry) ∧ after < entry.change ∧ entry.change ≤ high := by
  rw [window, List.mem_insertionSort, List.mem_filter, OrdMap.mem_values_iff]
  simp

theorem progress_setProgress (s : Store) (peer : BodyId) (p : Progress) : progress (setProgress s peer p) peer = p := by
  rw [progress, setProgress, OrdMap.get?_insert_self]
  rfl

/-- Every row of a page exports an entry of its machine. -/
theorem ServedBy.mem {epoch : String} {after : UInt64} {high : Option UInt64} {p : Page}
    (served : ServedBy c s epoch after high p) {row : Published} (member : row ∈ p.entries) :
    ∃ key entry, s.history.entries.get? key = some entry ∧ row = exportEntry c s entry := by
  obtain ⟨taken, rest, split, rows, -⟩ := served.rows
  rw [rows] at member
  obtain ⟨entry, there, rfl⟩ := List.mem_map.mp member
  obtain ⟨⟨key, found⟩, -⟩ := mem_window.mp (split ▸ List.mem_append_left rest there)
  exact ⟨key, entry, found, rfl⟩

end Clix.History
