import Clix.Proofs.Removal

/-! # The output of one invocation, and of several

An invocation's output is its finished row's and its replica's together. Dropping it clears both, restamps the entry above
every other and leaves the receipts; what pruning and eviction do is this for one key after another.
-/

namespace Clix

open Except Storage

/-- Whether a finished row keeps its own payload under a key. -/
def Store.holdsUnder (s : Store) (key : String) (job : Job) : Bool :=
  s.jobCertificates.get? job.id == some key && job.status.isTerminal && decide (jobBytes job ≠ 0)

/-- A finished invocation that retains output: it has a fact, and a finished row holds bytes, or the fact itself is final
and its replica holds some. -/
def Store.Retains (s : Store) (key : String) : Prop :=
  ∃ e, s.history.entries.get? key = some e ∧ e.record.selected.isSome = true ∧
    ((∃ job ∈ s.jobs, s.holdsUnder key job = true) ∨
      (e.record.selected.any (fun f => f.fact.status.isTerminal) = true ∧ 0 < replicaBytes e))

/-- When the entry of a key last changed. -/
def Store.stamp (s : Store) (key : String) : UInt64 := (s.history.entries.get? key).elim 0 (·.change)

/-- The state without the output of one finished invocation. -/
def Store.dropOutput (s : Store) (key : String) : Store :=
  { s with
    jobs := s.jobs.map (fun job => if s.holdsUnder key job then emptied job else job)
    outputPruned := s.outputPruned.extend ((s.jobs.filter (s.holdsUnder key)).map (·.id))
    historyPruned := s.historyPruned.insert key ()
    history := { s.history with
      clock := s.history.clock + 1
      entries := s.history.entries.adjust key (restamped (s.history.clock + 1)) } }

/-- The state without the output of several, dropped in order. -/
def Store.dropAll (s : Store) (keys : List String) : Store := keys.foldl Store.dropOutput s

/-- Entries were stamped apart, none beyond the clock. -/
structure Store.Stamped (s : Store) : Prop where
  apart : ∀ key key' e e', s.history.entries.get? key = some e → s.history.entries.get? key' = some e' →
    e.change = e'.change → key = key'
  clock : ∀ key e, s.history.entries.get? key = some e → e.change ≤ s.history.clock

/-- Rows have IDs of their own, no two IDs are bound to one record, and entries were stamped apart. -/
structure Store.Evictable (s : Store) : Prop where
  ids : (s.jobs.map (·.id)).Nodup
  bindings : ∀ id id' key, s.jobCertificates.get? id = some key → s.jobCertificates.get? id' = some key → id = id'
  stamped : s.Stamped

/-- Rows have IDs of their own, and no two IDs are bound to one record. -/
structure Store.Apart (s : Store) : Prop where
  ids : (s.jobs.map (·.id)).Nodup
  bindings : ∀ id id' key, s.jobCertificates.get? id = some key → s.jobCertificates.get? id' = some key → id = id'

theorem Store.Evictable.rowsApart {s : Store} (fit : s.Evictable) : s.Apart := ⟨fit.ids, fit.bindings⟩

namespace Store

variable {s t : Store} {key : String}

theorem holdsUnder_iff {job : Job} : s.holdsUnder key job = true ↔
    s.jobCertificates.get? job.id = some key ∧ job.status.isTerminal = true ∧ jobBytes job ≠ 0 := by
  simp [holdsUnder, and_assoc]

/-- Only one row holds output under a key. -/
theorem Apart.eq_of_holdsUnder (fit : s.Apart) {job other : Job} (member : job ∈ s.jobs) (there : other ∈ s.jobs)
    (held : s.holdsUnder key job = true) (also : s.holdsUnder key other = true) : other = job :=
  List.inj_on_of_nodup_map fit.ids there member
    (fit.bindings _ _ key (holdsUnder_iff.mp also).1 (holdsUnder_iff.mp held).1)

theorem job?_of_mem (ids : (s.jobs.map (·.id)).Nodup) {job : Job} (member : job ∈ s.jobs) : s.job? job.id = some job := by
  cases found : s.job? job.id with
  | none =>
    rw [job?, List.find?_eq_none] at found
    exact absurd (beq_self_eq_true job.id) (found job member)
  | some other =>
    have named : other.id = job.id := by simpa using List.find?_some found
    rw [List.inj_on_of_nodup_map ids (List.mem_of_find?_eq_some found) member named]

end Store

namespace Storage

variable {s t : Store} {key : String}

/-- A candidate is as old as its entry. -/
theorem age_of_candidate {candidate : Candidate} (there : candidate? s key = some candidate) :
    candidate.age = s.stamp key := by
  obtain ⟨entry, found, there⟩ := Option.bind_eq_some_iff.mp there
  have row {other : Candidate} (here : s.jobs.reverse.findSome? (rowCandidate s key) = some other) :
      other.age = entry.change := by
    obtain ⟨job, -, offered⟩ := List.exists_of_findSome?_eq_some here
    obtain ⟨-, -, -, entry', found', -, rfl⟩ := rowCandidate_eq_some_iff.mp offered
    rw [found] at found'
    cases found'
    rfl
  rw [Store.stamp, found]
  unfold withReplica at there
  split_ifs at there
  · cases rows : s.jobs.reverse.findSome? (rowCandidate s key) with
    | none =>
      rw [rows] at there
      cases there
      rfl
    | some other =>
      rw [rows] at there
      cases there
      have age := row rows
      exact age
  · exact row there

/-- The candidates are the finished invocations that retain output. -/
theorem candidate?_isSome_iff : (candidate? s key).isSome = true ↔ s.Retains key := by
  unfold candidate? Store.Retains
  cases found : s.history.entries.get? key with
  | none => simp
  | some entry =>
    have rows : (s.jobs.reverse.findSome? (rowCandidate s key)).isSome = true ↔
        entry.record.selected.isSome = true ∧ ∃ job ∈ s.jobs, s.holdsUnder key job = true := by
      rw [List.findSome?_isSome_iff]
      constructor
      · rintro ⟨job, member, offered⟩
        obtain ⟨candidate, here⟩ := Option.isSome_iff_exists.mp offered
        obtain ⟨bytes, terminal, bound, entry', found', selected, -⟩ := rowCandidate_eq_some_iff.mp here
        rw [found] at found'
        cases found'
        exact ⟨selected, job, List.mem_reverse.mp member, Store.holdsUnder_iff.mpr ⟨bound, terminal, bytes⟩⟩
      · rintro ⟨selected, job, member, held⟩
        obtain ⟨bound, terminal, bytes⟩ := Store.holdsUnder_iff.mp held
        refine ⟨job, List.mem_reverse.mpr member, ?_⟩
        rw [rowCandidate_eq_some_iff.mpr ⟨bytes, terminal, bound, entry, found, selected, rfl⟩]
        rfl
    have final (holds : entry.record.selected.any (fun f => f.fact.status.isTerminal) = true) :
        entry.record.selected.isSome = true := by
      cases selected : entry.record.selected with
      | none =>
        rw [selected] at holds
        cases holds
      | some fact => rfl
    simp only [Option.bind_some, Option.some.injEq, exists_eq_left']
    unfold withReplica
    split_ifs with held
    · refine ⟨fun _ => ⟨final held.2, .inr ⟨held.2, held.1⟩⟩, fun _ => ?_⟩
      split <;> rfl
    · rw [rows]
      constructor
      · rintro ⟨selected, row⟩
        exact ⟨selected, .inl row⟩
      · rintro ⟨selected, row | ⟨terminal, bytes⟩⟩
        · exact ⟨selected, row⟩
        · exact absurd ⟨bytes, terminal⟩ held

/-- The row of the only holder is the one that is cleared. -/
theorem rows_of_holder (fit : s.Apart) {job : Job} (member : job ∈ s.jobs) (held : s.holdsUnder key job = true) :
    (Payload.local job.id).rows s.jobs = s.jobs.map (fun other => if s.holdsUnder key other then emptied other else other) := by
  have unique : s.jobs.Pairwise (fun a b : Job => (a.id == job.id) = true → (b.id == job.id) = false) := by
    refine (List.pairwise_map.mp fit.ids).imp (fun {a b} differ here => ?_)
    rw [beq_iff_eq] at here
    rw [beq_eq_false_iff_ne, ← here]
    exact differ.symm
  rw [Payload.rows, List.modifyFirst_eq_map _ unique]
  refine List.map_congr_left (fun other there => ?_)
  by_cases same : other = job
  · rw [same, if_pos (beq_self_eq_true _), if_pos held]
  · have apart : other.id ≠ job.id := fun equal => same (List.inj_on_of_nodup_map fit.ids there member equal)
    rw [if_neg (by simpa using apart), if_neg (fun also => same (fit.eq_of_holdsUnder member there held also))]

/-- Its receipt is the only one left for a row. -/
theorem receipts_of_holder (fit : s.Apart) {job : Job} (member : job ∈ s.jobs) (held : s.holdsUnder key job = true) :
    (s.jobs.filter (s.holdsUnder key)).map (·.id) = [job.id] := by
  have only : s.jobs.filter (s.holdsUnder key) = [job] := by
    refine List.perm_singleton.mp ((List.perm_ext_iff_of_nodup
      ((List.Nodup.of_map _ fit.ids).filter _) (List.nodup_singleton job)).mpr (fun other => ?_))
    rw [List.mem_filter, List.mem_singleton]
    constructor
    · rintro ⟨there, also⟩
      exact fit.eq_of_holdsUnder member there held also
    · rintro rfl
      exact ⟨member, held⟩
  rw [only]
  rfl

/-- Removing the payload of a candidate drops the output of its invocation. -/
theorem removePayload_candidate (fit : s.Apart) (room : s.history.clock.toNat + 1 < 2 ^ 64) {candidate : Candidate}
    (there : candidate? s key = some candidate) : removePayload s candidate.payload = .ok (s.dropOutput key) := by
  have keyed := key?_of_candidate there
  obtain ⟨entry, found, offered⟩ := Option.bind_eq_some_iff.mp there
  have cleared {job : Job} (member : job ∈ s.jobs) (held : s.holdsUnder key job = true) :
      removePayload s (.local job.id) = .ok (s.dropOutput key) := by
    refine removePayload_eq_ok_iff.mpr ⟨key, (Store.holdsUnder_iff.mp held).1, ?_, room, ?_⟩
    · rw [Payload.Present, Store.job?_of_mem fit.ids member]
      rfl
    · rw [Store.dropOutput, Payload.removedFrom, rows_of_holder fit member held, receipts_of_holder fit member held]
      rfl
  have untouched (idle : ∀ job ∈ s.jobs, ¬s.holdsUnder key job = true) :
      removePayload s (.replica key) = .ok (s.dropOutput key) := by
    refine removePayload_eq_ok_iff.mpr ⟨key, rfl, trivial, room, ?_⟩
    have rows : s.jobs.map (fun job => if s.holdsUnder key job then emptied job else job) = s.jobs := by
      refine (List.map_congr_left (fun job member => ?_)).trans (List.map_id s.jobs)
      rw [if_neg (idle job member)]
      rfl
    have receipts : s.jobs.filter (s.holdsUnder key) = [] := List.filter_eq_nil_iff.mpr idle
    rw [Store.dropOutput, rows, receipts]
    rfl
  cases rows : s.jobs.reverse.findSome? (rowCandidate s key) with
  | some other =>
    obtain ⟨job, member, row⟩ := List.exists_of_findSome?_eq_some rows
    obtain ⟨bytes, terminal, bound, _, -, -, same⟩ := rowCandidate_eq_some_iff.mp row
    have payload : candidate.payload = .local job.id := by
      rw [rows, same] at offered
      unfold withReplica at offered
      split_ifs at offered <;> cases offered <;> rfl
    rw [payload]
    exact cleared (List.mem_reverse.mp member) (Store.holdsUnder_iff.mpr ⟨bound, terminal, bytes⟩)
  | none =>
    rw [rows] at offered
    unfold withReplica at offered
    split_ifs at offered with held
    cases offered
    refine untouched (fun job member held' => ?_)
    obtain ⟨bound, terminal, bytes⟩ := Store.holdsUnder_iff.mp held'
    have selected : entry.record.selected.isSome = true := by
      cases fact : entry.record.selected with
      | none =>
        rw [fact] at held
        cases held.2
      | some fact => rfl
    have some := rowCandidate_eq_some_iff.mpr ⟨bytes, terminal, bound, entry, found, selected, rfl⟩
    have none := List.findSome?_eq_none_iff.mp rows job (List.mem_reverse.mpr member)
    rw [none] at some
    cases some

/-- What one invocation's output is dropped from offers the same under every other key. -/
theorem candidate?_dropOutput (s : Store) (key other : String) :
    candidate? (s.dropOutput key) other = if other = key then none else candidate? s other := by
  have entries : (s.dropOutput key).history.entries = s.history.entries.adjust key (restamped (s.history.clock + 1)) := rfl
  have jobs : (s.dropOutput key).jobs = s.jobs.map (fun job => if s.holdsUnder key job then emptied job else job) := rfl
  have bindings : (s.dropOutput key).jobCertificates = s.jobCertificates := rfl
  unfold candidate?
  by_cases same : other = key
  · subst same
    rw [if_pos rfl, entries]
    cases found : s.history.entries.get? other with
    | none => rw [OrdMap.adjust_of_none _ found, found]; rfl
    | some entry =>
      rw [OrdMap.adjust_of_some _ found, OrdMap.get?_insert_self, Option.bind_some]
      have bytes : replicaBytes (restamped (s.history.clock + 1) entry) = 0 := rfl
      unfold withReplica
      rw [bytes, if_neg (fun both => (lt_irrefl 0 both.1).elim), List.findSome?_eq_none_iff, jobs]
      intro job member
      by_contra present
      obtain ⟨candidate, here⟩ := Option.ne_none_iff_exists'.mp present
      obtain ⟨held, terminal, bound, -⟩ := rowCandidate_eq_some_iff.mp here
      rw [bindings] at bound
      obtain ⟨old, there, rfl⟩ := List.mem_map.mp (List.mem_reverse.mp member)
      split_ifs at held terminal bound with holds
      · exact held rfl
      · exact holds (Store.holdsUnder_iff.mpr ⟨bound, terminal, held⟩)
  · have entry : (s.dropOutput key).history.entries.get? other = s.history.entries.get? other := by
      rw [entries]
      cases found : s.history.entries.get? key with
      | none => rw [OrdMap.adjust_of_none _ found]
      | some e => rw [OrdMap.adjust_of_some _ found, OrdMap.get?_insert_of_ne _ _ same]
    have row : (rowCandidate (s.dropOutput key) other) ∘ (fun job => if s.holdsUnder key job then emptied job else job) =
        rowCandidate s other := by
      funext job
      dsimp only [Function.comp]
      split_ifs with held
      · have bound := (Store.holdsUnder_iff.mp held).1
        have foreign : s.jobCertificates.get? job.id ≠ some other := by
          rw [bound]
          exact fun equal => same (Option.some.inj equal).symm
        rw [rowCandidate, rowCandidate, if_pos (.inr (.inr foreign)), if_pos (.inr (.inr foreign))]
      · rw [rowCandidate, rowCandidate, entry, bindings]
    rw [if_neg same, entry, jobs, ← List.map_reverse, List.findSome?_map, row]

end Storage

namespace Store

variable {s t : Store} {key : String}

/-- What stays and what changes when the output of some invocations is dropped: their rows are cleared, their entries
lose the replica and are stamped above all others, the receipts are left, and that is all. -/
structure Spares (s : Store) (gone : List String) (t : Store) : Prop where
  frame : t = { s with
    jobs := t.jobs
    outputPruned := t.outputPruned
    historyPruned := t.historyPruned
    history := { s.history with clock := t.history.clock, entries := t.history.entries } }
  clock : t.history.clock.toNat = s.history.clock.toNat + gone.length
  rows : t.jobs = s.jobs.map (fun job => if gone.any (fun key => s.holdsUnder key job) then emptied job else job)
  kept : ∀ key ∉ gone, t.history.entries.get? key = s.history.entries.get? key
  cleared : ∀ key ∈ gone, ∀ e, s.history.entries.get? key = some e → ∃ change, s.history.clock < change ∧
    change ≤ t.history.clock ∧ t.history.entries.get? key = some (restamped change e)
  jobReceipts : ∀ id, t.outputPruned.contains id = true ↔ s.outputPruned.contains id = true ∨
    ∃ job ∈ s.jobs, job.id = id ∧ gone.any (fun key => s.holdsUnder key job) = true
  keyReceipts : ∀ key, t.historyPruned.contains key = true ↔ s.historyPruned.contains key = true ∨ key ∈ gone

theorem spares_nil (s : Store) : s.Spares [] s where
  frame := rfl
  clock := rfl
  rows := (List.map_id s.jobs).symm
  kept _ _ := rfl
  cleared _ absent := absurd absent List.not_mem_nil
  jobReceipts id := by simp
  keyReceipts key := by simp

theorem get?_dropOutput_of_ne (s : Store) {key other : String} (differs : other ≠ key) :
    (s.dropOutput key).history.entries.get? other = s.history.entries.get? other := by
  change (s.history.entries.adjust key _).get? other = _
  cases found : s.history.entries.get? key with
  | none => rw [OrdMap.adjust_of_none _ found]
  | some e => rw [OrdMap.adjust_of_some _ found, OrdMap.get?_insert_of_ne _ _ differs]

theorem get?_dropOutput_self {e : Entry} (found : s.history.entries.get? key = some e) :
    (s.dropOutput key).history.entries.get? key = some (restamped (s.history.clock + 1) e) := by
  change (s.history.entries.adjust key _).get? key = _
  rw [OrdMap.adjust_of_some _ found, OrdMap.get?_insert_self]

theorem clock_dropOutput (room : s.history.clock.toNat + 1 < 2 ^ 64) :
    (s.dropOutput key).history.clock.toNat = s.history.clock.toNat + 1 := by
  change (s.history.clock + 1).toNat = _
  rw [UInt64.toNat_add]
  exact Nat.mod_eq_of_lt room

/-- A cleared row holds nothing, and any other holds what it did. -/
theorem holdsUnder_dropOutput (s : Store) (key other : String) (job : Job) :
    (s.dropOutput key).holdsUnder other (if s.holdsUnder key job then emptied job else job) =
      (!s.holdsUnder key job && s.holdsUnder other job) := by
  cases held : s.holdsUnder key job with
  | true => simp [holdsUnder, emptied, jobBytes]
  | false => rfl

theorem Spares.cons {rest : List String} (absent : key ∉ rest) (room : s.history.clock.toNat + 1 < 2 ^ 64)
    (spares : (s.dropOutput key).Spares rest t) : s.Spares (key :: rest) t where
  frame := spares.frame
  clock := by
    rw [spares.clock, clock_dropOutput room, List.length_cons]
    omega
  rows := by
    rw [spares.rows]
    change (s.jobs.map _).map _ = _
    rw [List.map_map]
    refine List.map_congr_left (fun job _ => ?_)
    have both (after : Job) (same : after = if s.holdsUnder key job then emptied job else job) :
        (if rest.any (fun other => (s.dropOutput key).holdsUnder other after) then emptied after else after) =
          if (key :: rest).any (fun other => s.holdsUnder other job) then emptied job else job := by
      cases held : s.holdsUnder key job with
      | true =>
        rw [held, if_pos rfl] at same
        rw [same, List.any_cons, held, Bool.true_or, if_pos rfl]
        split_ifs <;> rfl
      | false =>
        rw [held, if_neg Bool.false_ne_true] at same
        rw [same, List.any_cons, held, Bool.false_or]
        rfl
    exact both _ rfl
  kept other differs := by
    rw [List.mem_cons, not_or] at differs
    rw [spares.kept other differs.2, get?_dropOutput_of_ne s differs.1]
  cleared other member e found := by
    have above : s.history.clock < (s.dropOutput key).history.clock := by
      rw [UInt64.lt_iff_toNat_lt, clock_dropOutput room]
      omega
    rcases List.mem_cons.mp member with rfl | later
    · refine ⟨s.history.clock + 1, above, ?_, ?_⟩
      · rw [UInt64.le_iff_toNat_le, spares.clock]
        exact Nat.le_add_right _ _
      · rw [spares.kept other absent, get?_dropOutput_self found]
    · have differs : other ≠ key := fun same => absent (same ▸ later)
      obtain ⟨change, higher, below, now⟩ := spares.cleared other later e ((get?_dropOutput_of_ne s differs).trans found)
      exact ⟨change, UInt64.lt_trans above higher, below, now⟩
  jobReceipts id := by
    rw [spares.jobReceipts]
    change (s.outputPruned.extend _).contains id = true ∨ (∃ job ∈ s.jobs.map _, _) ↔ _
    rw [OrdMap.contains_extend, Bool.or_eq_true, List.contains_iff_mem, List.mem_map, or_assoc]
    refine or_congr_right ?_
    constructor
    · rintro (⟨job, held, named⟩ | ⟨job, member, named, holds⟩)
      · obtain ⟨there, held⟩ := List.mem_filter.mp held
        exact ⟨job, there, named, by rw [List.any_cons, held, Bool.true_or]⟩
      · obtain ⟨old, there, rfl⟩ := List.mem_map.mp member
        simp only [holdsUnder_dropOutput] at holds
        refine ⟨old, there, ?_, ?_⟩
        · rw [← named]
          split_ifs <;> rfl
        · rw [List.any_cons, Bool.or_eq_true]
          refine .inr ?_
          obtain ⟨k, here, both⟩ := List.any_eq_true.mp holds
          exact List.any_eq_true.mpr ⟨k, here, (Bool.and_eq_true_iff.mp both).2⟩
    · rintro ⟨job, there, named, holds⟩
      rw [List.any_cons, Bool.or_eq_true] at holds
      cases held : s.holdsUnder key job with
      | true => exact .inl ⟨job, List.mem_filter.mpr ⟨there, held⟩, named⟩
      | false =>
        refine .inr ⟨job, List.mem_map.mpr ⟨job, there, by rw [held]; rfl⟩, named, ?_⟩
        have others := holds.resolve_left (by rw [held]; exact Bool.false_ne_true)
        obtain ⟨k, here, also⟩ := List.any_eq_true.mp others
        refine List.any_eq_true.mpr ⟨k, here, ?_⟩
        have same := holdsUnder_dropOutput s key k job
        rw [held] at same
        exact same.trans (by rw [also]; rfl)
  keyReceipts other := by
    rw [spares.keyReceipts]
    change (s.historyPruned.insert key ()).contains other = true ∨ _ ↔ _
    rw [OrdMap.contains_insert, Bool.or_eq_true, decide_eq_true_eq, List.mem_cons]
    tauto

/-- Dropping the output of one invocation after another. -/
theorem spares_dropAll {gone : List String} (nodup : gone.Nodup) (room : s.history.clock.toNat + gone.length < 2 ^ 64) :
    s.Spares gone (s.dropAll gone) := by
  induction gone generalizing s with
  | nil => exact spares_nil s
  | cons key rest ih =>
    obtain ⟨absent, tail⟩ := List.nodup_cons.mp nodup
    rw [List.length_cons] at room
    have first : s.history.clock.toNat + 1 < 2 ^ 64 := by omega
    refine Spares.cons absent first (ih tail ?_)
    rw [clock_dropOutput first]
    omega

theorem Apart.dropOutput (fit : s.Apart) (key : String) : (s.dropOutput key).Apart where
  ids := by
    change ((s.jobs.map _).map _).Nodup
    rw [List.map_map]
    have same : ((fun job : Job => job.id) ∘ fun job => if s.holdsUnder key job then emptied job else job) = (·.id) := by
      funext job
      dsimp only [Function.comp]
      split_ifs <;> rfl
    rw [same]
    exact fit.ids
  bindings := fit.bindings

theorem Evictable.dropOutput (fit : s.Evictable) (room : s.history.clock.toNat + 1 < 2 ^ 64) (key : String) :
    (s.dropOutput key).Evictable where
  ids := (fit.rowsApart.dropOutput key).ids
  bindings := fit.bindings
  stamped := by
    have clock : (s.dropOutput key).history.clock.toNat = s.history.clock.toNat + 1 := clock_dropOutput room
    have bound (other : String) (e : Entry) (found : (s.dropOutput key).history.entries.get? other = some e) :
        (other = key ∧ e.change = (s.dropOutput key).history.clock) ∨
          (other ≠ key ∧ s.history.entries.get? other = some e ∧ e.change ≤ s.history.clock) := by
      by_cases same : other = key
      · subst same
        cases before : s.history.entries.get? other with
        | none =>
          change (s.history.entries.adjust other _).get? other = _ at found
          rw [OrdMap.adjust_of_none _ before, before] at found
          cases found
        | some old =>
          rw [get?_dropOutput_self before] at found
          cases found
          exact .inl ⟨rfl, rfl⟩
      · rw [get?_dropOutput_of_ne s same] at found
        exact .inr ⟨same, found, fit.stamped.clock other e found⟩
    have below {change : UInt64} (old : change ≤ s.history.clock) : change < (s.dropOutput key).history.clock := by
      rw [UInt64.le_iff_toNat_le] at old
      rw [UInt64.lt_iff_toNat_lt, clock]
      omega
    refine ⟨fun one two e e' here there same => ?_, fun other e found => ?_⟩
    · rcases bound one e here with ⟨rfl, new⟩ | ⟨-, first, old⟩
      · rcases bound two e' there with ⟨rfl, -⟩ | ⟨-, -, old'⟩
        · rfl
        · exact absurd (same ▸ new) (UInt64.ne_of_lt (below old'))
      · rcases bound two e' there with ⟨rfl, new'⟩ | ⟨-, second, -⟩
        · exact absurd (same.trans new') (UInt64.ne_of_lt (below old))
        · exact fit.stamped.apart one two e e' first second same
    · rcases bound other e found with ⟨-, new⟩ | ⟨-, -, old⟩
      · exact UInt64.le_of_eq new
      · exact UInt64.le_of_lt (below old)

theorem Evictable.dropAll (fit : s.Evictable) {gone : List String} (room : s.history.clock.toNat + gone.length < 2 ^ 64) :
    (s.dropAll gone).Evictable := by
  induction gone generalizing s with
  | nil => exact fit
  | cons key rest ih =>
    rw [List.length_cons] at room
    have first : s.history.clock.toNat + 1 < 2 ^ 64 := by omega
    refine ih (fit.dropOutput first key) ?_
    rw [clock_dropOutput first]
    omega

end Store

namespace Storage

variable {s t : Store}

theorem candidate?_dropAll (s : Store) (gone : List String) (other : String) :
    candidate? (s.dropAll gone) other = if other ∈ gone then none else candidate? s other := by
  induction gone generalizing s with
  | nil => rw [if_neg List.not_mem_nil]; rfl
  | cons key rest ih =>
    change candidate? ((s.dropOutput key).dropAll rest) other = _
    rw [ih, candidate?_dropOutput]
    by_cases later : other ∈ rest
    · rw [if_pos later, if_pos (List.mem_cons_of_mem _ later)]
    · rw [if_neg later]
      by_cases same : other = key
      · rw [if_pos same, if_pos (same ▸ List.mem_cons_self)]
      · rw [if_neg same, if_neg (by rw [List.mem_cons, not_or]; exact ⟨same, later⟩)]

theorem filterMap_dropOutput {key : String} {rest : List String} (absent : key ∉ rest) :
    rest.filterMap (candidate? (s.dropOutput key)) = rest.filterMap (candidate? s) := by
  refine List.filterMap_congr (fun other member => ?_)
  rw [candidate?_dropOutput, if_neg (ne_of_mem_of_not_mem member absent)]

/-- Removing the candidates of some keys drops their output. -/
theorem removeAll_keys (fit : s.Evictable) {keys : List String} (nodup : keys.Nodup)
    (offered : ∀ key ∈ keys, (candidate? s key).isSome = true) (room : s.history.clock.toNat + keys.length < 2 ^ 64) :
    removeAll s (keys.filterMap (candidate? s)) = .ok (s.dropAll keys) := by
  induction keys generalizing s with
  | nil => rfl
  | cons key rest ih =>
    obtain ⟨absent, tail⟩ := List.nodup_cons.mp nodup
    rw [List.length_cons] at room
    have first : s.history.clock.toNat + 1 < 2 ^ 64 := by omega
    obtain ⟨candidate, there⟩ := Option.isSome_iff_exists.mp (offered key List.mem_cons_self)
    rw [List.filterMap_cons_some there, removeAll_cons, removePayload_candidate fit.rowsApart first there, ok_bind,
      ← filterMap_dropOutput absent]
    refine ih (fit.dropOutput first key) tail (fun other member => ?_) ?_
    · rw [candidate?_dropOutput, if_neg (ne_of_mem_of_not_mem member absent)]
      exact offered other (List.mem_cons_of_mem _ member)
    · rw [Store.clock_dropOutput first]
      omega

/-- Eviction drops the output of the shortest prefix that makes the rest fit, or of all. -/
theorem evict_keys (fit : s.Evictable) {keys : List String} (nodup : keys.Nodup)
    (offered : ∀ key ∈ keys, (candidate? s key).isSome = true) (room : s.history.clock.toNat + keys.length < 2 ^ 64) :
    ∃ gone rest, keys = gone ++ rest ∧ evict s (keys.filterMap (candidate? s)) = .ok (s.dropAll gone) ∧
      (rest ≠ [] → outputBytes (s.dropAll gone) ≤ outputBudget) ∧
      ∀ shorter more, gone = shorter ++ more → more ≠ [] → outputBudget < outputBytes (s.dropAll shorter) := by
  induction keys generalizing s with
  | nil =>
    refine ⟨[], [], rfl, rfl, fun some => absurd rfl some, fun shorter more split some => ?_⟩
    exact absurd (List.append_eq_nil_iff.mp split.symm).2 some
  | cons key rest ih =>
    obtain ⟨absent, tail⟩ := List.nodup_cons.mp nodup
    rw [List.length_cons] at room
    have first : s.history.clock.toNat + 1 < 2 ^ 64 := by omega
    obtain ⟨candidate, there⟩ := Option.isSome_iff_exists.mp (offered key List.mem_cons_self)
    rw [List.filterMap_cons_some there, evict]
    split_ifs with fits
    · refine ⟨[], key :: rest, rfl, rfl, fun _ => fits, fun shorter more split some => ?_⟩
      exact absurd (List.append_eq_nil_iff.mp split.symm).2 some
    · obtain ⟨gone, others, split, evicted, enough, least⟩ := ih (fit.dropOutput first key) tail
        (fun other member => by
          rw [candidate?_dropOutput, if_neg (ne_of_mem_of_not_mem member absent)]
          exact offered other (List.mem_cons_of_mem _ member))
        (by
          rw [Store.clock_dropOutput first]
          omega)
      rw [filterMap_dropOutput absent] at evicted
      refine ⟨key :: gone, others, by rw [split]; rfl, ?_, enough, fun shorter more apart some => ?_⟩
      · rw [removePayload_candidate fit.rowsApart first there, ok_bind, evicted]
        rfl
      · cases shorter with
        | nil => exact not_le.mp fits
        | cons head shorter =>
          obtain ⟨rfl, later⟩ := List.cons.inj apart
          exact least shorter more later some

/-- However far an eviction gets, it drops output of one invocation after another. -/
theorem evict_drops (fit : s.Apart) {keys : List String} (nodup : keys.Nodup)
    (offered : ∀ key ∈ keys, (candidate? s key).isSome = true)
    (success : evict s (keys.filterMap (candidate? s)) = .ok t) : ∃ gone, t = s.dropAll gone := by
  induction keys generalizing s with
  | nil =>
    cases success
    exact ⟨[], rfl⟩
  | cons key rest ih =>
    obtain ⟨absent, tail⟩ := List.nodup_cons.mp nodup
    obtain ⟨candidate, there⟩ := Option.isSome_iff_exists.mp (offered key List.mem_cons_self)
    rw [List.filterMap_cons_some there, evict] at success
    split_ifs at success
    · cases success
      exact ⟨[], rfl⟩
    · rw [bind_eq_ok] at success
      obtain ⟨u, removed, success⟩ := success
      obtain ⟨-, -, -, room, -⟩ := removePayload_eq_ok_iff.mp removed
      rw [removePayload_candidate fit room there] at removed
      cases removed
      rw [← filterMap_dropOutput absent] at success
      obtain ⟨gone, same⟩ := ih (fit.dropOutput key) tail (fun other member => by
        rw [candidate?_dropOutput, if_neg (ne_of_mem_of_not_mem member absent)]
        exact offered other (List.mem_cons_of_mem _ member)) success
      exact ⟨key :: gone, same⟩

theorem outputBytes_dropOutput_le (s : Store) (key : String) : outputBytes (s.dropOutput key) ≤ outputBytes s := by
  have rows : ((s.jobs.map (fun job => if s.holdsUnder key job then emptied job else job)).map jobBytes).sum ≤
      (s.jobs.map jobBytes).sum := by
    rw [List.map_map]
    refine List.sum_le_sum (fun job _ => ?_)
    dsimp only [Function.comp]
    split_ifs
    · exact Nat.zero_le _
    · exact le_rfl
  have entries : ((s.history.entries.adjust key (restamped (s.history.clock + 1))).values.map replicaBytes).sum ≤
      (s.history.entries.values.map replicaBytes).sum := by
    cases found : s.history.entries.get? key with
    | none => rw [OrdMap.adjust_of_none _ found]
    | some e =>
      have moved := OrdMap.sum_insert_of_some (fun e => replicaBytes e.2) (restamped (s.history.clock + 1) e) found
      have blank : replicaBytes (restamped (s.history.clock + 1) e) = 0 := rfl
      rw [OrdMap.adjust_of_some _ found]
      simp only [OrdMap.values, List.map_map, Function.comp_def]
      dsimp only at moved
      omega
  exact Nat.add_le_add rows entries

theorem outputBytes_dropAll_le (s : Store) (gone : List String) : outputBytes (s.dropAll gone) ≤ outputBytes s := by
  induction gone generalizing s with
  | nil => exact le_rfl
  | cons key rest ih => exact (ih (s.dropOutput key)).trans (outputBytes_dropOutput_le s key)

/-- The candidates are those of the finished invocations that retain output, once each. -/
theorem exists_keys (s : Store) : ∃ keys : List String, keys.Nodup ∧ (∀ key, key ∈ keys ↔ s.Retains key) ∧
    candidates s = keys.filterMap (candidate? s) := by
  have keyed {candidate : Candidate} (member : candidate ∈ candidates s) :
      (candidate.payload.key? s).bind (candidate? s) = some candidate := by
    obtain ⟨key, there⟩ := mem_candidates_iff.mp member
    rw [key?_of_candidate there]
    exact there
  have perm : ((candidates s).filterMap (fun candidate => candidate.payload.key? s)).Perm
      (s.history.entries.keys.filter (fun key => (candidate? s key).isSome)) := by
    refine ((candidates_perm s).filterMap _).trans (.of_eq ?_)
    rw [List.filterMap_filterMap, ← List.filterMap_eq_filter]
    refine List.filterMap_congr (fun key _ => ?_)
    cases there : candidate? s key with
    | none => simp [Option.guard, there]
    | some candidate => simpa [Option.guard, there] using key?_of_candidate there
  have nodup := perm.nodup_iff.mpr (s.history.entries.keys_nodup.filter _)
  have again : candidates s =
      ((candidates s).filterMap (fun candidate => candidate.payload.key? s)).filterMap (candidate? s) := by
    rw [List.filterMap_filterMap]
    exact ((List.filterMap_congr (fun candidate member => keyed member)).trans List.filterMap_some).symm
  refine ⟨_, nodup, fun key => ?_, again⟩
  rw [perm.mem_iff, List.mem_filter, candidate?_isSome_iff]
  refine ⟨fun both => both.2, fun retains => ⟨?_, retains⟩⟩
  obtain ⟨e, found, -⟩ := retains
  exact OrdMap.mem_keys_iff.mpr (OrdMap.contains_eq_true_iff.mpr ⟨e, found⟩)

/-- They are listed oldest first. -/
theorem exists_order (stamped : s.Stamped) : ∃ keys : List String, keys.Nodup ∧ (∀ key, key ∈ keys ↔ s.Retains key) ∧
    keys.Pairwise (fun a b => s.stamp a < s.stamp b) ∧ candidates s = keys.filterMap (candidate? s) := by
  obtain ⟨keys, nodup, retained, again⟩ := exists_keys s
  refine ⟨keys, nodup, retained, ?_, again⟩
  have : Std.Total (fun a b : Candidate => a.age ≤ b.age) := ⟨fun a b => UInt64.le_total a.age b.age⟩
  have : IsTrans Candidate (fun a b => a.age ≤ b.age) := ⟨fun _ _ _ => UInt64.le_trans⟩
  have sorted : (candidates s).Pairwise (fun a b => a.age ≤ b.age) := List.pairwise_insertionSort _ _
  rw [again, List.pairwise_filterMap] at sorted
  refine (sorted.and nodup).imp_of_mem (fun {a b} first second both => ?_)
  obtain ⟨ordered, differ⟩ := both
  have offered {key : String} (member : key ∈ keys) : ∃ candidate, candidate? s key = some candidate :=
    Option.isSome_iff_exists.mp (candidate?_isSome_iff.mpr ((retained key).mp member))
  obtain ⟨one, here⟩ := offered first
  obtain ⟨two, there⟩ := offered second
  have below := ordered one here two there
  rw [age_of_candidate here, age_of_candidate there] at below
  refine UInt64.lt_of_le_of_ne below (fun same => differ ?_)
  obtain ⟨e, found, -⟩ := Option.bind_eq_some_iff.mp here
  obtain ⟨e', found', -⟩ := Option.bind_eq_some_iff.mp there
  rw [Store.stamp, Store.stamp, found, found'] at same
  exact stamped.apart a b e e' found found' same

end Storage

end Clix
