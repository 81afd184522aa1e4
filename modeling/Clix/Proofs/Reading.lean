import Clix.Proofs.Facts

/-! # What a page tells its reader

The rows of a page are all that its machine stamped between the cursor it was asked for and the one it ends at. Once they
are merged, the reader holds everything up to that cursor, unless it skipped rows of authors it does not know.
-/

namespace Clix

open Except Versioned

variable {c : Crypto} {reading : String → Prop} {b b' s t x y : Store} {q : Progress} {p : Page} {r : Record}

/-- A machine holds a record, as it is or with newer facts, or has certified the invocation with its own key as a job of
its own. -/
def Store.Holds (c : Crypto) (s : Store) (r : Record) : Prop :=
  (∃ e, s.history.entries.get? (History.invocationHash c r.certificate) = some e ∧ r.Each Reaches e.record) ∨
    ∃ id, s.CertifiedOwn c id (History.invocationHash c r.certificate)

theorem Store.FactsSucceed.holds (succeeds : s.FactsSucceed c t) (holds : s.Holds c r) : t.Holds c r := by
  rcases holds with ⟨e, found, reaches⟩ | ⟨id, own⟩
  · rcases succeeds.records _ e found with ⟨e', there, newer⟩ | ⟨id, -, own⟩
    · exact .inl ⟨e', there, reaches.trans Reaches.trans (newer.mono Succeeds.reaches)⟩
    · exact .inr ⟨id, own⟩
  · exact .inr ⟨id, succeeds.own own⟩

namespace History

/-! ### Merging rows -/

theorem holds_ingest {published : Published} {changed : Bool} (success : ingest c s published = .ok (t, changed)) :
    t.Holds c published.record := by
  have ingested := ingest_eq_ok success
  obtain ⟨origin, runner, _, _, first, second, rest⟩ := ingested.merged
  have newer : published.record.Each Reaches ⟨published.record.certificate, origin, runner⟩ :=
    ⟨rfl, (mergeFact_eq_ok first).2, (mergeFact_eq_ok second).2⟩
  obtain ⟨moved, ⟨still, rfl⟩ | ⟨-, change, u, stamped, rfl⟩⟩ := rest
  · -- Nothing was written, so the entry was there and has the merged facts.
    rw [still, eq_comm, Bool.or_eq_false_iff, Bool.or_eq_false_iff, Bool.or_eq_false_iff] at moved
    obtain ⟨⟨⟨originKept, runnerKept⟩, -⟩, present⟩ := moved
    obtain ⟨e, found⟩ := Option.isSome_iff_exists.mp (Option.isNone_eq_false_iff.mp present)
    have held : base t c published.record.certificate = e := by rw [base, found, Option.getD_some]
    have certificate := ingested.certificate
    rw [held] at first second certificate
    subst originKept runnerKept
    obtain rfl := eq_of_mergeFact first
    obtain rfl := eq_of_mergeFact second
    exact .inl ⟨e, found, certificate, newer.origin, newer.runner⟩
  · obtain ⟨-, -, rfl⟩ := nextChange_eq_ok stamped
    exact .inl ⟨_, OrdMap.get?_insert_self _ _ _, newer⟩

theorem factsSucceed_mergeRows {unknown flagged : Bool} {rows : List Published}
    (success : mergeRows c s unknown rows = .ok (t, flagged)) : s.FactsSucceed c t := by
  induction rows generalizing s unknown with
  | nil =>
    cases success
    exact .refl _
  | cons entry rest ih =>
    rw [mergeRows] at success
    split_ifs at success
    · rw [bind_eq_ok] at success
      obtain ⟨⟨u, changed⟩, merged, success⟩ := success
      exact (Store.factsSucceed_ingest merged).trans (ih success)
    · exact ih success

/-- When no row was skipped, all are held. -/
theorem holds_mergeRows {unknown flagged : Bool} {rows : List Published}
    (success : mergeRows c s unknown rows = .ok (t, flagged)) (clean : flagged = false) :
    unknown = false ∧ ∀ row ∈ rows, t.Holds c row.record := by
  induction rows generalizing s unknown with
  | nil =>
    cases success
    exact ⟨clean, fun row member => absurd member List.not_mem_nil⟩
  | cons entry rest ih =>
    rw [mergeRows] at success
    split_ifs at success
    · rw [bind_eq_ok] at success
      obtain ⟨⟨u, changed⟩, merged, success⟩ := success
      obtain ⟨known, held⟩ := ih success
      exact ⟨known, List.forall_mem_cons.mpr ⟨(factsSucceed_mergeRows success).holds (holds_ingest merged), held⟩⟩
    · exact absurd (ih success).1 (by decide)

/-! ### Pages -/

/-- A window lists its entries in the order of their stamps. -/
theorem window_increasing (stamped : s.log.Stamped) (after high : UInt64) :
    (window s after high).Pairwise (fun e e' => e.change.toNat < e'.change.toNat) := by
  have distinct : (s.history.entries.values).Pairwise (fun e e' => e.change ≠ e'.change) := by
    refine List.pairwise_map.mpr (s.history.entries.sorted.imp_of_mem (fun {x y} first second below same => ?_))
    have found {z : String × Entry} (member : z ∈ s.history.entries.entries) :
        s.log.entry? z.1 = some (z.2.change.toNat, z.2.record) :=
      Store.log_eq_some.mpr ⟨z.2, OrdMap.get?_eq_some_iff.mpr member, rfl⟩
    exact below.ne (stamped.apart _ _ _ _ (found first) (found second) (congrArg UInt64.toNat same))
  have : Std.Total (fun e e' : Entry => e.change ≤ e'.change) := ⟨fun e e' => UInt64.le_total e.change e'.change⟩
  have : IsTrans Entry (fun e e' => e.change ≤ e'.change) := ⟨fun _ _ _ => UInt64.le_trans⟩
  have sorted : (window s after high).Pairwise (fun e e' => e.change ≤ e'.change) := List.pairwise_insertionSort _ _
  have apart : (window s after high).Pairwise (fun e e' => e.change ≠ e'.change) :=
    (List.perm_insertionSort _ _).symm.pairwise (distinct.filter _) Ne.symm
  exact (sorted.and apart).imp (fun both => UInt64.lt_iff_toNat_lt.mp (UInt64.lt_of_le_of_ne both.1 both.2))

/-- The rows of a page are all that was stamped up to its end. -/
structure Answers (b : Store) (q : Progress) (p : Page) : Prop where
  clock : p.next.toNat ≤ b.log.clock
  resumed : p.reset = false → q.epoch = b.history.epoch
  rows : b.log.Seen (fun _ r => ∃ row ∈ p.entries, row.record = r) (if p.reset then (0 : UInt64) else q.cursor).toNat
    p.next.toNat

theorem Answers.advance (answers : Answers b q p) (later : b.Later reading b') (named : b.history.epoch ≠ "") :
    Answers b' q p where
  clock := answers.clock.trans later.log.clock
  resumed continued := (answers.resumed continued).trans (later.epoch named).symm
  rows := answers.rows.advance later.log answers.clock

theorem toNat_min_le (x y : UInt64) : (min x y).toNat ≤ y.toNat := by
  change (if x ≤ y then x else y).toNat ≤ y.toNat
  split_ifs with below
  · exact UInt64.le_iff_toNat_le.mp below
  · exact le_rfl

/-- The rows at the front of a window are those stamped up to the last of them. -/
structure Front (s : Store) (after high next : UInt64) (taken : List Entry) : Prop where
  begins : after ≤ next
  ends : next ≤ high
  mem : ∀ e, e ∈ taken ↔ (∃ key, s.history.entries.get? key = some e) ∧ after < e.change ∧ e.change ≤ next
  increasing : taken.Pairwise (fun e e' => e.change.toNat < e'.change.toNat)

theorem front_of_window {after high next : UInt64} {taken rest : List Entry} (stamped : s.log.Stamped)
    (split : window s after high = taken ++ rest) (boundary : after ≤ high)
    (ends : next = if rest.isEmpty then high else lastChange after taken) : Front s after high next taken := by
  have increasing := split ▸ window_increasing stamped after high
  have listed {e : Entry} : e ∈ taken ++ rest ↔ (∃ key, s.history.entries.get? key = some e) ∧ after < e.change ∧
      e.change ≤ high := split ▸ mem_window
  have ordered := (List.pairwise_append.mp increasing).1
  cases rest with
  | nil =>
    obtain rfl : next = high := ends
    rw [List.append_nil] at listed
    exact ⟨boundary, UInt64.le_refl _, fun _ => listed, ordered⟩
  | cons more others =>
    replace ends : next = lastChange after taken := ends
    cases last : taken.getLast? with
    | none =>
      obtain rfl : next = after := by rw [ends, lastChange, last]; rfl
      obtain rfl : taken = [] := List.getLast?_eq_none_iff.mp last
      refine ⟨UInt64.le_refl _, boundary, fun e => ⟨fun member => absurd member List.not_mem_nil, ?_⟩, ordered⟩
      exact fun stamped => absurd stamped.2.1 (UInt64.not_lt.mpr stamped.2.2)
    | some e' =>
      obtain rfl : next = e'.change := by rw [ends, lastChange, last]; rfl
      obtain ⟨init, rfl⟩ := List.getLast?_eq_some_iff.mp last
      have member : e' ∈ (init ++ [e']) ++ more :: others :=
        List.mem_append_left _ (List.mem_append_right init List.mem_cons_self)
      have inside := listed.mp member
      refine ⟨UInt64.le_of_lt inside.2.1, inside.2.2, fun e => ⟨fun here => ?_, fun stamped => ?_⟩, ordered⟩
      · refine ⟨(listed.mp (List.mem_append_left _ here)).1, (listed.mp (List.mem_append_left _ here)).2.1, ?_⟩
        rcases List.mem_append.mp here with earlier | same
        · have below := (List.pairwise_append.mp ordered).2.2 e earlier e' List.mem_cons_self
          exact UInt64.le_iff_toNat_le.mpr below.le
        · rw [List.mem_singleton.mp same]
          exact UInt64.le_refl _
      · refine List.mem_front_of_le increasing (listed.mpr ⟨stamped.1, stamped.2.1, ?_⟩) last
          (UInt64.le_iff_toNat_le.mp stamped.2.2)
        exact UInt64.le_trans stamped.2.2 inside.2.2

theorem answers_of_page (stamped : b.log.Stamped) (served : page c b q.epoch q.cursor (requestHigh q) = .ok p) :
    Answers b q p := by
  have by' := page_eq_ok served
  obtain ⟨taken, rest, split, rows, -, -, next⟩ := by'.rows
  have front := front_of_window stamped split by'.boundary next
  have captured : p.high.toNat ≤ b.history.clock.toNat := by
    rw [by'.captured]
    split_ifs
    · exact le_rfl
    · exact toNat_min_le _ _
  refine ⟨(UInt64.le_iff_toNat_le.mp front.ends).trans captured, fun continued => ?_, fun key e found later early => ?_⟩
  · have same := by'.restarted
    rw [continued, eq_comm, Bool.or_eq_false_iff, decide_eq_false_iff_not, not_not] at same
    exact same.1
  · obtain ⟨entry, there, rfl⟩ := Store.log_eq_some.mp found
    have listed := (front.mem entry).mpr
      ⟨⟨key, there⟩, UInt64.lt_iff_toNat_lt.mpr later, UInt64.le_iff_toNat_le.mpr early⟩
    exact ⟨exportEntry c b entry, rows ▸ List.mem_map_of_mem listed, rfl⟩

/-- Rows in the order of their stamps, within their page, are accepted. -/
theorem checkOrder_eq_ok {next previous : UInt64} {rows : List Published}
    (increasing : rows.Pairwise (fun row row' => row.change.toNat < row'.change.toNat))
    (within : ∀ row ∈ rows, previous < row.change ∧ row.change ≤ next) : checkOrder next previous rows = .ok () := by
  induction rows generalizing previous with
  | nil => rfl
  | cons row rest ih =>
    obtain ⟨later, ordered⟩ := List.pairwise_cons.mp increasing
    obtain ⟨here, others⟩ := List.forall_mem_cons.mp within
    have fine : ¬(row.change ≤ previous ∨ next < row.change) := by
      rw [not_or, UInt64.not_le, UInt64.not_lt]
      exact here
    rw [checkOrder, refuseIf_neg fine, ok_bind]
    exact ih ordered (fun other member => ⟨UInt64.lt_iff_toNat_lt.mpr (later other member), (others other member).2⟩)

/-- A reader accepts the page that a machine answers to it. -/
theorem checkPage_of_page (stamped : b.log.Stamped) (named : b.history.epoch ≠ "")
    (served : page c b q.epoch q.cursor (requestHigh q) = .ok p) : checkPage q p = .ok () := by
  have by' := page_eq_ok served
  obtain ⟨taken, rest, split, rows, complete, few, next⟩ := by'.rows
  have front := front_of_window stamped split by'.boundary next
  have ordered : checkOrder p.next (if p.reset then 0 else q.cursor) p.entries = .ok () := by
    refine checkOrder_eq_ok ?_ (fun row member => ?_)
    · rw [rows]
      exact List.pairwise_map.mpr front.increasing
    · rw [rows] at member
      obtain ⟨e, there, rfl⟩ := List.mem_map.mp member
      exact ((front.mem e).mp there).2
  have answers := answers_of_page stamped served
  have bounded : ¬(pageRows < p.entries.length ∨ p.high < p.next ∨ p.epoch = "" ∨
      (p.reset = false ∧ p.epoch ≠ q.epoch) ∨ (p.reset = false ∧ p.next < q.cursor) ∨
      (p.complete = true ∧ p.next ≠ p.high)) := by
    rintro (many | beyond | unnamed | ⟨continued, differs⟩ | ⟨continued, back⟩ | ⟨finished, short⟩)
    · exact absurd many (not_lt.mpr few)
    · exact absurd beyond (UInt64.not_lt.mpr front.ends)
    · exact named (by'.sameEpoch.symm.trans unnamed)
    · exact differs (by'.sameEpoch.trans (answers.resumed continued).symm)
    · have after := front.begins
      rw [continued, if_neg Bool.false_ne_true] at after
      exact absurd back (UInt64.not_lt.mpr after)
    · rw [complete] at finished
      rw [next, if_pos finished] at short
      exact short rfl
  rw [checkPage, refuseIf_neg bounded, ok_bind, ordered]

/-! ### Cursors -/

/-- Everything that one machine stamped up to a cursor is held by another, unless unknown authors were reported. -/
structure Read (c : Crypto) (b x : Store) (q : Progress) : Prop where
  clock : q.cursor.toNat ≤ b.log.clock
  seen : q.unknownAuthors = false → b.log.Seen (fun _ r => x.Holds c r) 0 q.cursor.toNat

theorem Read.advance (read : Read c b x q) (later : b.Later reading b') (succeeds : x.FactsSucceed c y) :
    Read c b' y q where
  clock := read.clock.trans later.log.clock
  seen clean := ((read.seen clean).mono (fun _ _ holds => succeeds.holds holds)).advance later.log read.clock

theorem epoch_mergePage {peer : BodyId} (merged : mergePage c s peer q p = .ok t) :
    (progress t peer).epoch = p.epoch := by
  rw [mergePage, bind_eq_ok] at merged
  obtain ⟨⟨u, unknown⟩, rows, merged⟩ := merged
  cases merged
  rw [progress_setProgress]

/-- Merging an answer reads on. -/
theorem Answers.read {peer : BodyId} (answers : Answers b q p) (merged : mergePage c s peer q p = .ok t)
    (before : p.reset = false → Read c b s q) : Read c b t (progress t peer) := by
  rw [mergePage, bind_eq_ok] at merged
  obtain ⟨⟨u, unknown⟩, rows, merged⟩ := merged
  cases merged
  rw [progress_setProgress]
  refine ⟨answers.clock, fun clean => ?_⟩
  obtain ⟨known, held⟩ := holds_mergeRows rows clean
  refine ChangeLog.Seen.mono ?_ (fun _ r => Store.FactsSucceed.holds (s := u) (.of_eq rfl rfl rfl))
  have new : b.log.Seen (fun _ r => u.Holds c r) (if p.reset then (0 : UInt64) else q.cursor).toNat
      p.next.toNat := by
    refine answers.rows.mono ?_
    rintro _ r ⟨row, member, same⟩
    exact same ▸ held row member
  cases reset : p.reset with
  | true =>
    rw [reset, if_pos rfl] at new
    exact new
  | false =>
    rw [reset, if_neg Bool.false_ne_true] at new known
    have old := (before reset).seen known
    exact (old.mono (fun _ _ holds => (factsSucceed_mergeRows rows).holds holds)).trans new

end History

end Clix
