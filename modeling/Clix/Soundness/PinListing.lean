import Clix.Proofs.PinListing
import Clix.Proofs.PinOwner

/-! # Listing the whole recovery directory

Following the cursors from the start ends, whatever order the directory lists its names in each time. Together
the pages have one row for each receipt and for each data file that no receipt names, and the file that keeps a
synchronization from starting shows a problem in its row.
-/

namespace Clix.Pin

open Except

variable {c : Crypto} {d : Disk} {saved : OrdMap String Artifact} {cursor : Option String} {limit k : ℕ}
  {id name body : String} {page : RecoveryList} {pages : List RecoveryList} {view : RecoveryInspection}
  {orders : ℕ → List String × List String}

/-- Pages from a cursor to the end. The directory has an order for each of the two readings of a page. -/
inductive Pages (c : Crypto) (d : Disk) (body : String) (limit : ℕ) (orders : ℕ → List String × List String) :
    ℕ → Option String → List RecoveryList → Prop
  | last {k : ℕ} {cursor : Option String} {page : RecoveryList}
      (ran : listRecoveryPage c d body (orders k).1 (orders k).2 cursor limit = .ok page)
      (ends : page.nextCursor = none) : Pages c d body limit orders k cursor [page]
  | more {k : ℕ} {cursor : Option String} {page : RecoveryList} {next : String} {rest : List RecoveryList}
      (ran : listRecoveryPage c d body (orders k).1 (orders k).2 cursor limit = .ok page)
      (continues : page.nextCursor = some next) (others : Pages c d body limit orders (k + 1) (some next) rest) :
      Pages c d body limit orders k cursor (page :: rest)

/-- A file for which a check of the directory fails: a receipt that is not in order or, where all are, data that
none names. -/
inductive Blamed (c : Crypto) (saved : OrdMap String Artifact) (name : String) : Prop
  | receipt (there : saved.get? name ≠ none) (json : isReceiptName name = true)
      (fails : checkReceipt c saved name ≠ .ok ())
  | data (there : saved.get? name ≠ none) (plain : isReceiptName name = false)
      (inOrder : ∀ id, saved.get? id ≠ none → isReceiptName id = true → checkReceipt c saved id = .ok ())
      (unnamed : ∀ id, saved.get? id ≠ none → isReceiptName id = true → versionOf saved id ≠ some name)

/-- What the pages of a directory show together. -/
structure ListedWhole (c : Crypto) (saved : OrdMap String Artifact) (limit : ℕ) (pages : List RecoveryList) :
    Prop where
  once : (pages.flatMap (fun page => page.entries.map (·.id))).Nodup
  rows : ∀ name, name ∈ pages.flatMap (fun page => page.entries.map (·.id)) ↔ saved.get? name ≠ none ∧
    (isReceiptName name = true ∨ ¬∃ id r, saved.get? id ≠ none ∧ isReceiptName id = true ∧
      readAndParse saved id = .ok r ∧ r.version = name)
  page : ∀ page ∈ pages, page.entries.length ≤ limit ∧ (page.entries.map (·.id)).Pairwise (· < ·) ∧
    page.usage = wholeUsage saved
  explained : checkRecoveryExcept c saved [] ≠ .ok () →
    (∀ page ∈ pages, page.usage.admissionBlocked = true) ∨ ∃ name, Blamed c saved name
  problems : ∀ name, Blamed c saved name → ∃ page ∈ pages, page.blocked = true ∧
    ∃ entry ∈ page.entries, entry.id = name ∧ entry.problem ≠ none

theorem owned_eq_true : owned saved name = true ↔ ∃ id r, saved.get? id ≠ none ∧ isReceiptName id = true ∧
    readAndParse saved id = .ok r ∧ r.version = name := by
  simp only [owned, List.any_eq_true, Bool.and_eq_true, ownedBy_eq_true, mem_keys_iff_ne_none]
  refine exists_congr (fun id => ?_)
  constructor
  · rintro ⟨there, json, r, read⟩
    exact ⟨r, there, json, read⟩
  · rintro ⟨r, there, json, read⟩
    exact ⟨there, json, r, read⟩

/-! ## Rows with a problem -/

theorem snapshotInternal_fingerprint {retained : Option RecoveryVersion}
    (success : snapshotInternal c d name = .ok retained) :
    internalSnapshot c d.tree.saved name = .ok (retained.map (·.fingerprint)) := by
  rw [snapshotInternal, bind_eq_ok] at success
  obtain ⟨f, opened, success⟩ := success
  cases success
  rw [internalSnapshot, opened, ok_bind, Option.map_map]
  rfl

/-- A row without a problem is that of a receipt in order. -/
theorem checkReceipt_of_row (clean : (receiptEntry c d id).problem = none) :
    checkReceipt c d.tree.saved id = .ok () := by
  unfold receiptEntry at clean
  cases ran : inspection c d id with
  | error e =>
    rw [ran] at clean
    cases clean
  | ok view =>
    rw [ran] at clean
    dsimp only at clean
    split_ifs at clean with recorded healthy
    · obtain ⟨-, r, read, shown⟩ := inspection_recorded ran (by simpa using recorded)
      rw [inspectReceipt, bind_eq_ok] at shown
      obtain ⟨live, -, shown⟩ := shown
      rw [bind_eq_ok] at shown
      obtain ⟨retained, snapshot, shown⟩ := shown
      cases shown
      simp only [RecoveryInspection.healthy, Bool.and_eq_true, decide_eq_true_eq] at healthy
      rw [readAndParse, bind_eq_ok] at read
      obtain ⟨r', readable, parsed⟩ := read
      have same := (parseReceipt_eq_ok.mp parsed).1
      subst same
      rw [checkReceipt, readable, ok_bind, refuseIf_neg (by tauto), ok_bind, parsed, ok_bind,
        snapshotInternal_fingerprint snapshot, ok_bind, refuseIf_eq_ok, not_not]
      exact healthy.2

theorem recheckLive_problem {entry : RecoveryEntry} (problem : entry.problem ≠ none) :
    (recheckLive c d entry).problem ≠ none := by
  unfold recheckLive
  split
  · exact problem
  · split_ifs
    · exact problem
    · split
      · exact problem
      · simp

/-- The row of a file for which the check fails has a problem. -/
theorem Blamed.problem (blamed : Blamed c d.tree.saved name) :
    hasRow d.tree.saved name = true ∧ (rowOf c d name).problem ≠ none := by
  cases blamed with
  | receipt _ json fails =>
    refine ⟨by rw [hasRow, json, Bool.true_or], ?_⟩
    rw [rowOf, if_pos json]
    exact recheckLive_problem (fun clean => fails (checkReceipt_of_row clean))
  | data _ plain _ unnamed =>
    have free : owned d.tree.saved name = false := by
      rw [Bool.eq_false_iff, ne_eq, owned_eq_true]
      rintro ⟨id, r, there, json, read, rfl⟩
      rw [readAndParse, bind_eq_ok] at read
      obtain ⟨r', readable, parsed⟩ := read
      have same := (parseReceipt_eq_ok.mp parsed).1
      subst same
      obtain ⟨text, found⟩ := readReceipt_eq_ok readable
      exact unnamed id there json (by rw [versionOf, found]; rfl)
    refine ⟨by rw [hasRow, free]; simp, ?_⟩
    rw [rowOf, if_neg (by rw [plain]; simp), unreferencedEntry]
    simp

/-- A check that fails within the limits fails for a file. -/
theorem exists_blamed (named : ∀ name, saved.get? name ≠ none → validRecoveryName name = .ok ())
    (bytes : (saved.entries.map (fun e => e.2.size)).sum ≤ maxRecoveryBytes) (entries : saved.size ≤ maxRecoveryEntries)
    (fails : checkRecoveryExcept c saved [] ≠ .ok ()) : ∃ name, Blamed c saved name := by
  by_contra none
  rw [not_exists] at none
  have receipts (id : String) (there : saved.get? id ≠ Option.none) (json : isReceiptName id = true) :
      checkReceipt c saved id = .ok () :=
    by_contra (fun wrong => none id (.receipt there json wrong))
  refine fails (checkRecoveryExcept_eq_ok.mpr ⟨named, bytes, entries, fun id there json _ => receipts id there json,
    fun name there plain unnamed => ?_⟩)
  exact absurd (.data there plain receipts (fun id present json => unnamed id present json List.not_mem_nil))
    (none name)

/-! ## All pages -/

theorem above_length_lt {next : String} (pos : 0 < limit)
    (ends : (pageNames saved cursor limit).getLast? = some next)
    (more : limit < (List.above cursor saved.keys).length) :
    (List.above (some next) saved.keys).length < (List.above cursor saved.keys).length := by
  rw [List.above_last (OrdMap.keys_sorted saved) ends, List.length_drop]
  omega

/-- Pages from any cursor, by induction on what is behind it. -/
theorem exists_pages (named : ∀ name ∈ d.tree.saved.keys, validRecoveryName name = .ok ())
    (lists : ∀ k, (orders k).1.Perm d.tree.saved.keys ∧ (orders k).2.Perm d.tree.saved.keys)
    (pos : 0 < limit) (bounded : limit ≤ maxRecoveryPage) (k : ℕ) (cursor : Option String)
    (valid : ∀ name ∈ cursor, validRecoveryName name = .ok ()) : ∃ pages, Pages c d body limit orders k cursor pages ∧
      pages.flatMap (·.entries) =
        ((List.above cursor d.tree.saved.keys).filter (hasRow d.tree.saved)).map (rowOf c d) ∧
      ∀ page ∈ pages, ∃ cursor, PageOf c d cursor limit page := by
  induction size : (List.above cursor d.tree.saved.keys).length using Nat.strong_induction_on
    generalizing k cursor with
  | _ size ih =>
    subst size
    obtain ⟨page, ran, spec⟩ := listRecoveryPage_eq_ok (c := c) named (lists k).1 (lists k).2 pos bounded valid
    have next := spec.next
    by_cases more : limit < (List.above cursor d.tree.saved.keys).length
    · rw [if_pos more] at next
      obtain ⟨last, ends⟩ : ∃ last, (pageNames d.tree.saved cursor limit).getLast? = some last := by
        rw [← Option.ne_none_iff_exists', ne_eq, List.getLast?_eq_none_iff, pageNames, List.take_eq_nil_iff, not_or]
        exact ⟨pos.ne', List.ne_nil_of_length_pos (by omega)⟩
      have lastValid : ∀ name ∈ some last, validRecoveryName name = .ok () := by
        rintro name ⟨⟩
        exact named _ (List.mem_above.mp (List.take_subset _ _ (List.mem_of_getLast? ends))).1
      obtain ⟨rest, others, rows, specs⟩ := ih _ (above_length_lt pos ends more) (k + 1) (some last) lastValid rfl
      refine ⟨page :: rest, .more ran (next.trans ends) others, ?_, List.forall_mem_cons.mpr ⟨⟨cursor, spec⟩, specs⟩⟩
      rw [List.flatMap_cons, rows, spec.entries, List.above_last (OrdMap.keys_sorted _) ends, pageNames,
        ← List.map_append, ← List.filter_append, List.take_append_drop]
    · rw [if_neg more] at next
      refine ⟨[page], .last ran next, ?_, by simpa using ⟨cursor, spec⟩⟩
      rw [List.flatMap_cons, List.flatMap_nil, List.append_nil, spec.entries, pageNames,
        List.take_of_length_le (not_lt.mp more)]

theorem PageOf.ids (spec : PageOf c d cursor limit page) :
    page.entries.map (·.id) = (pageNames d.tree.saved cursor limit).filter (hasRow d.tree.saved) := by
  rw [spec.entries, List.map_map]
  exact (List.map_congr_left (fun id _ => rowOf_id)).trans (List.map_id _)

/-- A directory over its limits blocks admission. -/
theorem blocked_of_large (large : maxRecoveryBytes < (saved.entries.map (fun e => e.2.size)).sum ∨
    maxRecoveryEntries < saved.size) : (wholeUsage saved).admissionBlocked = true := by
  unfold wholeUsage usageFromTotals saturatingAdd largest
  dsimp only
  rw [Bool.or_eq_true, decide_eq_true_eq, decide_eq_true_eq]
  unfold maxRecoveryBytes maxRecoveryEntries recoveryReserve at *
  omega

/-- Following the cursors lists the whole directory. -/
theorem listing_complete (c : Crypto) (d : Disk) (body : String) (limit : ℕ) (orders : ℕ → List String × List String)
    (named : ∀ name, d.tree.saved.get? name ≠ none → validRecoveryName name = .ok ())
    (lists : ∀ k, (orders k).1.Perm d.tree.saved.keys ∧ (orders k).2.Perm d.tree.saved.keys)
    (pos : 0 < limit) (bounded : limit ≤ maxRecoveryPage) :
    ∃ pages, Pages c d body limit orders 0 none pages ∧ ListedWhole c d.tree.saved limit pages := by
  obtain ⟨pages, followed, rows, specs⟩ := exists_pages (c := c)
    (fun name listed => named name (mem_keys_iff_ne_none.mp listed)) lists pos bounded 0 none (fun _ absent => by cases absent)
  rw [List.above_none] at rows
  have ids : pages.flatMap (fun page => page.entries.map (·.id)) = d.tree.saved.keys.filter (hasRow d.tree.saved) := by
    rw [← List.map_flatMap, rows, List.map_map]
    exact (List.map_congr_left (fun id _ => rowOf_id)).trans (List.map_id _)
  refine ⟨pages, followed, ⟨?_, fun name => ?_, fun page listed => ?_, fun fails => ?_, fun name blamed => ?_⟩⟩
  · rw [ids]
    exact (OrdMap.keys_nodup _).filter _
  · rw [ids, List.mem_filter, mem_keys_iff_ne_none, hasRow, Bool.or_eq_true, Bool.not_eq_true',
      ← Bool.not_eq_true (owned _ _), owned_eq_true]
  · obtain ⟨cursor, spec⟩ := specs page listed
    refine ⟨?_, ?_, spec.usage⟩
    · rw [spec.entries, List.length_map]
      exact (List.length_filter_le _ _).trans (List.length_take_le _ _)
    · rw [spec.ids]
      exact (((OrdMap.keys_sorted _).filter _).sublist (List.take_sublist _ _)).filter _
  · by_cases large : maxRecoveryBytes < (d.tree.saved.entries.map (fun e => e.2.size)).sum ∨
        maxRecoveryEntries < d.tree.saved.size
    · refine .inl (fun page listed => ?_)
      obtain ⟨cursor, spec⟩ := specs page listed
      rw [spec.usage]
      exact blocked_of_large large
    · rw [not_or, not_lt, not_lt] at large
      exact .inr (exists_blamed named large.1 large.2 fails)
  · obtain ⟨row, problem⟩ := blamed.problem
    have there : d.tree.saved.get? name ≠ none := by
      cases blamed <;> assumption
    have shown : rowOf c d name ∈ pages.flatMap (·.entries) := by
      rw [rows]
      exact List.mem_map_of_mem (List.mem_filter.mpr ⟨mem_keys_iff_ne_none.mpr there, row⟩)
    obtain ⟨page, listed, inside⟩ := List.mem_flatMap.mp shown
    obtain ⟨cursor, spec⟩ := specs page listed
    refine ⟨page, listed, ?_, rowOf c d name, inside, rowOf_id, problem⟩
    rw [spec.blocked, Bool.or_eq_true, List.any_eq_true]
    exact .inr ⟨_, inside, by rwa [Option.isSome_iff_ne_none]⟩

namespace ListingExample

def kept : RecoveryReceipt := ⟨"a", some ⟨"old", 0o644⟩, none, "v", .retained, none, none⟩

/-- A receipt with its version, and data that no receipt names. -/
def artifacts : OrdMap String Artifact :=
  (((∅ : OrdMap String Artifact).insert "v" (.file ⟨[104], 0o644⟩)).insert "v.json" (.ofReceipt kept)).insert "z"
    (.file ⟨[105], 0o600⟩)

def stamp : Stamp := ⟨1, 2, 3, 4, 5, 6⟩

def disk : Disk := ⟨⟨Live.empty, artifacts⟩, ⟨fun _ => stamp, fun _ => stamp⟩⟩

theorem artifacts_valid : ∀ name, disk.tree.saved.get? name ≠ none → validRecoveryName name = .ok () := by
  have each : ∀ name ∈ artifacts.keys, validRecoveryName name = .ok () := by decide
  exact fun name there => each name (mem_keys_iff_ne_none.mpr there)

/-- A directory that lists its names backwards, in pages of one. -/
theorem artifacts_listed : ∃ pages,
    Pages Crypto.transparent disk "alice" 1 (fun _ => (artifacts.keys.reverse, artifacts.keys)) 0 none pages ∧
      ListedWhole Crypto.transparent artifacts 1 pages :=
  listing_complete Crypto.transparent disk "alice" 1 (fun _ => (artifacts.keys.reverse, artifacts.keys)) artifacts_valid
    (fun _ => ⟨List.reverse_perm _, List.Perm.refl _⟩) (by decide) (by decide)

end ListingExample

end Clix.Pin
