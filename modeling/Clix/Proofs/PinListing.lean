import Clix.Model.PinOwner
import Clix.Proofs.PinRecovery

/-! # One page of the recovery directory

A page holds the smallest names behind its cursor, however the directory lists them: every receipt among them
has a row, and so has each data file that no receipt names. The totals are those of the whole directory.
-/

namespace Clix.Pin

open Except

variable {c : Crypto} {d : Disk} {saved : OrdMap String Artifact} {cursor : Option String} {limit : ℕ}
  {names linked : OrdSet String} {id name body : String} {first second order : List String}
  {page : RecoveryList} {view : RecoveryInspection} {r : RecoveryReceipt}

/-! ## The stream -/

def largest : ℕ := 2 ^ 64 - 1

theorem foldl_saturatingAdd (sizes : List ℕ) (start : ℕ) (small : start ≤ largest) :
    sizes.foldl saturatingAdd start = min (start + sizes.sum) largest := by
  induction sizes generalizing start with
  | nil => exact (min_eq_left small).symm
  | cons size rest ih =>
    rw [List.foldl_cons, ih (saturatingAdd start size) (min_le_right _ _), List.sum_cons, saturatingAdd]
    unfold largest
    omega

def sizeOf (saved : OrdMap String Artifact) (name : String) : ℕ := (saved.get? name).elim 0 (·.size)

/-- What a listing keeps after some names. -/
theorem foldlM_visit (named : ∀ name ∈ order, validRecoveryName name = .ok ()) (s : Selection) :
    order.foldlM (Selection.visit saved cursor limit) s = .ok
      ⟨(order.map (sizeOf saved)).foldl saturatingAdd s.bytes,
        (order.map (fun _ => 1)).foldl saturatingAdd s.count,
        (List.above cursor order).foldl (OrdMap.insertWithin (limit + 1)) s.names⟩ := by
  induction order generalizing s with
  | nil => rfl
  | cons name rest ih =>
    obtain ⟨valid, others⟩ := List.forall_mem_cons.mp named
    rw [List.foldlM_cons, Selection.visit, valid, ok_bind, pure_eq_ok, ok_bind, ih others, List.above,
      List.above, List.filter_cons]
    split_ifs <;> rfl

/-- The usage of a whole directory. -/
def wholeUsage (saved : OrdMap String Artifact) : RecoveryUsage :=
  usageFromTotals (min (saved.entries.map (fun e => e.2.size)).sum largest) (min saved.size largest)

theorem map_sizeOf_keys (saved : OrdMap String Artifact) :
    saved.keys.map (sizeOf saved) = saved.entries.map (fun e => e.2.size) := by
  rw [OrdMap.keys, List.map_map]
  refine List.map_congr_left (fun e listed => ?_)
  have found : saved.get? e.1 = some e.2 := OrdMap.get?_eq_some_iff.mpr listed
  simp only [Function.comp_apply, sizeOf, found, Option.elim_some]

/-- The selection of a whole directory, however it lists its names. -/
theorem selection (cursor : Option String) (limit : ℕ) (lists : first.Perm saved.keys) (named : ∀ name ∈ saved.keys, validRecoveryName name = .ok ()) :
    ∃ s, first.foldlM (Selection.visit saved cursor limit) ⟨0, 0, ∅⟩ = .ok s ∧
      usageFromTotals s.bytes s.count = wholeUsage saved ∧
      s.names.keys = (List.above cursor saved.keys).take (limit + 1) := by
  refine ⟨_, foldlM_visit (fun name listed => named name (lists.mem_iff.mp listed)) _, ?_, ?_⟩
  · dsimp only
    rw [foldl_saturatingAdd _ _ (Nat.zero_le _), foldl_saturatingAdd _ _ (Nat.zero_le _), wholeUsage,
      (lists.map (sizeOf saved)).sum_eq, map_sizeOf_keys, Nat.zero_add, Nat.zero_add]
    simp [lists.length_eq, OrdMap.keys, OrdMap.size]
  · have start : (∅ : OrdSet String) = (∅ : OrdSet String).take (limit + 1) := rfl
    dsimp only
    rw [start, OrdMap.foldl_insertWithin, OrdMap.keys_take]
    congr 1
    exact OrdMap.keys_extend_empty ((OrdMap.keys_sorted saved).filter _) (fun a => (lists.filter _).mem_iff)

/-! ## Ownership -/

/-- Whether a well-formed receipt names some data. -/
def owned (saved : OrdMap String Artifact) (name : String) : Bool :=
  saved.keys.any (fun id => isReceiptName id && ownedBy saved name id)

theorem ownedBy_eq_true : ownedBy saved name id = true ↔
    ∃ r, readAndParse saved id = .ok r ∧ r.version = name := by
  rw [ownedBy, readAndParse]
  cases readReceipt saved id with
  | error e => simp
  | ok r =>
    rw [ok_bind]
    dsimp only
    cases parseReceipt r <;> simp

/-- The links that some receipts add. -/
theorem foldlM_linkOwner (saved : OrdMap String Artifact) (names : OrdSet String)
    (named : ∀ id ∈ order, validRecoveryName id = .ok ()) (linked : OrdSet String) :
    ∃ all, order.foldlM (linkOwner saved names) linked = .ok all ∧ ∀ name, all.contains name = true ↔
      linked.contains name = true ∨ (names.contains name = true ∧
        ∃ id ∈ order, isReceiptName id = true ∧ ownedBy saved name id = true) := by
  simp only [ownedBy_eq_true]
  induction order generalizing linked with
  | nil => exact ⟨linked, rfl, fun name => by simp⟩
  | cons id rest ih =>
    obtain ⟨valid, others⟩ := List.forall_mem_cons.mp named
    have skip (unread : ∀ r, isReceiptName id = true → readAndParse saved id = .ok r → names.contains r.version = false)
        (step : linkOwner saved names linked id = .ok linked) : ∃ all,
        (id :: rest).foldlM (linkOwner saved names) linked = .ok all ∧ ∀ name, all.contains name = true ↔
          linked.contains name = true ∨ (names.contains name = true ∧
            ∃ i ∈ id :: rest, isReceiptName i = true ∧ ∃ r, readAndParse saved i = .ok r ∧ r.version = name) := by
      obtain ⟨all, run, spec⟩ := ih others linked
      refine ⟨all, by rw [List.foldlM_cons, step, ok_bind, run], fun name => (spec name).trans ?_⟩
      refine or_congr_right (and_congr_right (fun listed => ?_))
      rw [List.exists_mem_cons_iff]
      refine (or_iff_right ?_).symm
      rintro ⟨json, r, parsed, rfl⟩
      rw [unread r json parsed] at listed
      exact absurd listed (by simp)
    by_cases json : isReceiptName id = true
    · cases parsed : readAndParse saved id with
      | error e =>
        exact skip (fun r _ read => by rw [parsed] at read; cases read)
          (by rw [linkOwner, valid, ok_bind, if_pos json, parsed]; rfl)
      | ok r =>
        by_cases here : names.contains r.version = true
        · obtain ⟨all, run, spec⟩ := ih others (linked.insert r.version ())
          have step : linkOwner saved names linked id = .ok (linked.insert r.version ()) := by
            rw [linkOwner, valid, ok_bind, if_pos json, parsed]
            dsimp only
            rw [if_pos here]
            rfl
          refine ⟨all, by rw [List.foldlM_cons, step, ok_bind, run], fun name => (spec name).trans ?_⟩
          rw [OrdMap.contains_insert, List.exists_mem_cons_iff, parsed]
          by_cases same : name = r.version
          · subst same
            simp [here, json]
          · simp [same, Ne.symm same]
        · exact skip (fun r' _ read => by rw [parsed] at read; cases read; simpa using here)
            (by rw [linkOwner, valid, ok_bind, if_pos json, parsed]; dsimp only; rw [if_neg here]; rfl)
    · exact skip (fun r isJson => absurd isJson json)
        (by rw [linkOwner, valid, ok_bind, if_neg json]; rfl)

/-! ## The page -/

/-- Whether a name has a row. -/
def hasRow (saved : OrdMap String Artifact) (name : String) : Bool := isReceiptName name || !owned saved name

/-- The row of a name. -/
def rowOf (c : Crypto) (d : Disk) (id : String) : RecoveryEntry :=
  if isReceiptName id = true then recheckLive c d (receiptEntry c d id) else unreferencedEntry id

theorem recheckLive_id (entry : RecoveryEntry) : (recheckLive c d entry).id = entry.id := by
  unfold recheckLive
  split
  · rfl
  · split_ifs
    · rfl
    · split <;> rfl

theorem receiptEntry_id : (receiptEntry c d id).id = id := by
  unfold receiptEntry
  split
  · split_ifs <;> rfl
  · rfl

theorem rowOf_id : (rowOf c d id).id = id := by
  unfold rowOf
  split_ifs
  · rw [recheckLive_id, receiptEntry_id]
  · rfl

/-- The names on a page. -/
def pageNames (saved : OrdMap String Artifact) (cursor : Option String) (limit : ℕ) : List String :=
  (List.above cursor saved.keys).take limit

/-- A page of a directory whose names are valid, however the directory lists them. -/
structure PageOf (c : Crypto) (d : Disk) (cursor : Option String) (limit : ℕ) (page : RecoveryList) : Prop where
  entries : page.entries = ((pageNames d.tree.saved cursor limit).filter (hasRow d.tree.saved)).map (rowOf c d)
  usage : page.usage = wholeUsage d.tree.saved
  blocked : page.blocked = (page.usage.admissionBlocked || page.entries.any (·.problem.isSome))
  next : page.nextCursor = if limit < (List.above cursor d.tree.saved.keys).length
    then (pageNames d.tree.saved cursor limit).getLast? else none

/-- Rows in the order of their names. -/
theorem sorted_rows {names : List String} (sorted : names.Pairwise (· < ·)) (keep : String → Bool) :
    ((names.filter isReceiptName).map (fun id => recheckLive c d (receiptEntry c d id)) ++
      (names.filter (fun id => !isReceiptName id && keep id)).map unreferencedEntry).insertionSort
        (fun a b => a.id ≤ b.id) = (names.filter (fun id => isReceiptName id || keep id)).map (rowOf c d) := by
  have receipts : (names.filter isReceiptName).map (fun id => recheckLive c d (receiptEntry c d id)) =
      (names.filter isReceiptName).map (rowOf c d) :=
    List.map_congr_left (fun id listed => by rw [rowOf, if_pos (List.mem_filter.mp listed).2])
  have data : (names.filter (fun id => !isReceiptName id && keep id)).map unreferencedEntry =
      (names.filter (fun id => !isReceiptName id && keep id)).map (rowOf c d) :=
    List.map_congr_left (fun id listed => by
      have plain := (List.mem_filter.mp listed).2
      rw [Bool.and_eq_true, Bool.not_eq_true'] at plain
      rw [rowOf, if_neg (by rw [plain.1]; simp)])
  have together := List.filter_append_perm isReceiptName (names.filter (fun id => isReceiptName id || keep id))
  rw [List.filter_filter, List.filter_filter] at together
  have perm : (names.filter isReceiptName ++ names.filter (fun id => !isReceiptName id && keep id)).Perm
      (names.filter (fun id => isReceiptName id || keep id)) := by
    refine List.Perm.trans (List.Perm.of_eq (congrArg₂ (· ++ ·) ?_ ?_)) together <;>
      refine List.filter_congr (fun id _ => ?_) <;> cases isReceiptName id <;> simp
  rw [receipts, data, ← List.map_append]
  refine List.Perm.eq_of_pairwise (fun a b inA inB (left : a.id ≤ b.id) (right : b.id ≤ a.id) => ?_)
    (List.pairwise_insertionSort _ _) ?_ ((List.perm_insertionSort _ _).trans (perm.map _))
  · rw [List.mem_insertionSort] at inA
    obtain ⟨x, -, rfl⟩ := List.mem_map.mp inA
    obtain ⟨y, -, rfl⟩ := List.mem_map.mp inB
    rw [rowOf_id, rowOf_id] at left right
    rw [le_antisymm left right]
  · refine List.pairwise_map.mpr ((sorted.filter _).imp (fun {a b} below => ?_))
    rw [rowOf_id, rowOf_id]
    exact below.le

/-- The names that stay when one above the page has left. -/
theorem kept_names {names : OrdSet String} (kept : names.keys = (List.above cursor saved.keys).take (limit + 1)) :
    decide (limit < names.size) = decide (limit < (List.above cursor saved.keys).length) ∧
      (if decide (limit < names.size) = true then names.popLast else names).keys = pageNames saved cursor limit := by
  have size : names.size = min (limit + 1) (List.above cursor saved.keys).length := by
    rw [OrdMap.size, ← List.length_map (·.1), ← List.length_take, ← kept]
    rfl
  constructor
  · rw [size]
    exact decide_eq_decide.mpr (by omega)
  · rw [pageNames]
    simp only [decide_eq_true_eq]
    split_ifs with full
    · rw [OrdMap.keys_popLast, kept, List.dropLast_eq_take, List.length_take, ← size, List.take_take]
      congr 1
      omega
    · rw [kept, List.take_of_length_le (by omega), List.take_of_length_le (by omega)]

theorem listRecoveryPage_eq_ok (named : ∀ name ∈ d.tree.saved.keys, validRecoveryName name = .ok ())
    (lists : first.Perm d.tree.saved.keys) (again : second.Perm d.tree.saved.keys)
    (pos : 0 < limit) (bounded : limit ≤ maxRecoveryPage) (valid : ∀ name ∈ cursor, validRecoveryName name = .ok ()) :
    ∃ page, listRecoveryPage c d body first second cursor limit = .ok page ∧ PageOf c d cursor limit page := by
  obtain ⟨s, streamed, usage, kept⟩ := selection cursor limit lists named
  have cursorValid : cursor.forM validRecoveryName = .ok () := by
    cases cursor with
    | none => rfl
    | some name => exact valid name rfl
  obtain ⟨more, spelled⟩ := kept_names kept
  obtain ⟨linked, links, spec⟩ := foldlM_linkOwner d.tree.saved
    (if decide (limit < s.names.size) = true then s.names.popLast else s.names)
    (fun id listed => named id (again.mem_iff.mp listed)) ∅
  unfold listRecoveryPage
  rw [refuseIf_neg (by omega), ok_bind, cursorValid, ok_bind, streamed, ok_bind]
  dsimp only
  have sorted : (pageNames d.tree.saved cursor limit).Pairwise (· < ·) :=
    ((OrdMap.keys_sorted d.tree.saved).filter _).sublist (List.take_sublist _ _)
  rw [links, ok_bind, spelled, sorted_rows sorted (fun id => !linked.contains id)]
  refine ⟨_, rfl, ⟨?_, usage, by dsimp only, ?_⟩⟩
  · dsimp only
    congr 1
    refine List.filter_congr (fun id listed => ?_)
    rw [hasRow]
    congr 2
    refine Bool.eq_iff_iff.mpr ((spec id).trans ?_)
    have there : (if decide (limit < s.names.size) = true then s.names.popLast else s.names).contains id = true :=
      OrdMap.mem_keys_iff.mp (spelled ▸ listed)
    rw [OrdMap.contains_empty, owned, List.any_eq_true]
    simp only [Bool.false_eq_true, false_or, there, true_and, again.mem_iff, Bool.and_eq_true]
  · dsimp only
    rw [more]
    simp only [decide_eq_true_eq]

end Clix.Pin
