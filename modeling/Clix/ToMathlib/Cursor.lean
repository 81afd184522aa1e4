import Clix.ToMathlib.OrdMap
import Mathlib.Data.List.Sort

/-! # Pages of an ordered set behind a cursor

A page holds the smallest elements above a cursor. They can be selected from a stream in any order with room
for one element more than the page, and the last element of a page with more behind it is the next cursor.
-/

namespace OrdMap

variable {κ α : Type} [LinearOrder κ]

/-- The first entries. -/
def take (m : OrdMap κ α) (n : ℕ) : OrdMap κ α := ⟨m.entries.take n, m.sorted.sublist (List.take_sublist _ _)⟩

/-- All entries but the last. -/
def popLast (m : OrdMap κ α) : OrdMap κ α :=
  ⟨m.entries.dropLast, m.sorted.sublist (List.dropLast_sublist _)⟩

/-- Insert into a set that has room for some number of elements; the largest has to leave. -/
def insertWithin (n : ℕ) (kept : OrdSet κ) (a : κ) : OrdSet κ :=
  if n < (kept.insert a ()).size then (kept.insert a ()).popLast else kept.insert a ()

theorem take_insertEntry_take (k : κ) (v : α) (l : List (κ × α)) (n : ℕ) :
    (insertEntry k v (l.take n)).take n = (insertEntry k v l).take n := by
  induction l generalizing n with
  | nil => rw [List.take_nil]
  | cons e rest ih =>
    cases n with
    | zero => rw [List.take_zero, List.take_zero]
    | succ n =>
      rw [List.take_succ_cons, insertEntry, insertEntry]
      split_ifs
      · rw [List.take_succ_cons, List.take_succ_cons]
        cases n with
        | zero => rfl
        | succ n => rw [List.take_succ_cons, List.take_succ_cons, List.take_take, min_eq_left (Nat.le_succ n)]
      · rw [List.take_succ_cons, List.take_succ_cons, ih]
      · rw [List.take_succ_cons, List.take_succ_cons, List.take_take, min_self]

theorem length_insertEntry_le (k : κ) (v : α) (l : List (κ × α)) : (insertEntry k v l).length ≤ l.length + 1 := by
  induction l with
  | nil => exact le_rfl
  | cons e rest ih =>
    rw [insertEntry]
    split_ifs <;> simp only [List.length_cons] <;> omega

theorem ext_entries {m n : OrdMap κ α} (same : m.entries = n.entries) : m = n := by
  cases m
  cases n
  cases same
  rfl

/-- Where a set keeps its smallest elements, inserting commutes with forgetting the others. -/
theorem insertWithin_take (m : OrdSet κ) (n : ℕ) (a : κ) :
    insertWithin n (m.take n) a = (m.insert a ()).take n := by
  have short : (insertEntry a () (m.entries.take n)).length ≤ n + 1 :=
    (length_insertEntry_le _ _ _).trans (Nat.succ_le_succ (List.length_take_le _ _))
  have kept := take_insertEntry_take a () m.entries n
  refine ext_entries ?_
  unfold insertWithin
  split_ifs with full
  · have length : (insertEntry a () (m.entries.take n)).length = n + 1 := le_antisymm short full
    change (insertEntry a () (m.entries.take n)).dropLast = (insertEntry a () m.entries).take n
    rw [List.dropLast_eq_take, length, Nat.add_sub_cancel, kept]
  · change (insertEntry a () (m.entries.take n)) = (insertEntry a () m.entries).take n
    rw [← kept]
    exact (List.take_of_length_le (not_lt.mp full)).symm

/-- The smallest elements of a stream. -/
theorem foldl_insertWithin (order : List κ) (n : ℕ) (m : OrdSet κ) :
    order.foldl (insertWithin n) (m.take n) = (m.extend order).take n := by
  induction order generalizing m with
  | nil => rfl
  | cons a rest ih =>
    rw [List.foldl_cons, insertWithin_take, ih]
    rfl

theorem keys_take (m : OrdMap κ α) (n : ℕ) : (m.take n).keys = m.keys.take n := List.map_take

theorem keys_popLast (m : OrdMap κ α) : m.popLast.keys = m.keys.dropLast := List.map_dropLast

/-- A set holds the elements of a stream in order. -/
theorem keys_extend_empty {order sorted : List κ} (ordered : sorted.Pairwise (· < ·))
    (same : ∀ a, a ∈ order ↔ a ∈ sorted) : ((∅ : OrdSet κ).extend order).keys = sorted := by
  refine List.Perm.eq_of_pairwise (fun a b _ _ left right => absurd left (not_lt.mpr right.le)) (keys_sorted _)
    ordered ((List.perm_ext_iff_of_nodup (keys_nodup _) (ordered.imp ne_of_lt)).mpr (fun a => ?_))
  rw [mem_keys_iff, contains_extend, contains_empty, Bool.false_or, List.contains_eq_mem, decide_eq_true_eq, same]

end OrdMap

namespace List

variable {κ : Type} [LinearOrder κ] {l : List κ} {cursor : Option κ} {n : ℕ}

/-- What is behind a cursor. -/
def above (cursor : Option κ) (l : List κ) : List κ := l.filter (fun a => cursor.all (fun cursor => cursor < a))

theorem above_none (l : List κ) : above none l = l := filter_eq_self.mpr (fun _ _ => rfl)

theorem mem_above {a : κ} : a ∈ above cursor l ↔ a ∈ l ∧ ∀ b ∈ cursor, b < a := by
  rw [above, mem_filter]
  cases cursor <;> simp

/-- Behind the last element of a page is what the page left. -/
theorem above_last (sorted : l.Pairwise (· < ·)) {last : κ}
    (ends : ((above cursor l).take n).getLast? = some last) : above (some last) l = (above cursor l).drop n := by
  have split := take_append_drop n (above cursor l)
  have ordered : (above cursor l).Pairwise (· < ·) := sorted.filter _
  rw [← split, pairwise_append] at ordered
  obtain ⟨front, -, apart⟩ := ordered
  obtain ⟨init, spelled⟩ := getLast?_eq_some_iff.mp ends
  have listed : last ∈ (above cursor l).take n := spelled ▸ mem_append_right _ mem_cons_self
  have below : ∀ a ∈ (above cursor l).take n, ¬last < a := by
    rw [spelled] at front ⊢
    intro a member
    rcases mem_append.mp member with inside | here
    · exact not_lt.mpr ((pairwise_append.mp front).2.2 a inside last mem_cons_self).le
    · exact mem_singleton.mp here ▸ lt_irrefl _
  have within : above (some last) l = (above cursor l).filter (fun a => last < a) := by
    rw [above, above, filter_filter]
    refine filter_congr (fun a _ => ?_)
    have deeper := mem_above.mp (take_subset _ _ listed)
    cases cursor with
    | none => simp
    | some b =>
      rw [Option.all_some, Option.all_some, ← Bool.decide_and]
      exact decide_eq_decide.mpr (iff_self_and.mpr (fun higher => (deeper.2 b rfl).trans higher))
  rw [within]
  conv_lhs => rw [← split]
  rw [filter_append, filter_eq_nil_iff.mpr (fun a member => by simpa using below a member), nil_append]
  exact filter_eq_self.mpr (fun a member => decide_eq_true (apart last listed a member))

end List
