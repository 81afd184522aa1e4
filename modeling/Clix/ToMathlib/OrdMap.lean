import Mathlib.Data.List.Sort
import Mathlib.Algebra.BigOperators.Group.List.Basic
import Mathlib.Algebra.GroupWithZero.Nat
import Mathlib.Order.Basic
import Mathlib.Tactic.Common

/-! # Finite maps in key order

`OrdMap κ α` is a finite map kept as a list of entries with strictly increasing keys, so iteration
is in key order and two maps with the same lookups are equal. The order invariant is a field, so
every map that can be built satisfies it. `OrdSet κ` is the map into the one-point type.
-/

/-- Entries in strictly increasing key order. -/
structure OrdMap (κ α : Type) [LinearOrder κ] where
  entries : List (κ × α)
  sorted : entries.Pairwise (fun a b => a.1 < b.1)

/-- Finite sets in key order. -/
abbrev OrdSet (κ : Type) [LinearOrder κ] := OrdMap κ Unit

namespace OrdMap

variable {κ α : Type} [LinearOrder κ]

/-- Insert into an ordered entry list, replacing the value of an equal key. -/
def insertEntry (k : κ) (v : α) : List (κ × α) → List (κ × α)
  | [] => [(k, v)]
  | e :: rest =>
    if k < e.1 then (k, v) :: e :: rest
    else if e.1 < k then e :: insertEntry k v rest
    else (k, v) :: rest

/-- The value stored first under a key. -/
def lookupEntry (k : κ) : List (κ × α) → Option α
  | [] => none
  | e :: rest => if k = e.1 then some e.2 else lookupEntry k rest

theorem fst_mem_insertEntry {k : κ} {v : α} {l : List (κ × α)} {e : κ × α}
    (member : e ∈ insertEntry k v l) : e = (k, v) ∨ e ∈ l := by
  induction l with
  | nil => exact .inl (List.mem_singleton.mp member)
  | cons head rest ih =>
    rw [insertEntry] at member
    split_ifs at member
    · rcases List.mem_cons.mp member with rfl | old
      · exact .inl rfl
      · exact .inr old
    · rcases List.mem_cons.mp member with rfl | later
      · exact .inr List.mem_cons_self
      · exact (ih later).imp_right (List.mem_cons_of_mem _)
    · rcases List.mem_cons.mp member with rfl | old
      · exact .inl rfl
      · exact .inr (List.mem_cons_of_mem _ old)

theorem sorted_insertEntry (k : κ) (v : α) {l : List (κ × α)}
    (sorted : l.Pairwise (fun a b => a.1 < b.1)) :
    (insertEntry k v l).Pairwise (fun a b => a.1 < b.1) := by
  induction l with
  | nil => exact List.pairwise_singleton _ _
  | cons head rest ih =>
    obtain ⟨first, tail⟩ := List.pairwise_cons.mp sorted
    rw [insertEntry]
    split_ifs with below above
    · refine List.pairwise_cons.mpr ⟨fun e member => ?_, sorted⟩
      rcases List.mem_cons.mp member with rfl | later
      · exact below
      · exact below.trans (first e later)
    · refine List.pairwise_cons.mpr ⟨fun e member => ?_, ih tail⟩
      rcases fst_mem_insertEntry member with rfl | later
      · exact above
      · exact first e later
    · have same : k = head.1 := le_antisymm (not_lt.mp above) (not_lt.mp below)
      refine List.pairwise_cons.mpr ⟨fun e member => ?_, tail⟩
      rw [same]
      exact first e member

def empty : OrdMap κ α := ⟨[], List.Pairwise.nil⟩

instance : EmptyCollection (OrdMap κ α) := ⟨empty⟩
instance : Inhabited (OrdMap κ α) := ⟨empty⟩

instance [DecidableEq α] : DecidableEq (OrdMap κ α) := fun m n =>
  decidable_of_iff (m.entries = n.entries) ⟨fun same => by cases m; cases n; cases same; rfl, congrArg _⟩

def get? (m : OrdMap κ α) (k : κ) : Option α := lookupEntry k m.entries

def insert (m : OrdMap κ α) (k : κ) (v : α) : OrdMap κ α :=
  ⟨insertEntry k v m.entries, sorted_insertEntry k v m.sorted⟩

def contains (m : OrdMap κ α) (k : κ) : Bool := (m.get? k).isSome

def keys (m : OrdMap κ α) : List κ := m.entries.map (·.1)

def values (m : OrdMap κ α) : List α := m.entries.map (·.2)

def size (m : OrdMap κ α) : ℕ := m.entries.length

/-- Change every value, keeping the keys. -/
def mapValues {β : Type} (f : κ → α → β) (m : OrdMap κ α) : OrdMap κ β :=
  ⟨m.entries.map (fun e => (e.1, f e.1 e.2)), List.pairwise_map.mpr m.sorted⟩

/-- Remove a key. -/
def erase (m : OrdMap κ α) (k : κ) : OrdMap κ α :=
  ⟨m.entries.filter (fun e => e.1 ≠ k), m.sorted.filter _⟩

/-- Keep the entries whose key satisfies a test. -/
def restrict (m : OrdMap κ α) (keep : κ → Bool) : OrdMap κ α :=
  ⟨m.entries.filter (fun e => keep e.1), m.sorted.filter _⟩

/-- Change the value under a key, when there is one. -/
def adjust (m : OrdMap κ α) (k : κ) (f : α → α) : OrdMap κ α :=
  match m.get? k with
  | none => m
  | some v => m.insert k (f v)

/-- Insert every key of a list into a set. -/
def extend (m : OrdSet κ) (ks : List κ) : OrdSet κ := ks.foldl (fun m k => m.insert k ()) m

theorem lookupEntry_insertEntry (k : κ) (v : α) (l : List (κ × α)) (k' : κ) :
    lookupEntry k' (insertEntry k v l) = if k' = k then some v else lookupEntry k' l := by
  induction l with
  | nil => simp [insertEntry, lookupEntry]
  | cons head rest ih =>
    rw [insertEntry]
    by_cases below : k < head.1
    · simp only [below, ↓reduceIte, lookupEntry]
    · by_cases above : head.1 < k
      · simp only [below, above, ↓reduceIte, lookupEntry, ih]
        by_cases same : k' = k
        · subst same
          simp [above.ne']
        · simp [same]
      · have equal : k = head.1 := le_antisymm (not_lt.mp above) (not_lt.mp below)
        simp only [below, above, ↓reduceIte, lookupEntry]
        by_cases same : k' = k
        · simp [same]
        · simp [same, ← equal]

theorem eq_empty {m : OrdMap κ α} (none : m.entries = []) : m = ∅ := by
  obtain ⟨entries, sorted⟩ := m
  cases none
  rfl

@[simp] theorem get?_empty (k : κ) : (∅ : OrdMap κ α).get? k = none := rfl

theorem get?_insert (m : OrdMap κ α) (k : κ) (v : α) (k' : κ) :
    (m.insert k v).get? k' = if k' = k then some v else m.get? k' :=
  lookupEntry_insertEntry k v m.entries k'

@[simp] theorem get?_insert_self (m : OrdMap κ α) (k : κ) (v : α) :
    (m.insert k v).get? k = some v := by rw [get?_insert, if_pos rfl]

theorem get?_insert_of_ne (m : OrdMap κ α) {k k' : κ} (v : α) (differs : k' ≠ k) :
    (m.insert k v).get? k' = m.get? k' := by rw [get?_insert, if_neg differs]

@[simp] theorem contains_empty (k : κ) : (∅ : OrdMap κ α).contains k = false := rfl

theorem contains_insert (m : OrdMap κ α) (k : κ) (v : α) (k' : κ) :
    (m.insert k v).contains k' = (decide (k' = k) || m.contains k') := by
  by_cases same : k' = k <;> simp [contains, get?_insert, same]

theorem contains_eq_true_iff {m : OrdMap κ α} {k : κ} :
    m.contains k = true ↔ ∃ v, m.get? k = some v := Option.isSome_iff_exists

private theorem lookupEntry_eq_some_iff {l : List (κ × α)}
    (sorted : l.Pairwise (fun a b => a.1 < b.1)) {k : κ} {v : α} :
    lookupEntry k l = some v ↔ (k, v) ∈ l := by
  induction l with
  | nil => simp [lookupEntry]
  | cons head rest ih =>
    obtain ⟨first, tail⟩ := List.pairwise_cons.mp sorted
    rw [lookupEntry]
    split_ifs with same
    · subst same
      constructor
      · intro found
        obtain rfl := Option.some.inj found
        exact List.mem_cons_self
      · intro member
        rcases List.mem_cons.mp member with equal | later
        · exact congrArg some (congrArg Prod.snd equal).symm
        · exact absurd (first _ later) (lt_irrefl _)
    · rw [ih tail]
      constructor
      · exact List.mem_cons_of_mem _
      · intro member
        rcases List.mem_cons.mp member with equal | later
        · exact absurd (congrArg Prod.fst equal) same
        · exact later

/-- Lookups are exactly membership of the entry. -/
theorem get?_eq_some_iff {m : OrdMap κ α} {k : κ} {v : α} :
    m.get? k = some v ↔ (k, v) ∈ m.entries := lookupEntry_eq_some_iff m.sorted

theorem mem_of_lookupEntry {k : κ} {v : α} {l : List (κ × α)} (found : lookupEntry k l = some v) : (k, v) ∈ l := by
  induction l with
  | nil => cases found
  | cons head rest ih =>
    rw [lookupEntry] at found
    split_ifs at found with same
    · cases found
      rw [same]
      exact List.mem_cons_self
    · exact List.mem_cons_of_mem _ (ih found)

theorem mem_values_iff {m : OrdMap κ α} {v : α} : v ∈ m.values ↔ ∃ k, m.get? k = some v := by
  constructor
  · intro member
    obtain ⟨⟨k, v'⟩, present, rfl⟩ := List.mem_map.mp member
    exact ⟨k, get?_eq_some_iff.mpr present⟩
  · rintro ⟨k, found⟩
    exact List.mem_map.mpr ⟨(k, v), get?_eq_some_iff.mp found, rfl⟩

theorem mem_keys_iff {m : OrdMap κ α} {k : κ} : k ∈ m.keys ↔ m.contains k = true := by
  rw [contains_eq_true_iff]
  constructor
  · intro member
    obtain ⟨⟨k', v⟩, present, rfl⟩ := List.mem_map.mp member
    exact ⟨v, get?_eq_some_iff.mpr present⟩
  · rintro ⟨v, found⟩
    exact List.mem_map.mpr ⟨(k, v), get?_eq_some_iff.mp found, rfl⟩

theorem get?_restrict (m : OrdMap κ α) (keep : κ → Bool) (k : κ) :
    (m.restrict keep).get? k = if keep k then m.get? k else none := by
  refine Option.ext (fun v => ?_)
  rw [get?_eq_some_iff, restrict, List.mem_filter]
  split_ifs with kept
  · rw [get?_eq_some_iff]
    exact and_iff_left kept
  · exact ⟨fun both => absurd both.2 kept, False.elim⟩

theorem get?_erase (m : OrdMap κ α) (k k' : κ) :
    (m.erase k).get? k' = if k' = k then none else m.get? k' := by
  have same : m.erase k = m.restrict (fun k' => decide (k' ≠ k)) := rfl
  rw [same, get?_restrict]
  by_cases equal : k' = k <;> simp [equal]

theorem keys_sorted (m : OrdMap κ α) : m.keys.Pairwise (· < ·) := List.pairwise_map.mpr m.sorted

theorem keys_nodup (m : OrdMap κ α) : m.keys.Nodup := m.keys_sorted.imp ne_of_lt

@[simp] theorem get?_mapValues {β : Type} (f : κ → α → β) (m : OrdMap κ α) (k : κ) :
    (m.mapValues f).get? k = (m.get? k).map (f k) := by
  simp only [get?, mapValues]
  induction m.entries with
  | nil => rfl
  | cons head rest ih =>
    rw [List.map_cons, lookupEntry, lookupEntry]
    split_ifs with same
    · subst same
      rfl
    · exact ih

@[simp] theorem keys_mapValues {β : Type} (f : κ → α → β) (m : OrdMap κ α) :
    (m.mapValues f).keys = m.keys := by
  simp [keys, mapValues, Function.comp_def]

theorem adjust_of_none {m : OrdMap κ α} {k : κ} (f : α → α) (absent : m.get? k = none) :
    m.adjust k f = m := by simp only [adjust, absent]

theorem adjust_of_some {m : OrdMap κ α} {k : κ} {v : α} (f : α → α) (found : m.get? k = some v) :
    m.adjust k f = m.insert k (f v) := by simp only [adjust, found]

theorem get?_adjust_self (m : OrdMap κ α) (k : κ) (f : α → α) : (m.adjust k f).get? k = (m.get? k).map f := by
  cases found : m.get? k with
  | none => rw [adjust_of_none f found, found, Option.map_none]
  | some v => rw [adjust_of_some f found, get?_insert_self, Option.map_some]

theorem get?_adjust_of_ne (m : OrdMap κ α) {k k' : κ} (f : α → α) (differs : k' ≠ k) :
    (m.adjust k f).get? k' = m.get? k' := by
  cases found : m.get? k with
  | none => rw [adjust_of_none f found]
  | some v => rw [adjust_of_some f found, get?_insert_of_ne m _ differs]

theorem contains_extend (m : OrdSet κ) (ks : List κ) (k : κ) :
    (m.extend ks).contains k = (m.contains k || ks.contains k) := by
  unfold extend
  induction ks generalizing m with
  | nil => simp
  | cons head rest ih =>
    rw [List.foldl_cons, ih, contains_insert]
    by_cases same : k = head <;> simp [same]

/-- Maps with the same lookups are equal. -/
@[ext] theorem ext_get? {m n : OrdMap κ α} (same : ∀ k, m.get? k = n.get? k) : m = n := by
  have perm : m.entries.Perm n.entries := by
    refine (List.perm_ext_iff_of_nodup ?_ ?_).mpr ?_
    · exact m.sorted.imp (fun below equal => absurd (congrArg Prod.fst equal) below.ne)
    · exact n.sorted.imp (fun below equal => absurd (congrArg Prod.fst equal) below.ne)
    · rintro ⟨k, v⟩
      rw [← get?_eq_some_iff, ← get?_eq_some_iff, same]
  have equal : m.entries = n.entries :=
    perm.eq_of_pairwise (fun a b _ _ left right => absurd left (not_lt.mpr right.le))
      m.sorted n.sorted
  cases m
  cases n
  cases equal
  rfl

private theorem perm_insertEntry_of_none {k : κ} {l : List (κ × α)} (v : α)
    (absent : lookupEntry k l = none) : (insertEntry k v l).Perm ((k, v) :: l) := by
  induction l with
  | nil => exact .refl _
  | cons head rest ih =>
    rw [lookupEntry] at absent
    split_ifs at absent with same
    rw [insertEntry]
    split_ifs with below above
    · exact .refl _
    · exact ((ih absent).cons head).trans (.swap _ _ _)
    · exact absurd (le_antisymm (not_lt.mp above) (not_lt.mp below)) same

private theorem perm_insertEntry_of_some {k : κ} {l : List (κ × α)} {old : α} (v : α)
    (sorted : l.Pairwise (fun a b => a.1 < b.1)) (found : lookupEntry k l = some old) :
    ∃ rest, l.Perm ((k, old) :: rest) ∧ (insertEntry k v l).Perm ((k, v) :: rest) := by
  induction l with
  | nil => exact absurd found (by simp [lookupEntry])
  | cons head rest ih =>
    obtain ⟨first, tail⟩ := List.pairwise_cons.mp sorted
    rw [lookupEntry] at found
    split_ifs at found with same
    · refine ⟨rest, ?_, ?_⟩
      · rw [same, ← Option.some.inj found]
      · rw [insertEntry, if_neg (same ▸ lt_irrefl _), if_neg (same ▸ lt_irrefl _)]
    · have member := (lookupEntry_eq_some_iff tail).mp found
      have above : head.1 < k := first _ member
      obtain ⟨others, before, after⟩ := ih tail found
      refine ⟨head :: others, (before.cons head).trans (.swap _ _ _), ?_⟩
      rw [insertEntry, if_neg (not_lt.mpr above.le), if_pos above]
      exact (after.cons head).trans (.swap _ _ _)

/-- Inserting a new key adds exactly its entry. -/
theorem perm_insert_of_none {m : OrdMap κ α} {k : κ} (v : α) (absent : m.get? k = none) :
    (m.insert k v).entries.Perm ((k, v) :: m.entries) := perm_insertEntry_of_none v absent

/-- Inserting a present key exchanges exactly its entry. -/
theorem perm_insert_of_some {m : OrdMap κ α} {k : κ} {old : α} (v : α)
    (found : m.get? k = some old) :
    ∃ rest, m.entries.Perm ((k, old) :: rest) ∧ (m.insert k v).entries.Perm ((k, v) :: rest) :=
  perm_insertEntry_of_some v m.sorted found

theorem keys_insert_of_some {m : OrdMap κ α} {k : κ} {old : α} (v : α) (found : m.get? k = some old) :
    (m.insert k v).keys = m.keys := by
  obtain ⟨rest, before, after⟩ := perm_insert_of_some v found
  have perm : (m.insert k v).keys.Perm m.keys := by
    have others : ((k, v) :: rest).map Prod.fst = ((k, old) :: rest).map Prod.fst := rfl
    exact (after.map Prod.fst).trans (others ▸ (before.map Prod.fst).symm)
  exact perm.eq_of_pairwise (fun a b _ _ left right => absurd left (not_lt.mpr right.le)) (keys_sorted _)
    (keys_sorted _)

@[simp] theorem keys_adjust (m : OrdMap κ α) (k : κ) (f : α → α) : (m.adjust k f).keys = m.keys := by
  cases found : m.get? k with
  | none => rw [adjust_of_none f found]
  | some v => rw [adjust_of_some f found, keys_insert_of_some _ found]

/-- The values are the lookups of any list of distinct keys that holds all of the map's. -/
theorem values_perm {m : OrdMap κ α} {ks : List κ} (nodup : ks.Nodup) (covers : ∀ k ∈ m.keys, k ∈ ks) :
    m.values.Perm (ks.filterMap m.get?) := by
  have own : m.values = m.keys.filterMap m.get? := by
    rw [keys, List.filterMap_map, values, ← List.filterMap_eq_map]
    exact List.filterMap_congr (fun e member => (get?_eq_some_iff.mpr member).symm)
  have kept : (ks.filter m.contains).filterMap m.get? = ks.filterMap m.get? := by
    rw [List.filterMap_filter]
    refine List.filterMap_congr (fun k _ => ?_)
    cases found : m.get? k <;> simp [contains, found]
  rw [own, ← kept]
  refine List.Perm.filterMap _ ((List.perm_ext_iff_of_nodup m.keys_nodup (nodup.filter _)).mpr (fun k => ?_))
  rw [List.mem_filter, mem_keys_iff]
  exact ⟨fun there => ⟨covers k (mem_keys_iff.mpr there), there⟩, fun both => both.2⟩

theorem sum_insert_of_none {m : OrdMap κ α} {k : κ} (w : κ × α → ℕ) (v : α)
    (absent : m.get? k = none) :
    ((m.insert k v).entries.map w).sum = (m.entries.map w).sum + w (k, v) := by
  rw [((perm_insert_of_none v absent).map w).sum_eq, List.map_cons, List.sum_cons, add_comm]

theorem sum_insert_of_some {m : OrdMap κ α} {k : κ} {old : α} (w : κ × α → ℕ) (v : α)
    (found : m.get? k = some old) :
    ((m.insert k v).entries.map w).sum + w (k, old) = (m.entries.map w).sum + w (k, v) := by
  obtain ⟨rest, before, after⟩ := perm_insert_of_some v found
  rw [(after.map w).sum_eq, (before.map w).sum_eq]
  simp only [List.map_cons, List.sum_cons]
  omega

theorem size_insert_of_none {m : OrdMap κ α} {k : κ} (v : α) (absent : m.get? k = none) :
    (m.insert k v).size = m.size + 1 := by
  simpa [size] using (perm_insert_of_none v absent).length_eq

theorem size_insert_of_some {m : OrdMap κ α} {k : κ} {old : α} (v : α)
    (found : m.get? k = some old) : (m.insert k v).size = m.size := by
  obtain ⟨rest, before, after⟩ := perm_insert_of_some v found
  rw [size, size, before.length_eq, after.length_eq]
  rfl

/-- A key that a set holds already is no new one. -/
theorem insert_of_contains {m : OrdSet κ} {k : κ} (there : m.contains k = true) : m.insert k () = m := by
  refine ext_get? (fun k' => ?_)
  rw [get?_insert]
  split_ifs with same
  · obtain ⟨⟨⟩, found⟩ := contains_eq_true_iff.mp there
    rw [same, found]
  · rfl

end OrdMap
