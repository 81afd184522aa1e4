import Clix.ToMathlib.OrdMap

/-! # Rows gathered under keys, and stable sorts

Items that are folded into a map, each under its own key, meet only the items with the same key. So the row of a key can
be worked out alone, and to select rows is to select items. A stable sort keeps the order of what is selected.
-/

namespace OrdMap

variable {κ α β : Type} [LinearOrder κ]

/-- A step that works on one key only leaves under each key what the items of that key make. -/
theorem get?_foldl {key : β → κ} {step : OrdMap κ α → β → OrdMap κ α} {f : β → Option α → Option α}
    (own : ∀ m x, (step m x).get? (key x) = f x (m.get? (key x)))
    (other : ∀ m x k, key x ≠ k → (step m x).get? k = m.get? k) {k : κ} {p : β → Bool}
    (chosen : ∀ x, p x = true ↔ key x = k) (l : List β) (m : OrdMap κ α) :
    (l.foldl step m).get? k = (l.filter p).foldl (fun row x => f x row) (m.get? k) := by
  induction l generalizing m with
  | nil => rfl
  | cons x l ih =>
    rw [List.foldl_cons, ih, List.filter_cons]
    split_ifs with here
    · obtain rfl := (chosen x).mp here
      rw [own, List.foldl_cons]
    · rw [other m x k (fun same => here ((chosen x).mpr same))]

/-- A map with some of the entries of another one. -/
theorem entries_eq_filter {m n : OrdMap κ α} {p : κ × α → Bool}
    (same : ∀ k v, n.get? k = some v ↔ m.get? k = some v ∧ p (k, v) = true) : n.entries = m.entries.filter p := by
  have equal : n = ⟨m.entries.filter p, m.sorted.filter p⟩ := by
    refine ext_get? (fun k => Option.ext (fun v => ?_))
    rw [same, get?_eq_some_iff, get?_eq_some_iff, List.mem_filter]
  rw [equal]

end OrdMap

namespace List

/-- What each item keeps true of a row, all of them keep. -/
theorem foldl_holds {α β : Type} {P : β → Prop} {f : α → Option β → Option β} {l : List α}
    (keeps : ∀ x ∈ l, ∀ o, (∀ v, o = some v → P v) → ∀ v, f x o = some v → P v) {o : Option β}
    (start : ∀ v, o = some v → P v) {v : β} (made : l.foldl (fun o x => f x o) o = some v) : P v := by
  induction l generalizing o with
  | nil => exact start v made
  | cons x l ih =>
    obtain ⟨first, rest⟩ := forall_mem_cons.mp keeps
    exact ih rest (first o start) made

/-- Where each item replaces the row, the last one stays. -/
theorem foldl_last {α β : Type} (f : α → β) (l : List α) :
    l.foldl (fun _ x => some (f x)) none = l.getLast?.map f := by
  rcases l.eq_nil_or_concat with rfl | ⟨init, x, rfl⟩
  · rfl
  · rw [concat_eq_append, foldl_append, getLast?_concat]
    rfl

/-- At most one item can be selected by a test that only items of one key pass. -/
theorem filter_eq_toList {α κ : Type} {key : α → κ} {p : α → Bool} {l : List α} (distinct : (l.map key).Nodup)
    (one : ∀ a b, p a = true → p b = true → key a = key b) : l.filter p = (l.find? p).toList := by
  induction l with
  | nil => rfl
  | cons x l ih =>
    rw [map_cons, nodup_cons] at distinct
    rw [filter_cons, find?_cons]
    cases chosen : p x with
    | false => exact ih distinct.2
    | true =>
      have rest : l.filter p = [] := by
        refine filter_eq_nil_iff.mpr (fun y listed also => distinct.1 ?_)
        exact mem_map.mpr ⟨y, listed, one y x also chosen⟩
      simp [rest]

variable {α : Type} {r : α → α → Prop} [DecidableRel r] {p : α → Bool}

/-- What comes after an item in a sorted list is found after it among the selected ones too. -/
theorem filter_orderedInsert (trans : ∀ x y z, r x y → r y z → r x z) (a : α) {l : List α} (sorted : l.Pairwise r) :
    (l.orderedInsert r a).filter p = if p a = true then (l.filter p).orderedInsert r a else l.filter p := by
  induction l with
  | nil => by_cases chosen : p a = true <;> simp [chosen]
  | cons b l ih =>
    obtain ⟨first, rest⟩ := pairwise_cons.mp sorted
    by_cases before : r a b
    · rw [orderedInsert_cons_of_le r l before, filter_cons]
      split_ifs with chosen
      · -- everything selected from here on comes after the item
        cases kept : (b :: l).filter p with
        | nil => rfl
        | cons x others =>
          have member : x ∈ b :: l := (filter_sublist (p := p)).subset (kept ▸ mem_cons_self)
          have after : r a x := by
            rcases mem_cons.mp member with rfl | later
            · exact before
            · exact trans a b x before (first x later)
          rw [orderedInsert_cons_of_le r others after]
      · rfl
    · rw [orderedInsert_of_not_le r l before, filter_cons, filter_cons, ih rest]
      split_ifs with skipped chosen
      · rw [orderedInsert_of_not_le r _ before]
      · rfl
      · rfl
      · rfl

/-- A stable sort commutes with a selection. -/
theorem filter_insertionSort (trans : ∀ x y z, r x y → r y z → r x z) (total : ∀ x y, r x y ∨ r y x) (l : List α) :
    (l.insertionSort r).filter p = (l.filter p).insertionSort r := by
  have : Std.Total r := ⟨total⟩
  have : IsTrans α r := ⟨trans⟩
  induction l with
  | nil => rfl
  | cons a l ih =>
    rw [insertionSort_cons, filter_orderedInsert trans a (pairwise_insertionSort r l),
      ih, filter_cons]
    split_ifs with chosen
    · rw [insertionSort_cons]
    · rfl

end List
