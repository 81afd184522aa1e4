import Mathlib.Data.List.Nodup
import Mathlib.Algebra.BigOperators.Group.List.Basic
import Mathlib.Algebra.GroupWithZero.Nat
import Mathlib.Algebra.Order.BigOperators.Group.List
import Mathlib.Algebra.Order.Group.Nat
import Mathlib.Tactic.Common

/-! # Changing the first match of a list

Tables kept as lists are read by `find?` and edited in place at the row that `find?` returns.
`modifyFirst p f` applies `f` to that row and to no other; `put` replaces it, or appends when no
row matches. The lemmas say what both do to lookups, projections, membership and sums.
-/

namespace List

variable {α β κ : Type*}

/-- Apply `f` to the first element satisfying `p`. -/
def modifyFirst (p : α → Bool) (f : α → α) : List α → List α
  | [] => []
  | a :: rest => if p a then f a :: rest else a :: modifyFirst p f rest

/-- Replace the first element satisfying `p`, or append when there is none. -/
def put (p : α → Bool) (a : α) (l : List α) : List α :=
  if l.any p then l.modifyFirst p (fun _ => a) else l ++ [a]

@[simp] theorem modifyFirst_nil (p : α → Bool) (f : α → α) : modifyFirst p f [] = [] := rfl

theorem modifyFirst_cons (p : α → Bool) (f : α → α) (a : α) (rest : List α) :
    modifyFirst p f (a :: rest) = if p a then f a :: rest else a :: modifyFirst p f rest := rfl

@[simp] theorem length_modifyFirst (p : α → Bool) (f : α → α) (l : List α) :
    (l.modifyFirst p f).length = l.length := by
  induction l with
  | nil => rfl
  | cons a rest ih => rw [modifyFirst_cons]; split <;> simp [ih]

/-- The edited row is what the same lookup finds, when the edit keeps the row matching. -/
theorem find?_modifyFirst (p : α → Bool) (f : α → α) (keeps : ∀ a, p a → p (f a)) (l : List α) :
    (l.modifyFirst p f).find? p = (l.find? p).map f := by
  induction l with
  | nil => rfl
  | cons a rest ih =>
    by_cases matched : p a
    · simp [modifyFirst_cons, matched, keeps a matched]
    · simp [modifyFirst_cons, matched, ih]

/-- A lookup that can match neither the old row nor the edited one is unaffected. -/
theorem find?_modifyFirst_of_ne (p q : α → Bool) (f : α → α) (l : List α)
    (before : ∀ a, p a → q a = false) (after : ∀ a, p a → q (f a) = false) :
    (l.modifyFirst p f).find? q = l.find? q := by
  induction l with
  | nil => rfl
  | cons a rest ih =>
    by_cases matched : p a
    · simp [modifyFirst_cons, matched, before a matched, after a matched]
    · simp only [modifyFirst_cons, matched, Bool.false_eq_true, ↓reduceIte, find?_cons, ih]

/-- It is enough that the found row does not match, before and after. -/
theorem find?_modifyFirst_of_found {p q : α → Bool} {f : α → α} {l : List α} {a : α} (found : l.find? p = some a)
    (before : q a = false) (after : q (f a) = false) : (l.modifyFirst p f).find? q = l.find? q := by
  induction l with
  | nil => rfl
  | cons b rest ih =>
    by_cases matched : p b
    · obtain rfl : b = a := by simpa [matched] using found
      simp [modifyFirst_cons, matched, before, after]
    · have tail := ih (by simpa [matched] using found)
      simp only [modifyFirst_cons, matched, Bool.false_eq_true, ↓reduceIte, find?_cons, tail]

/-- A narrower lookup that the edited row matches finds it. -/
theorem find?_modifyFirst_narrow {p q : α → Bool} {f : α → α} {l : List α} {a : α} (found : l.find? p = some a)
    (narrow : ∀ b, q b → p b) (after : q (f a)) : (l.modifyFirst p f).find? q = some (f a) := by
  induction l with
  | nil => cases found
  | cons b rest ih =>
    by_cases matched : p b
    · obtain rfl : b = a := by simpa [matched] using found
      simp [modifyFirst_cons, matched, after]
    · have other : q b = false := by
        by_contra same
        exact matched (narrow b (by simpa using same))
      have tail := ih (by simpa [matched] using found)
      simp only [modifyFirst_cons, matched, Bool.false_eq_true, ↓reduceIte, find?_cons, other, tail]

theorem find?_eraseP_of_ne (p q : α → Bool) (l : List α) (before : ∀ a, p a → q a = false) :
    (l.eraseP p).find? q = l.find? q := by
  induction l with
  | nil => rfl
  | cons a rest ih =>
    by_cases matched : p a
    · simp [matched, before a matched]
    · simp only [eraseP_cons, matched, cond_false, find?_cons, ih]

/-- Erasing the element a lookup finds takes it out from between the others. -/
theorem eraseP_of_find? {p : α → Bool} {l : List α} {a : α} (found : l.find? p = some a) :
    ∃ before after, l = before ++ a :: after ∧ l.eraseP p = before ++ after := by
  obtain ⟨matched, before, after, split, none⟩ := find?_eq_some_iff_append.mp found
  refine ⟨before, after, split, ?_⟩
  rw [split, eraseP_append_right _ (fun b member => by simpa using none b member), eraseP_cons_of_pos matched]

theorem mem_modifyFirst {p : α → Bool} {f : α → α} {l : List α} {a : α}
    (member : a ∈ l.modifyFirst p f) : a ∈ l ∨ ∃ b ∈ l, p b ∧ a = f b := by
  induction l with
  | nil => exact absurd member (not_mem_nil)
  | cons b rest ih =>
    rw [modifyFirst_cons] at member
    split at member
    · next matched =>
      rcases mem_cons.mp member with rfl | tail
      · exact .inr ⟨b, mem_cons_self, matched, rfl⟩
      · exact .inl (mem_cons_of_mem _ tail)
    · rcases mem_cons.mp member with rfl | tail
      · exact .inl mem_cons_self
      · rcases ih tail with old | ⟨c, present, matched, rfl⟩
        · exact .inl (mem_cons_of_mem _ old)
        · exact .inr ⟨c, mem_cons_of_mem _ present, matched, rfl⟩

/-- An element stays as it is, or is the one that was edited. -/
theorem mem_modifyFirst_or {p : α → Bool} {f : α → α} {l : List α} {a : α} (member : a ∈ l) :
    a ∈ l.modifyFirst p f ∨ (p a ∧ f a ∈ l.modifyFirst p f) := by
  induction l with
  | nil => exact absurd member not_mem_nil
  | cons b rest ih =>
    rw [modifyFirst_cons]
    rcases mem_cons.mp member with rfl | later
    · split_ifs with matched
      · exact .inr ⟨matched, mem_cons_self⟩
      · exact .inl mem_cons_self
    · split_ifs
      · exact .inl (mem_cons_of_mem _ later)
      · exact (ih later).imp (mem_cons_of_mem _) (And.imp_right (mem_cons_of_mem _))

theorem mem_modifyFirst_of_neg {p : α → Bool} {f : α → α} {l : List α} {a : α} (member : a ∈ l)
    (other : p a = false) : a ∈ l.modifyFirst p f := by
  induction l with
  | nil => exact absurd member not_mem_nil
  | cons b rest ih =>
    rw [modifyFirst_cons]
    rcases mem_cons.mp member with rfl | later
    · rw [if_neg (by simp [other])]
      exact mem_cons_self
    · split_ifs
      · exact mem_cons_of_mem _ later
      · exact mem_cons_of_mem _ (ih later)

/-- A projection that the edit follows turns the edit into one on the projected list. -/
theorem map_modifyFirst (g : α → β) (p : α → Bool) (f : α → α) (q : β → Bool) (f' : β → β)
    (l : List α) (same : ∀ a ∈ l, q (g a) = p a) (follows : ∀ a ∈ l, p a → g (f a) = f' (g a)) :
    (l.modifyFirst p f).map g = (l.map g).modifyFirst q f' := by
  induction l with
  | nil => rfl
  | cons a rest ih =>
    have tail := ih (fun b member => same b (mem_cons_of_mem _ member))
      (fun b member => follows b (mem_cons_of_mem _ member))
    simp only [modifyFirst_cons, map_cons, same a mem_cons_self]
    by_cases matched : p a
    · simp [matched, follows a mem_cons_self matched]
    · simp [matched, tail]

/-- A projection that the edit does not touch is unchanged. -/
theorem map_modifyFirst_of_eq (g : α → β) (p : α → Bool) (f : α → α) (l : List α)
    (unchanged : ∀ a ∈ l, p a → g (f a) = g a) : (l.modifyFirst p f).map g = l.map g := by
  induction l with
  | nil => rfl
  | cons a rest ih =>
    have tail := ih (fun b member => unchanged b (mem_cons_of_mem _ member))
    by_cases matched : p a
    · simp [modifyFirst_cons, matched, unchanged a mem_cons_self matched]
    · simp [modifyFirst_cons, matched, tail]

/-- Only what is done to the found element matters. -/
theorem modifyFirst_congr {p : α → Bool} {f g : α → α} {l : List α} {a : α} (found : l.find? p = some a)
    (same : f a = g a) : l.modifyFirst p f = l.modifyFirst p g := by
  induction l with
  | nil => rfl
  | cons b rest ih =>
    by_cases matched : p b
    · obtain rfl : b = a := by simpa [matched] using found
      simp only [modifyFirst_cons, matched, ↓reduceIte, same]
    · simp only [modifyFirst_cons, matched, Bool.false_eq_true, ↓reduceIte]
      rw [ih (by simpa [matched] using found)]

theorem any_eq_isSome_find? (p : α → Bool) (l : List α) : l.any p = (l.find? p).isSome := by
  induction l with
  | nil => rfl
  | cons a rest ih => by_cases matched : p a <;> simp [matched, ih]

theorem put_of_find? {p : α → Bool} {a b : α} {l : List α} (found : l.find? p = some b) :
    l.put p a = l.modifyFirst p (fun _ => a) := by
  rw [put, any_eq_isSome_find?, found]
  rfl

theorem put_of_find?_none {p : α → Bool} {a : α} {l : List α} (absent : l.find? p = none) :
    l.put p a = l ++ [a] := by
  rw [put, any_eq_isSome_find?, absent]
  rfl

/-- After `put`, the lookup finds the value that was put. -/
theorem find?_put (p : α → Bool) (a : α) (l : List α) (matched : p a) :
    (l.put p a).find? p = some a := by
  cases found : l.find? p with
  | none => rw [put_of_find?_none found, find?_append, found]; simp [matched]
  | some b =>
    rw [put_of_find? found, find?_modifyFirst p _ (fun _ _ => matched), found]
    rfl

/-- After `put`, lookups that cannot match the old or the new row find what they found before. -/
theorem find?_put_of_ne (p q : α → Bool) (a : α) (l : List α) (before : ∀ b, p b → q b = false)
    (after : q a = false) : (l.put p a).find? q = l.find? q := by
  cases found : l.find? p with
  | none => rw [put_of_find?_none found, find?_append]; simp [after]
  | some b =>
    rw [put_of_find? found]
    exact find?_modifyFirst_of_ne p q _ l before (fun _ _ => after)

/-- With distinct keys, the lookup by a member's key finds that member. -/
theorem find?_key_of_mem [DecidableEq κ] (key : α → κ) {l : List α} (distinct : (l.map key).Nodup)
    {a : α} (member : a ∈ l) : l.find? (fun b => key b == key a) = some a := by
  induction l with
  | nil => exact absurd member (not_mem_nil)
  | cons b rest ih =>
    rw [map_cons, nodup_cons] at distinct
    rcases mem_cons.mp member with rfl | tail
    · simp
    · have differs : key b ≠ key a := fun same =>
        distinct.1 (same ▸ mem_map_of_mem (f := key) tail)
      simp [differs, ih distinct.2 tail]

/-- When all elements satisfying a predicate share a key, erasing the first erases all. -/
theorem mem_eraseP_of_key (key : α → κ) {p : α → Bool} {k : κ} (shared : ∀ a, p a → key a = k) {l : List α}
    (distinct : (l.map key).Nodup) {a : α} (member : a ∈ l.eraseP p) : a ∈ l ∧ p a = false := by
  refine ⟨mem_of_mem_eraseP member, ?_⟩
  induction l with
  | nil => exact absurd member not_mem_nil
  | cons b rest ih =>
    rw [map_cons, nodup_cons] at distinct
    by_cases matched : p b
    · rw [eraseP_cons_of_pos matched] at member
      by_contra other
      have same : key a = key b := (shared a (by simpa using other)).trans (shared b matched).symm
      exact distinct.1 (same ▸ mem_map_of_mem member)
    · rw [eraseP_cons_of_neg matched] at member
      rcases mem_cons.mp member with rfl | later
      · simpa using matched
      · exact ih distinct.2 later

/-- When all elements satisfying a predicate share a key, modifying the first modifies all. -/
theorem mem_modifyFirst_of_key (key : α → κ) {p : α → Bool} {k : κ} (shared : ∀ a, p a → key a = k)
    {f : α → α} {l : List α} (distinct : (l.map key).Nodup) {a : α} (member : a ∈ l.modifyFirst p f) :
    (a ∈ l ∧ p a = false) ∨ ∃ b ∈ l, p b ∧ a = f b := by
  induction l with
  | nil => exact absurd member not_mem_nil
  | cons b rest ih =>
    rw [map_cons, nodup_cons] at distinct
    rw [modifyFirst_cons] at member
    split_ifs at member with matched
    · rcases mem_cons.mp member with rfl | later
      · exact .inr ⟨b, mem_cons_self, matched, rfl⟩
      · refine .inl ⟨mem_cons_of_mem b later, ?_⟩
        by_contra other
        have same : key a = key b := (shared a (by simpa using other)).trans (shared b matched).symm
        exact distinct.1 (same ▸ mem_map_of_mem later)
    · rcases mem_cons.mp member with rfl | later
      · exact .inl ⟨mem_cons_self, by simpa using matched⟩
      · rcases ih distinct.2 later with ⟨there, other⟩ | ⟨c, there, found, rfl⟩
        · exact .inl ⟨mem_cons_of_mem b there, other⟩
        · exact .inr ⟨c, mem_cons_of_mem b there, found, rfl⟩

/-- Among distinct keys, erasing the first element with a key leaves none with it. -/
theorem mem_eraseP_key [DecidableEq κ] (key : α → κ) {l : List α} (distinct : (l.map key).Nodup) {k : κ}
    {a : α} (member : a ∈ l.eraseP (fun b => key b == k)) : a ∈ l ∧ key a ≠ k := by
  obtain ⟨there, other⟩ := mem_eraseP_of_key key (fun a same => by simpa using same) distinct member
  exact ⟨there, by simpa using other⟩

/-- Two members with the same key are equal when keys are distinct. -/
theorem eq_of_mem_of_key_eq (key : α → κ) {l : List α} (distinct : (l.map key).Nodup)
    {a b : α} (left : a ∈ l) (right : b ∈ l) (same : key a = key b) : a = b :=
  inj_on_of_nodup_map distinct left right same

/-- Where only one row matches, the first match is every match. -/
theorem modifyFirst_eq_map {p : α → Bool} {l : List α} (f : α → α) (unique : l.Pairwise (fun a b => p a → p b = false)) :
    l.modifyFirst p f = l.map (fun a => if p a then f a else a) := by
  induction l with
  | nil => rfl
  | cons a rest ih =>
    obtain ⟨alone, tail⟩ := pairwise_cons.mp unique
    rw [modifyFirst_cons, map_cons]
    split
    · next matched =>
      have others : rest.map (fun b => if p b then f b else b) = rest := by
        refine (map_congr_left (fun b member => ?_)).trans (map_id rest)
        rw [alone b member matched]
        rfl
      rw [others]
    · rw [ih tail]

/-- An edit that moves two weights of a row together moves their sums together. -/
theorem sum_modifyFirst {p : α → Bool} {f : α → α} (v w : α → ℕ) (together : ∀ a, v (f a) + w a = v a + w (f a))
    (l : List α) :
    ((l.modifyFirst p f).map v).sum + (l.map w).sum = (l.map v).sum + ((l.modifyFirst p f).map w).sum := by
  induction l with
  | nil => rfl
  | cons a rest ih =>
    have head := together a
    rw [modifyFirst_cons]
    split <;> simp only [map_cons, sum_cons] <;> omega

/-- A narrower test drops the weight of an element that only the wider one passes. -/
theorem sum_filter_add_le {p q : α → Bool} {w : α → ℕ} {l : List α} {a : α} (narrow : ∀ b, q b → p b)
    (member : a ∈ l) (passed : p a) (dropped : q a = false) :
    ((l.filter q).map w).sum + w a ≤ ((l.filter p).map w).sum := by
  induction l with
  | nil => cases member
  | cons b rest ih =>
    have shrinks : ((rest.filter q).map w).sum ≤ ((rest.filter p).map w).sum :=
      ((monotone_filter_right rest narrow).map w).sum_le_sum (fun _ _ => Nat.zero_le _)
    rcases mem_cons.mp member with rfl | later
    · rw [filter_cons_of_neg (by simpa using dropped), filter_cons_of_pos passed, map_cons, sum_cons]
      omega
    · have tail := ih later
      by_cases here : q b
      · rw [filter_cons_of_pos here, filter_cons_of_pos (narrow b here)]
        simp only [map_cons, sum_cons]
        omega
      · rw [filter_cons_of_neg here]
        by_cases there : p b
        · rw [filter_cons_of_pos there, map_cons, sum_cons]
          omega
        · rw [filter_cons_of_neg there]
          exact tail

/-- A map that is defined on the whole list keeps its length. -/
theorem length_filterMap_of_isSome {f : α → Option β} {l : List α} (total : ∀ a ∈ l, (f a).isSome = true) :
    (l.filterMap f).length = l.length := by
  induction l with
  | nil => rfl
  | cons a rest ih =>
    obtain ⟨b, here⟩ := Option.isSome_iff_exists.mp (total a mem_cons_self)
    rw [filterMap_cons_some here, length_cons, length_cons, ih (fun a member => total a (mem_cons_of_mem _ member))]

/-- Such a map takes prefixes to prefixes. -/
theorem take_filterMap_of_isSome {f : α → Option β} {l : List α} (total : ∀ a ∈ l, (f a).isSome = true) (n : ℕ) :
    (l.filterMap f).take n = (l.take n).filterMap f := by
  induction l generalizing n with
  | nil => simp
  | cons a rest ih =>
    obtain ⟨b, here⟩ := Option.isSome_iff_exists.mp (total a mem_cons_self)
    cases n with
    | zero => rfl
    | succ n =>
      rw [filterMap_cons_some here, take_succ_cons, take_succ_cons, filterMap_cons_some here,
        ih (fun a member => total a (mem_cons_of_mem _ member))]

end List
