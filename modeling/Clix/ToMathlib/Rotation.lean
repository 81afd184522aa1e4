import Mathlib.Data.List.Sort
import Mathlib.Order.Basic

/-! # Scanning a sorted list in turn

A scan starts behind a cursor, goes up, and wraps around to the cursor. `Before c x y` is its order. As the cursor moves
to what was met last, what comes later in the turn stays later, and nothing is met twice before the end of the turn.
-/

namespace Rotation

variable {α : Type} [LinearOrder α] {c x y z : α}

/-- A scan that starts behind `c` meets `x` before `y`. -/
def Before (c x y : α) : Prop := (c < x ∧ (x < y ∨ y ≤ c)) ∨ (x ≤ c ∧ x < y ∧ y ≤ c)

theorem Before.irrefl (c x : α) : ¬Before c x x := by
  rintro (⟨above, below | below⟩ | ⟨-, below, -⟩)
  · exact lt_irrefl x below
  · exact lt_irrefl c (above.trans_le below)
  · exact lt_irrefl x below

theorem Before.trans (first : Before c x y) (second : Before c y z) : Before c x z := by
  unfold Before at *
  grind

/-- Between a cursor and the end of its turn, the turns of the keys that are met agree. -/
theorem Before.advance (first : Before c x z) (second : Before x y z) : Before c y z ∧ Before c x y := by
  unfold Before at *
  grind

/-- The order of a scan behind a cursor. -/
def order (c : α) (l : List α) : List α := l.dropWhile (fun x => decide (x ≤ c)) ++ l.takeWhile (fun x => decide (x ≤ c))

theorem mem_order {l : List α} : x ∈ order c l ↔ x ∈ l := by
  have split := List.takeWhile_append_dropWhile (p := fun x => decide (x ≤ c)) (l := l)
  rw [order, List.mem_append, or_comm, ← List.mem_append, split]

theorem lt_of_mem_dropWhile {l : List α} (sorted : l.Pairwise (· ≤ ·))
    (member : x ∈ l.dropWhile (fun x => decide (x ≤ c))) : c < x := by
  induction l with
  | nil => cases member
  | cons head rest ih =>
    rw [List.pairwise_cons] at sorted
    rw [List.dropWhile_cons] at member
    split_ifs at member with low
    · exact ih sorted.2 member
    · rw [decide_eq_true_eq, not_le] at low
      rcases List.mem_cons.mp member with rfl | later
      · exact low
      · exact low.trans_le (sorted.1 x later)

/-- A sorted list is scanned in turn. -/
theorem pairwise_order {l : List α} (sorted : l.Pairwise (· ≤ ·)) :
    (order c l).Pairwise (fun x y => x = y ∨ Before c x y) := by
  have low : ∀ x ∈ l.takeWhile (fun x => decide (x ≤ c)), x ≤ c := fun x member =>
    of_decide_eq_true (List.all_eq_true.mp List.all_takeWhile x member)
  rw [order, List.pairwise_append]
  refine ⟨?_, ?_, fun x high y member => .inr (.inl ⟨lt_of_mem_dropWhile sorted high, .inr (low y member)⟩)⟩
  · refine (sorted.sublist (List.dropWhile_sublist _)).imp_of_mem (fun {x y} here there ordered => ?_)
    rcases ordered.eq_or_lt with same | less
    · exact .inl same
    · exact .inr (.inl ⟨lt_of_mem_dropWhile sorted here, .inl less⟩)
  · refine (sorted.sublist (List.takeWhile_sublist _)).imp_of_mem (fun {x y} here there ordered => ?_)
    rcases ordered.eq_or_lt with same | less
    · exact .inl same
    · exact .inr (.inr ⟨low x here, less, low y there⟩)

/-- What a scan has met when it has not yet met some key: each in turn, all before the key. -/
theorem pairwise_before {l before after met : List α} (sorted : l.Pairwise (· ≤ ·)) (split : order c l = before ++ x :: after)
    (absent : x ∉ before) (distinct : met.Nodup) (sublist : met.Sublist before) :
    met.Pairwise (Before c) ∧ ∀ y ∈ met, Before c y x := by
  have turns := pairwise_order (c := c) sorted
  rw [split, List.pairwise_append] at turns
  obtain ⟨first, -, ahead⟩ := turns
  constructor
  · exact ((first.sublist sublist).and distinct).imp (fun both => both.1.resolve_left both.2)
  · intro y member
    have early := sublist.subset member
    exact (ahead y early x List.mem_cons_self).resolve_left (fun same => absent (same ▸ early))

/-- The cursor follows what was met: the turns behind the old cursor continue behind the new one. -/
theorem pairwise_append {met later : List α} {last : α} (turns : met.Pairwise (Before c))
    (all : ∀ y ∈ met, Before c y x) (ends : met.getLast? = some last) (turns' : later.Pairwise (Before last))
    (all' : ∀ y ∈ later, Before last y x) :
    (met ++ later).Pairwise (Before c) ∧ ∀ y ∈ met ++ later, Before c y x := by
  obtain ⟨front, rfl⟩ := List.getLast?_eq_some_iff.mp ends
  have reached : Before c last x := all last (List.mem_append_right _ (List.mem_singleton_self last))
  refine ⟨List.pairwise_append.mpr ⟨turns, ?_, fun y here z there => ?_⟩, fun y member => ?_⟩
  · exact turns'.imp_of_mem (fun {y z} _ there ordered => ((reached.advance (all' z there)).2.advance ordered).1)
  · have ahead := (reached.advance (all' z there)).2
    rcases List.mem_append.mp here with early | final
    · exact ((List.pairwise_append.mp turns).2.2 y early last (List.mem_singleton_self last)).trans ahead
    · rw [List.mem_singleton.mp final]
      exact ahead
  · rcases List.mem_append.mp member with here | there
    · exact all y here
    · exact (reached.advance (all' y there)).1

end Rotation
