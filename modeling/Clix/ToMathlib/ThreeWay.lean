import Mathlib.Logic.Basic
import Mathlib.Tactic.Common

/-! # Three-way merges

Two sides and what they last agreed on, at one point. When at least two of the three are equal, the
merge takes the side that changed; it is symmetric in the sides, loses no change, and may be repeated
after one side or both have already taken it.
-/

namespace ThreeWay

variable {α : Type} {left right base : α}

/-- The sides did not change the point in different ways. -/
def Agree (left right base : α) : Prop := left = right ∨ left = base ∨ right = base

theorem Agree.symm (agree : Agree left right base) : Agree right left base := by
  rcases agree with same | same | same
  · exact .inl same.symm
  · exact .inr (.inr same)
  · exact .inr (.inl same)

variable [DecidableEq α]

instance : Decidable (Agree left right base) :=
  inferInstanceAs (Decidable (left = right ∨ left = base ∨ right = base))

/-- The side that changed, when only one did. -/
def merge (left right base : α) : α := if left = right then left else if left = base then right else left

theorem merge_self (value base : α) : merge value value base = value := if_pos rfl

theorem merge_comm (agree : Agree left right base) : merge left right base = merge right left base := by
  unfold merge
  by_cases same : left = right
  · rw [if_pos same, if_pos same.symm, same]
  · rw [if_neg same, if_neg (Ne.symm same)]
    by_cases leftKept : left = base
    · rw [if_pos leftKept, if_neg (fun rightKept => same (leftKept.trans rightKept.symm))]
    · rw [if_neg leftKept, if_pos ((agree.resolve_left same).resolve_left leftKept)]

/-- A side that changed the point keeps its value. -/
theorem merge_of_left_ne (changed : left ≠ base) : merge left right base = left := by
  unfold merge
  rw [if_neg changed, ite_self]

theorem merge_of_right_ne (agree : Agree left right base) (changed : right ≠ base) :
    merge left right base = right := by
  rw [merge_comm agree, merge_of_left_ne changed]

/-- Either side may already have taken the merge, from the same base. -/
theorem agree_of_taken {left' right' : α} (agree : Agree left right base)
    (leftTaken : left' = left ∨ left' = merge left right base)
    (rightTaken : right' = right ∨ right' = merge left right base) :
    Agree left' right' base ∧ merge left' right' base = merge left right base := by
  by_cases same : left = right
  · subst same
    rw [merge_self] at *
    rw [or_self] at leftTaken rightTaken
    rw [leftTaken, rightTaken]
    exact ⟨agree, merge_self _ _⟩
  · by_cases kept : left = base
    · have taken : merge left right base = right := by rw [merge, if_neg same, if_pos kept]
      rw [taken, or_self] at rightTaken
      rw [taken] at leftTaken ⊢
      rcases leftTaken with rfl | rfl
      · exact ⟨rightTaken ▸ agree, rightTaken ▸ taken⟩
      · exact ⟨.inl rightTaken.symm, by rw [rightTaken, merge_self]⟩
    · have taken : merge left right base = left := merge_of_left_ne kept
      rw [taken, or_self] at leftTaken
      rw [taken] at rightTaken ⊢
      rcases rightTaken with rfl | rfl
      · exact ⟨leftTaken ▸ agree, leftTaken ▸ taken⟩
      · exact ⟨.inl leftTaken, by rw [leftTaken, merge_self]⟩

end ThreeWay
