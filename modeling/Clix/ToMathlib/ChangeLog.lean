import Mathlib.Order.Lattice
import Mathlib.Data.List.Pairwise
import Mathlib.Tactic.SplitIfs

/-! # Maps whose entries carry the time of their last change

Every write stamps its entry beyond the clock. A reader that asks for what was stamped between two times, while writes
go on, therefore knows everything up to the later one: what it has read is still there as it was, or was stamped again
beyond the clock of the answer.
-/

/-- A clock, and entries stamped with the time of their last change. -/
structure ChangeLog (κ τ α : Type*) where
  clock : τ
  entry? : κ → Option (τ × α)

namespace ChangeLog

variable {κ τ α : Type*} [LinearOrder τ] {s t u : ChangeLog κ τ α}

/-- Entries were stamped apart, none beyond the clock. -/
structure Stamped (s : ChangeLog κ τ α) : Prop where
  apart : ∀ k k' e e', s.entry? k = some e → s.entry? k' = some e' → e.1 = e'.1 → k = k'
  clock : ∀ k e, s.entry? k = some e → e.1 ≤ s.clock

/-- What was written since is stamped beyond the earlier clock, each entry at a time of its own. -/
structure Advances (s t : ChangeLog κ τ α) : Prop where
  clock : s.clock ≤ t.clock
  present : ∀ k, s.entry? k ≠ none → t.entry? k ≠ none
  entry : ∀ k e, t.entry? k = some e → s.entry? k = some e ∨ s.clock < e.1 ∧ e.1 ≤ t.clock
  apart : ∀ k k' e e', t.entry? k = some e → t.entry? k' = some e' → s.entry? k ≠ some e → s.entry? k' ≠ some e' →
    e.1 = e'.1 → k = k'

theorem Advances.of_eq (clock : t.clock = s.clock) (entries : t.entry? = s.entry?) : s.Advances t where
  clock := clock.ge
  present k there := by rwa [entries]
  entry k e found := .inl (entries ▸ found)
  apart k k' e e' found _ written _ _ := absurd (entries ▸ found) written

theorem Advances.refl (s : ChangeLog κ τ α) : s.Advances s := .of_eq rfl rfl

/-- A later state keeps the entries of an earlier clock as they were. -/
theorem Advances.unchanged (advances : s.Advances t) {k : κ} {e : τ × α} (found : t.entry? k = some e)
    (early : e.1 ≤ s.clock) : s.entry? k = some e :=
  (advances.entry k e found).resolve_right (fun late => absurd early (not_le.mpr late.1))

theorem Advances.trans (first : s.Advances t) (second : t.Advances u) : s.Advances u where
  clock := first.clock.trans second.clock
  present k there := second.present k (first.present k there)
  entry k e found := by
    rcases second.entry k e found with kept | ⟨late, bounded⟩
    · exact (first.entry k e kept).imp_right (And.imp_right (fun bounded => bounded.trans second.clock))
    · exact .inr ⟨first.clock.trans_lt late, bounded⟩
  apart k k' e e' found found' written written' same := by
    -- What the first part wrote is not beyond its clock, and what the second wrote is.
    rcases second.entry k e found with kept | ⟨late, -⟩ <;> rcases second.entry k' e' found' with kept' | ⟨late', -⟩
    · exact first.apart k k' e e' kept kept' written written' same
    · exact absurd ((first.entry k e kept).resolve_left written).2 (not_le.mpr (same ▸ late'))
    · exact absurd ((first.entry k' e' kept').resolve_left written').2 (not_le.mpr (same ▸ late))
    · by_cases same' : t.entry? k = some e ∨ t.entry? k' = some e'
      · rcases same' with kept | kept'
        · exact absurd ((first.entry k e kept).resolve_left written).2 (not_le.mpr late)
        · exact absurd ((first.entry k' e' kept').resolve_left written').2 (not_le.mpr late')
      · rw [not_or] at same'
        exact second.apart k k' e e' found found' same'.1 same'.2 same

theorem Advances.stamped (advances : s.Advances t) (stamped : s.Stamped) : t.Stamped where
  apart k k' e e' found found' same := by
    rcases advances.entry k e found with kept | ⟨late, -⟩ <;>
      rcases advances.entry k' e' found' with kept' | ⟨late', -⟩
    · exact stamped.apart k k' e e' kept kept' same
    · exact absurd (stamped.clock k e kept) (not_le.mpr (same ▸ late'))
    · exact absurd (stamped.clock k' e' kept') (not_le.mpr (same ▸ late))
    · have written {k : κ} {e : τ × α} (late : s.clock < e.1) : s.entry? k ≠ some e :=
        fun kept => absurd (stamped.clock k e kept) (not_le.mpr late)
      exact advances.apart k k' e e' found found' (written late) (written late') same
  clock k e found := by
    rcases advances.entry k e found with kept | ⟨-, bounded⟩
    · exact (stamped.clock k e kept).trans advances.clock
    · exact bounded

/-- A map that begins empty has stamped everything since. -/
theorem Advances.stamped_of_empty (advances : s.Advances t) (empty : ∀ k, s.entry? k = none) : t.Stamped :=
  advances.stamped ⟨fun k _ e _ found => by simp [empty k] at found, fun k e found => by simp [empty k] at found⟩

/-- One write, at the next time. -/
theorem Advances.write [DecidableEq κ] {k₀ : κ} {now : τ} {v : α} (late : s.clock < now) (clock : t.clock = now)
    (entries : ∀ k, t.entry? k = if k = k₀ then some (now, v) else s.entry? k) : s.Advances t where
  clock := clock ▸ late.le
  present k there := by
    rw [entries]
    split_ifs
    · simp
    · exact there
  entry k e found := by
    rw [entries] at found
    split_ifs at found
    · cases found
      exact .inr ⟨late, clock.ge⟩
    · exact .inl found
  apart k k' e e' found found' written written' _ := by
    rw [entries] at found found'
    split_ifs at found found' with here here'
    · exact here.trans here'.symm
    · exact absurd found' written'
    · exact absurd found written
    · exact absurd found written

/-! ### Readers -/

/-- Everything stamped after one time and up to another has been seen. -/
def Seen (s : ChangeLog κ τ α) (seen : κ → α → Prop) (after upto : τ) : Prop :=
  ∀ k e, s.entry? k = some e → after < e.1 → e.1 ≤ upto → seen k e.2

variable {seen other : κ → α → Prop} {after middle upto : τ}

/-- What was seen up to the clock stays seen while writes go on. -/
theorem Seen.advance (known : s.Seen seen after upto) (advances : s.Advances t) (past : upto ≤ s.clock) :
    t.Seen seen after upto :=
  fun k e found later early => known k e (advances.unchanged found (early.trans past)) later early

theorem Seen.mono (known : s.Seen seen after upto) (grows : ∀ k v, seen k v → other k v) : s.Seen other after upto :=
  fun k e found later early => grows k e.2 (known k e found later early)

/-- Two spans in a row. -/
theorem Seen.trans (first : s.Seen seen after middle) (second : s.Seen seen middle upto) : s.Seen seen after upto := by
  intro k e found later early
  rcases le_or_gt e.1 middle with before | behind
  · exact first k e found later before
  · exact second k e found behind early

end ChangeLog

namespace List

variable {α τ : Type*} [LinearOrder τ]

/-- The elements of an increasing list up to the last one of a front are those of the front. -/
theorem mem_front_of_le {stamp : α → τ} {front rest : List α} {a last : α}
    (increasing : (front ++ rest).Pairwise (fun x y => stamp x < stamp y)) (member : a ∈ front ++ rest)
    (ends : front.getLast? = some last) (early : stamp a ≤ stamp last) : a ∈ front := by
  rcases mem_append.mp member with inside | behind
  · exact inside
  · have later := (pairwise_append.mp increasing).2.2 last (mem_of_getLast? ends) a behind
    exact absurd early (not_le.mpr later)

end List
