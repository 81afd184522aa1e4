import Mathlib.Data.Set.Basic
import Mathlib.Order.Basic

/-! # Slots that only newer values replace

An author numbers the values of a slot, and may mark one as final. A slot that takes only values newer than its own
holds the newest of all it was offered, in whatever order and however often they came, as long as the author never
gave two values one number.
-/

/-- Values with a revision, some of them final. -/
class Versioned (α : Type*) where
  revision : α → ℕ
  final : α → Bool

namespace Versioned

variable {α : Type*} [Versioned α] {old slot new : Option α} {a b : α} {S : Set α}

/-- Only newer values were put in a slot, and none after a final one. -/
def Succeeds (old new : Option α) : Prop :=
  ∀ a, old = some a → new = some a ∨ ∃ b, new = some b ∧ revision a < revision b ∧ final a = false

theorem Succeeds.refl (slot : Option α) : Succeeds slot slot := fun _ => .inl

theorem Succeeds.of_none (slot : Option α) : Succeeds none slot := by
  intro a none
  cases none

theorem Succeeds.of_lt (later : revision a < revision b) (open' : final a = false) : Succeeds (some a) (some b) := by
  intro c same
  cases same
  exact .inr ⟨b, rfl, later, open'⟩

theorem Succeeds.trans (first : Succeeds old slot) (second : Succeeds slot new) : Succeeds old new := by
  intro a same
  rcases first a same with kept | ⟨b, there, later, open'⟩
  · exact second a kept
  · rcases second b there with kept | ⟨d, here, newer, -⟩
    · exact .inr ⟨b, kept, later, open'⟩
    · exact .inr ⟨d, here, later.trans newer, open'⟩

/-- One revision is one value. -/
theorem Succeeds.eq_of_revision (succeeds : Succeeds (some a) (some b)) (same : revision b ≤ revision a) : b = a := by
  rcases succeeds a rfl with kept | ⟨d, there, later, -⟩
  · exact Option.some.inj kept
  · cases there
    exact absurd same (not_le.mpr later)

/-- A final value stays. -/
theorem Succeeds.of_final (succeeds : Succeeds (some a) new) (final : final a = true) : new = some a := by
  rcases succeeds a rfl with kept | ⟨d, -, -, open'⟩
  · exact kept
  · exact absurd (final.symm.trans open') (by decide)

/-- A slot holds a value as new as one offered, or that one. -/
def Reaches (offered slot : Option α) : Prop :=
  ∀ a, offered = some a → slot = some a ∨ ∃ b, slot = some b ∧ revision a < revision b

theorem Reaches.refl (slot : Option α) : Reaches slot slot := fun _ => .inl

theorem Succeeds.reaches (succeeds : Succeeds old new) : Reaches old new := by
  intro a same
  rcases succeeds a same with kept | ⟨b, there, later, -⟩
  · exact .inl kept
  · exact .inr ⟨b, there, later⟩

theorem Reaches.trans (first : Reaches old slot) (second : Reaches slot new) : Reaches old new := by
  intro a same
  rcases first a same with kept | ⟨b, there, later⟩
  · exact second a kept
  · rcases second b there with kept | ⟨d, here, newer⟩
    · exact .inr ⟨b, kept, later⟩
    · exact .inr ⟨d, here, later.trans newer⟩

/-- Values of one author, who gives no two of them one revision and none after a final one. -/
structure Coherent (S : Set α) : Prop where
  one : ∀ a ∈ S, ∀ b ∈ S, revision a = revision b → a = b
  last : ∀ a ∈ S, ∀ b ∈ S, final a = true → revision b ≤ revision a

theorem Coherent.mono {T : Set α} (coherent : Coherent S) (fewer : T ⊆ S) : Coherent T where
  one a ha b hb := coherent.one a (fewer ha) b (fewer hb)
  last a ha b hb := coherent.last a (fewer ha) b (fewer hb)

/-- A value that a slot may be offered beside the one it holds: an older one, that one itself, or a newer one when that
one was not final. -/
def Continues (held offered : α) : Prop :=
  revision held ≤ revision offered → offered = held ∨ revision held < revision offered ∧ final held = false

theorem Coherent.continues (coherent : Coherent S) (ha : a ∈ S) (hb : b ∈ S) : Continues a b := by
  intro below
  rcases below.eq_or_lt with same | later
  · exact .inl (coherent.one a ha b hb same).symm
  · refine .inr ⟨later, Bool.eq_false_iff.mpr (fun final => ?_)⟩
    exact absurd later (not_lt.mpr (coherent.last a ha b hb final))

/-- Values that one slot held, one after the other. -/
theorem coherent_of_chain {ι : Type*} {slots : ι → Option α}
    (chain : ∀ i j, Succeeds (slots i) (slots j) ∨ Succeeds (slots j) (slots i)) : Coherent {a | ∃ i, slots i = some a} where
  one := by
    rintro a ⟨i, held⟩ b ⟨j, held'⟩ same
    rcases chain i j with forth | back
    · rw [held, held'] at forth
      exact (forth.eq_of_revision same.ge).symm
    · rw [held, held'] at back
      exact back.eq_of_revision same.le
  last := by
    rintro a ⟨i, held⟩ b ⟨j, held'⟩ final
    rcases chain i j with forth | back
    · rw [held] at forth
      have kept := forth.of_final final
      rw [held', Option.some.injEq] at kept
      exact kept ▸ le_rfl
    · rw [held, held'] at back
      rcases back b rfl with kept | ⟨d, there, later, -⟩
      · exact (Option.some.inj kept) ▸ le_rfl
      · exact (Option.some.inj there) ▸ later.le

/-- A slot holds the newest of some values. -/
structure Newest (S : Set α) (slot : Option α) : Prop where
  mem : ∀ a, slot = some a → a ∈ S
  le : ∀ a ∈ S, ∃ b, slot = some b ∧ revision a ≤ revision b

/-- What a slot holds depends on what it was offered, and on nothing else. -/
theorem Newest.unique (coherent : Coherent S) (first : Newest S slot) (second : Newest S new) : slot = new := by
  cases held : slot with
  | none =>
    cases other : new with
    | none => rfl
    | some b =>
      obtain ⟨a, here, -⟩ := first.le b (second.mem b other)
      rw [held] at here
      cases here
  | some a =>
    obtain ⟨b, other, below⟩ := second.le a (first.mem a held)
    obtain ⟨a', same, above⟩ := first.le b (second.mem b other)
    obtain rfl : a = a' := Option.some.inj (held.symm.trans same)
    rw [other, coherent.one a (first.mem a held) b (second.mem b other) (le_antisymm below above)]

/-- A slot that was offered the newest of all holds it already. -/
theorem Newest.settled {T : Set α} (coherent : Coherent S) (whole : Newest S new) (part : Newest T slot) (fewer : T ⊆ S)
    (offered : ∀ a, new = some a → a ∈ T) : slot = new :=
  part.unique (coherent.mono fewer) ⟨offered, fun a there => whole.le a (fewer there)⟩

theorem newest_self (slot : Option α) : Newest {a | slot = some a} slot where
  mem _ same := same
  le a same := ⟨a, same, le_rfl⟩

/-- A slot that keeps the newer of its value and an offered one. -/
theorem Newest.merge {offered : Option α} (newest : Newest S slot) (succeeds : Succeeds slot new)
    (reaches : Reaches offered new) (one : new = slot ∨ new = offered) : Newest (S ∪ {a | offered = some a}) new where
  mem a held := by
    rcases one with kept | taken
    · exact .inl (newest.mem a (kept ▸ held))
    · exact .inr (taken ▸ held)
  le a there := by
    have above {b : α} {from' : Option α} (reached : Reaches from' new) (here : from' = some b) :
        ∃ d, new = some d ∧ revision b ≤ revision d := by
      rcases reached b here with kept | ⟨d, held, later⟩
      · exact ⟨b, kept, le_rfl⟩
      · exact ⟨d, held, later.le⟩
    rcases there with old | here
    · obtain ⟨b, held, below⟩ := newest.le a old
      obtain ⟨d, now, later⟩ := above succeeds.reaches held
      exact ⟨d, now, below.trans later⟩
    · exact above reaches here

/-- A slot holds the newest of some values, and no other of them has its revision. -/
structure Latest (S : Set α) (slot : Option α) : Prop extends Newest S slot where
  one : ∀ a ∈ S, ∀ b, slot = some b → revision a = revision b → a = b

theorem latest_self (slot : Option α) : Latest {a | slot = some a} slot :=
  ⟨newest_self slot, fun _ held _ same _ => Option.some.inj (Eq.trans (Eq.symm held) same)⟩

/-- The newest value is the one that the slot holds. -/
theorem Latest.eq_of_newest (latest : Latest S slot) (newest : Newest S (some a)) : slot = some a := by
  obtain ⟨b, held, above⟩ := latest.le a (newest.mem a rfl)
  obtain ⟨a', same, below⟩ := newest.le b (latest.mem b held)
  obtain rfl := Option.some.inj same
  rw [held, latest.one a (newest.mem a rfl) b held (le_antisymm above below)]

theorem Latest.merge {offered : Option α} (latest : Latest S slot) (succeeds : Succeeds slot new)
    (reaches : Reaches offered new) (one : new = slot ∨ new = offered) : Latest (S ∪ {a | offered = some a}) new := by
  refine ⟨latest.toNewest.merge succeeds reaches one, fun a there b held same => ?_⟩
  rcases there with old | here
  · obtain ⟨d, before, above⟩ := latest.le a old
    rcases succeeds d before with kept | ⟨b', now, later, -⟩
    · obtain rfl := Option.some.inj (held.symm.trans kept)
      exact latest.one a old b before same
    · obtain rfl := Option.some.inj (held.symm.trans now)
      exact absurd (above.trans_lt later) (by rw [same]; exact lt_irrefl _)
  · rcases reaches a here with kept | ⟨b', now, later⟩
    · exact Option.some.inj (kept.symm.trans held)
    · obtain rfl := Option.some.inj (held.symm.trans now)
      exact absurd later (by rw [same]; exact lt_irrefl _)

end Versioned
