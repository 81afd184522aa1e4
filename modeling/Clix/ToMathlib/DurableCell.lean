import Mathlib.Tactic.Basic
import Mathlib.Logic.Basic

/-! # A value kept in memory and replaced atomically on disk

A process publishes a new value in memory only after a durable replacement of its file succeeded. A
replacement can fail before the file changed, or after it changed but before that is certain to
survive a crash; then the replaced content may come back when the file is next opened. A property
that every replacement and every change in memory preserves is therefore never lost once memory has
it, whatever fails and whenever the process restarts.
-/

/-- Memory, the file, and the content a crash may bring back. -/
structure DurableCell (σ : Type) where
  mem : σ
  file : σ
  replaced : Option σ

namespace DurableCell

variable {σ : Type}

/-- The outcome of a durable replacement. -/
inductive Outcome where
  | saved
  /-- The file is unchanged. -/
  | failedBefore
  /-- The file has the new content, which a crash may undo. -/
  | failedAfter
  deriving DecidableEq, Repr

/-- Replace the file by `next`, and memory too on success. A failure leaves `stopped` in memory. -/
def replace (cell : DurableCell σ) (next stopped : σ) : Outcome → DurableCell σ
  | .saved => ⟨next, next, none⟩
  | .failedBefore => { cell with mem := stopped }
  | .failedAfter => ⟨stopped, next, some cell.file⟩

/-- Change memory only. -/
def tweak (cell : DurableCell σ) (f : σ → σ) : DurableCell σ := { cell with mem := f cell.mem }

/-- What opening the file finds: its content, or what a crash brought back. -/
def found (cell : DurableCell σ) (reverted : Bool) : σ :=
  if reverted then cell.replaced.getD cell.file else cell.file

/-- Read the file into memory. What was read is the content from then on. -/
def reopen (cell : DurableCell σ) (load : σ → σ) (reverted : Bool) : DurableCell σ :=
  ⟨load (cell.found reverted), cell.found reverted, none⟩

/-- Every content of the cell has the property. -/
def Everywhere (P : σ → Prop) (cell : DurableCell σ) : Prop :=
  P cell.mem ∧ P cell.file ∧ ∀ old, cell.replaced = some old → P old

/-- One of the contents of the cell. -/
def Among (cell : DurableCell σ) (x : σ) : Prop := x = cell.mem ∨ x = cell.file ∨ cell.replaced = some x

/-- What memory has, every content a restart can find has too. -/
def Durable (P : σ → Prop) (cell : DurableCell σ) : Prop :=
  P cell.mem → P cell.file ∧ ∀ old, cell.replaced = some old → P old

variable {P : σ → Prop} {cell : DurableCell σ}

theorem Everywhere.mono {Q : σ → Prop} (implies : ∀ x, P x → Q x) (holds : Everywhere P cell) : Everywhere Q cell :=
  ⟨implies _ holds.1, implies _ holds.2.1, fun old same => implies old (holds.2.2 old same)⟩

theorem Everywhere.and {Q : σ → Prop} (first : Everywhere P cell) (second : Everywhere Q cell) :
    Everywhere (fun x => P x ∧ Q x) cell :=
  ⟨⟨first.1, second.1⟩, ⟨first.2.1, second.2.1⟩, fun old same => ⟨first.2.2 old same, second.2.2 old same⟩⟩

theorem everywhere_iff : Everywhere P cell ↔ ∀ x, cell.Among x → P x := by
  constructor
  · rintro ⟨mem, file, replaced⟩ x (rfl | rfl | here)
    · exact mem
    · exact file
    · exact replaced x here
  · exact fun each => ⟨each _ (.inl rfl), each _ (.inr (.inl rfl)), fun x here => each x (.inr (.inr here))⟩

theorem Everywhere.found (holds : Everywhere P cell) (reverted : Bool) : P (cell.found reverted) := by
  cases reverted with
  | false => exact holds.2.1
  | true =>
    cases same : cell.replaced with
    | none => simpa [DurableCell.found, same] using holds.2.1
    | some old => simpa [DurableCell.found, same] using holds.2.2 old same

theorem Everywhere.replace (holds : Everywhere P cell) {next stopped : σ} (new : P next)
    (kept : P stopped) (outcome : Outcome) : Everywhere P (cell.replace next stopped outcome) := by
  cases outcome with
  | saved => exact ⟨new, new, fun _ absent => absurd absent (by simp [DurableCell.replace])⟩
  | failedBefore => exact ⟨kept, holds.2⟩
  | failedAfter => exact ⟨kept, new, fun old same => Option.some.inj same ▸ holds.2.1⟩

theorem Everywhere.tweak (holds : Everywhere P cell) {f : σ → σ} (keeps : P cell.mem → P (f cell.mem)) :
    Everywhere P (cell.tweak f) := ⟨keeps holds.1, holds.2⟩

theorem Everywhere.reopen (holds : Everywhere P cell) {load : σ → σ} (reverted : Bool)
    (keeps : ∀ s, P s → P (load s)) : Everywhere P (cell.reopen load reverted) :=
  ⟨keeps _ (holds.found reverted), holds.found reverted,
    fun _ absent => absurd absent (by simp [DurableCell.reopen])⟩

/-- A replacement keeps the rule when the new value keeps what memory had. -/
theorem Durable.replace (holds : Durable P cell) {next stopped : σ} (keeps : P cell.mem → P next)
    (back : P stopped → P cell.mem) (outcome : Outcome) :
    Durable P (cell.replace next stopped outcome) := by
  cases outcome with
  | saved => exact fun new => ⟨new, fun _ absent => absurd absent (by simp [DurableCell.replace])⟩
  | failedBefore => exact fun kept => holds (back kept)
  | failedAfter =>
    intro kept
    exact ⟨keeps (back kept), fun old same => Option.some.inj same ▸ (holds (back kept)).1⟩

/-- A change in memory keeps the rule when it adds nothing to what memory had. -/
theorem Durable.tweak (holds : Durable P cell) {f : σ → σ} (back : P (f cell.mem) → P cell.mem) :
    Durable P (cell.tweak f) := fun kept => holds (back kept)

theorem Durable.reopen {load : σ → σ} (reverted : Bool)
    (back : P (load (cell.found reverted)) → P (cell.found reverted)) :
    Durable P (cell.reopen load reverted) :=
  fun holds => ⟨back holds, fun _ absent => absurd absent (by simp [DurableCell.reopen])⟩

/-- A durable property of memory is what the next opening finds. -/
theorem Durable.found (holds : Durable P cell) (known : P cell.mem) (reverted : Bool) :
    P (cell.found reverted) :=
  Everywhere.found ⟨known, holds known⟩ reverted

end DurableCell
