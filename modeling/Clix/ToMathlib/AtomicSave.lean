import Clix.ToMathlib.DurableCell
import Mathlib.Data.Nat.Notation

/-! # Replacing a file through a temporary one

The new content is written to a temporary file and flushed before a rename puts it in place, and the rename survives a
crash once the directory is flushed. A crash may come between any two steps, may cut a file that was not flushed, and
may undo a rename that was not. The steps refine the atomic replacement of a `DurableCell`.
-/

/-- A file, with no content when it was cut. -/
structure Blob (σ : Type) where
  content : Option σ
  flushed : Bool

/-- The whole of a content, safely on disk. -/
def Blob.whole {σ : Type} (x : σ) : Blob σ := ⟨some x, true⟩

/-- What a crash leaves of a file. -/
def Blob.survive {σ : Type} (b : Blob σ) (cut : Bool) : Blob σ :=
  if b.flushed = false ∧ cut = true then ⟨none, true⟩ else { b with flushed := true }

/-- A directory with the file, what a crash may bring back in its place, and the temporary file. -/
structure Disk (σ : Type) where
  file : Blob σ
  undone : Option (Blob σ)
  temp : Option (Blob σ)

inductive FileStep where
  | create | write | flush | rename | sync
  deriving DecidableEq, Repr

namespace FileStep

def order : List FileStep := [create, write, flush, rename, sync]

end FileStep

namespace Disk

variable {σ : Type}

def holding (x : σ) : Disk σ := ⟨.whole x, none, none⟩

def perform (next : σ) (d : Disk σ) : FileStep → Disk σ
  | .create => { d with temp := some ⟨none, false⟩ }
  | .write => { d with temp := d.temp.map (fun _ => ⟨some next, false⟩) }
  | .flush => { d with temp := d.temp.map (fun t => { t with flushed := true }) }
  | .rename =>
    match d.temp with
    | none => d
    | some t => ⟨t, some d.file, none⟩
  | .sync => { d with undone := none }

/-- The first `done` steps of a replacement. -/
def performed (d : Disk σ) (next : σ) (done : ℕ) : Disk σ := (FileStep.order.take done).foldl (perform next) d

/-- Remove the temporary file. -/
def discard (d : Disk σ) : Disk σ := { d with temp := none }

/-- What a crash leaves. -/
def crash (d : Disk σ) (reverted cut : Bool) : Disk σ :=
  ⟨(if reverted then d.undone.getD d.file else d.file).survive cut, none, none⟩

/-- The file has this content, and no crash can change that. -/
structure Settled (x : σ) (d : Disk σ) : Prop where
  file : d.file = .whole x
  undone : d.undone = none

/-- The file has the old content for certain, or the new one, which a crash may undo. -/
inductive Offers (old new : σ) (d : Disk σ) : Prop
  | before (settled : d.Settled old)
  | after (file : d.file = .whole new) (undone : d.undone = none ∨ d.undone = some (.whole old))

variable {d : Disk σ} {old new : σ}

theorem settled_holding (x : σ) : (holding x).Settled x := ⟨rfl, rfl⟩

theorem Settled.discard (settled : d.Settled old) : d.discard.Settled old := ⟨settled.file, settled.undone⟩

theorem Settled.crash (settled : d.Settled old) (reverted cut : Bool) : (d.crash reverted cut).Settled old := by
  obtain ⟨file, undone⟩ := settled
  refine ⟨?_, rfl⟩
  rw [Disk.crash, undone, file, Option.getD_none, ite_self, Blob.survive, if_neg]
  · rfl
  · exact fun torn => absurd torn.1 Bool.noConfusion

theorem Offers.discard (offers : d.Offers old new) : d.discard.Offers old new := by
  cases offers with
  | before settled => exact .before settled.discard
  | after file undone => exact .after file undone

/-- A crash leaves the whole of the old or the whole of the new content. -/
theorem Offers.crash (offers : d.Offers old new) (reverted cut : Bool) :
    (d.crash reverted cut).Settled old ∨ (d.crash reverted cut).Settled new := by
  cases offers with
  | before settled => exact .inl (settled.crash reverted cut)
  | after file undone =>
    rcases undone with gone | held
    · exact .inr (Settled.crash ⟨file, gone⟩ reverted cut)
    · cases reverted with
      | false =>
        refine .inr ⟨?_, rfl⟩
        exact (Settled.crash (d := { d with undone := none }) ⟨file, rfl⟩ false cut).file
      | true =>
        refine .inl ⟨?_, rfl⟩
        rw [Disk.crash, held]
        exact (Settled.crash (settled_holding old) false cut).file

/-- After any number of its steps, a replacement offers the old or the new content. -/
theorem Settled.performed (settled : d.Settled old) (new : σ) (done : ℕ) : (d.performed new done).Offers old new := by
  obtain ⟨file, undone⟩ := settled
  match done with
  | 0 | 1 | 2 | 3 => exact .before ⟨file, undone⟩
  | 4 => exact .after rfl (.inr (congrArg some file))
  | n + 5 =>
    have all : d.performed new (n + 5) = d.performed new 5 := by
      rw [Disk.performed, Disk.performed, List.take_of_length_le (Nat.le_add_left 5 n), List.take_of_length_le (Nat.le_refl 5)]
    rw [all]
    exact .after rfl (.inl rfl)

theorem Settled.performed_all (new : σ) (d : Disk σ) : (d.performed new 5).Settled new := ⟨rfl, rfl⟩

/-! ### The atomic replacement that the steps refine -/

/-- The directory has what a cell says about the file. -/
structure Shows (cell : DurableCell σ) (d : Disk σ) : Prop where
  file : d.file = .whole cell.file
  undone : d.undone = cell.replaced.map .whole

variable {cell : DurableCell σ}

theorem Shows.saved (d : Disk σ) (cell : DurableCell σ) (next stopped : σ) :
    Shows (cell.replace next stopped .saved) (d.performed next 5) := ⟨rfl, rfl⟩

/-- A replacement that stops before the rename changed nothing. -/
theorem Shows.failedBefore (shown : Shows cell d) (next stopped : σ) {done : ℕ} (early : done < 4) :
    Shows (cell.replace next stopped .failedBefore) (d.performed next done).discard := by
  match done, early with
  | 0, _ | 1, _ | 2, _ | 3, _ => exact ⟨shown.file, shown.undone⟩

theorem Shows.failedAfter (shown : Shows cell d) (next stopped : σ) :
    Shows (cell.replace next stopped .failedAfter) (d.performed next 4).discard :=
  ⟨rfl, congrArg some shown.file⟩

theorem Shows.reopen (shown : Shows cell d) (load : σ → σ) (reverted cut : Bool) :
    Shows (cell.reopen load reverted) (d.crash reverted cut) := by
  refine ⟨?_, rfl⟩
  have file : (d.crash reverted cut).file = (Blob.whole (cell.found reverted)).survive cut := by
    rw [Disk.crash, shown.file, shown.undone, DurableCell.found]
    cases cell.replaced <;> cases reverted <;> rfl
  rw [file, Blob.survive, if_neg]
  · rfl
  · exact fun torn => absurd torn.1 Bool.noConfusion

end Disk
