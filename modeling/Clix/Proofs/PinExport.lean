import Clix.Model.PinExport
import Clix.Proofs.PinOwner
import Clix.ToMathlib.Lines

/-! # One export

While an export has not failed, the chunks it returned are what it hashed, and each piece was read between two
moments at which the source had the metadata of the inspected version.
-/

namespace Clix.Pin

open Except

variable {c : Crypto} {world : ℕ → Scene} {now length start : ℕ} {x x' : RecoveryExport} {chunk : RecoveryChunk}
  {chunks : List RecoveryChunk} {bytes content : Bytes} {expected : RecoveryVersion}

/-! ## Chunks -/

/-- Chunks one after another from an offset. -/
def Contiguous : ℕ → List RecoveryChunk → Prop
  | _, [] => True
  | start, chunk :: rest => chunk.offset = start ∧ Contiguous (start + chunk.bytes.length) rest

theorem contiguous_append : Contiguous start (chunks ++ [chunk]) ↔
    Contiguous start chunks ∧ chunk.offset = start + (chunks.flatMap (·.bytes)).length := by
  induction chunks generalizing start with
  | nil => simp [Contiguous]
  | cons first rest ih =>
    rw [List.cons_append, Contiguous, Contiguous, ih, and_assoc, List.flatMap_cons, List.length_append,
      Nat.add_assoc]

/-- The chunks of a version: contiguous from the start, only the last one ends the stream, and their bytes have
the length and the hash of the version. -/
structure Exported (c : Crypto) (expected : RecoveryVersion) (chunks : List RecoveryChunk) : Prop where
  contiguous : Contiguous 0 chunks
  totals : ∀ chunk ∈ chunks, chunk.totalBytes = expected.bytes
  last : ∃ init final, chunks = init ++ [final] ∧ final.eof = true ∧ ∀ chunk ∈ init, chunk.eof = false
  length : (chunks.flatMap (·.bytes)).length = expected.bytes
  hash : c.hash (chunks.flatMap (·.bytes)) = expected.fingerprint.hash

/-- The compared metadata show every change: between two moments at which the source has the metadata of a
version, it has the content of the version. -/
def Visible (world : ℕ → Scene) (expected : RecoveryVersion) (content : Bytes) : Prop :=
  ∀ i j k, i ≤ k → k ≤ j → matchesVersion (world i).source.1 (world i).source.2 expected = true →
    matchesVersion (world j).source.1 (world j).source.2 expected = true → (world k).source.1.bytes = content

/-! ## Checks -/

namespace RecoveryExport

/-- A check that passes saw the metadata of the expected version. -/
theorem matches_of_check (passed : checkVersions world now x = .ok ()) :
    matchesVersion (world (now + 4)).source.1 (world (now + 4)).source.2 x.expected = true := by
  rw [checkVersions, refuseIf_bind_eq_ok, bind_eq_ok] at passed
  obtain ⟨-, seen, -, passed⟩ := passed
  cases seen with
  | none => cases passed
  | some dir =>
    dsimp only at passed
    rw [refuseIf_bind_eq_ok, not_or, not_or, Bool.not_eq_false] at passed
    exact passed.1.2.2

/-- What is read of the source for a chunk. -/
structure Read (world : ℕ → Scene) (now length : ℕ) (x : RecoveryExport) (bytes : Bytes) : Prop where
  unfinished : x.complete = false
  before : matchesVersion (world (now + 4)).source.1 (world (now + 4)).source.2 x.expected = true
  piece : bytes = ((world (now + 8)).source.1.bytes.drop x.offset).take (min (x.expected.bytes - x.offset) length)
  size : bytes.length = min (x.expected.bytes - x.offset) length
  after : matchesVersion (world (now + 13)).source.1 (world (now + 13)).source.2 x.expected = true

theorem nextBytes_eq_ok (success : nextBytes world now length x = .ok bytes) : Read world now length x bytes := by
  rw [nextBytes, refuseIf_bind_eq_ok, bind_eq_ok] at success
  obtain ⟨asked, ⟨⟩, before, success⟩ := success
  rw [bind_eq_ok] at success
  obtain ⟨piece, read, success⟩ := success
  rw [bind_eq_ok] at success
  obtain ⟨⟨⟩, after, success⟩ := success
  cases success
  rw [readExact, refuseIf_bind_eq_ok, not_lt] at read
  obtain ⟨enough, read⟩ := read
  cases read
  rw [not_or, not_or, Bool.not_eq_true] at asked
  refine ⟨asked.2.2, matches_of_check before, rfl, ?_, matches_of_check after⟩
  rw [List.length_take, min_eq_left enough]

/-- What a chunk that is returned says, and what the export keeps. -/
theorem readChunk_eq_ok (success : readChunk c world now length x = (.ok chunk, x')) : x.failed = false ∧
    ∃ bytes, Read world now length x bytes ∧
      chunk = ⟨x.offset, x.expected.bytes, bytes, decide (x.offset + bytes.length = x.expected.bytes)⟩ ∧
      x' = { x with hashed := x.hashed ++ bytes, offset := x.offset + bytes.length, complete := chunk.eof } ∧
      (chunk.eof = true → c.hash (x.hashed ++ bytes) = x.expected.fingerprint.hash) := by
  unfold readChunk at success
  split_ifs at success with failed
  · cases success
  · refine ⟨by simpa using failed, ?_⟩
    cases ran : readChunkChecked c world now length x with
    | mk result y =>
      rw [ran] at success
      cases result with
      | error e => cases success
      | ok chunk' =>
        cases success
        unfold readChunkChecked at ran
        cases read : nextBytes world now length x with
        | error e =>
          rw [read] at ran
          cases ran
        | ok bytes =>
          rw [read] at ran
          dsimp only at ran
          split at ran
          · cases ran
          · next passed =>
            cases ran
            refine ⟨bytes, nextBytes_eq_ok read, rfl, rfl, fun eof => ?_⟩
            dsimp only at eof
            rw [if_pos eof, checkComplete, refuseIf_bind_eq_ok, not_not] at passed
            exact passed.1

/-- A read that fails ends the export. -/
theorem failed_of_readChunk {e : ClixError} (failure : readChunk c world now length x = (.error e, x')) :
    x'.failed = true := by
  unfold readChunk at failure
  split_ifs at failure with failed
  · cases failure
    exact failed
  · cases ran : readChunkChecked c world now length x with
    | mk result y =>
      rw [ran] at failure
      cases result with
      | error e => cases failure; rfl
      | ok chunk => cases failure

theorem complete_of_readChunk {e : ClixError} (complete : x.complete = true)
    (failure : readChunk c world now length x = (.error e, x')) : x'.complete = true := by
  unfold readChunk at failure
  split_ifs at failure
  · cases failure
    exact complete
  · have refused : nextBytes world now length x = .error
        (.usage "recovery chunks require 1 through 65536 bytes and an unfinished export") := by
      rw [nextBytes, refuseIf, if_pos (.inr (.inr complete))]
      rfl
    unfold readChunkChecked at failure
    rw [refused] at failure
    cases failure
    exact complete

end RecoveryExport

/-! ## An export that has not failed -/

/-- What is true of an export that has returned some chunks and has not failed. -/
structure Streamed (c : Crypto) (world : ℕ → Scene) (expected : RecoveryVersion) (content : Bytes)
    (x : RecoveryExport) (chunks : List RecoveryChunk) : Prop where
  same : x.expected = expected
  hashed : x.hashed = chunks.flatMap (·.bytes)
  offset : x.offset = x.hashed.length
  within : x.offset ≤ expected.bytes
  contiguous : Contiguous 0 chunks
  totals : ∀ chunk ∈ chunks, chunk.totalBytes = expected.bytes
  unfinished : x.complete = false → ∀ chunk ∈ chunks, chunk.eof = false
  finished : x.complete = true → Exported c expected chunks
  exact : Visible world expected content → x.hashed = content.take x.offset

/-- One chunk more. -/
theorem Streamed.readChunk (streamed : Streamed c world expected content x chunks)
    (success : x.readChunk c world now length = (.ok chunk, x')) :
    x'.failed = false ∧ Streamed c world expected content x' (chunks ++ [chunk]) := by
  obtain ⟨sound, bytes, read, shape, rfl, hash⟩ := RecoveryExport.readChunk_eq_ok success
  have same := streamed.same
  subst same
  have whole : (chunks ++ [chunk]).flatMap (·.bytes) = x.hashed ++ bytes := by
    rw [List.flatMap_append, List.flatMap_singleton, ← streamed.hashed, shape]
  have contiguous : Contiguous 0 (chunks ++ [chunk]) := by
    refine contiguous_append.mpr ⟨streamed.contiguous, ?_⟩
    rw [shape, ← streamed.hashed, ← streamed.offset, Nat.zero_add]
  have totals : ∀ item ∈ chunks ++ [chunk], item.totalBytes = x.expected.bytes := by
    intro item listed
    rcases List.mem_append.mp listed with old | new
    · exact streamed.totals item old
    · rw [List.mem_singleton.mp new, shape]
  have offset : x.offset + bytes.length = (x.hashed ++ bytes).length := by
    rw [List.length_append, streamed.offset]
  have within := streamed.within
  have size := read.size
  refine ⟨sound, ⟨rfl, whole.symm, offset, ?_, contiguous, totals, fun goesOn item listed => ?_, fun ends => ?_,
    fun visible => ?_⟩⟩
  · dsimp only
    omega
  · rcases List.mem_append.mp listed with old | new
    · exact streamed.unfinished read.unfinished item old
    · exact List.mem_singleton.mp new ▸ goesOn
  · dsimp only at ends
    refine ⟨contiguous, totals, ⟨chunks, chunk, rfl, ends, streamed.unfinished read.unfinished⟩, ?_, ?_⟩
    · rw [whole, ← offset]
      rw [shape] at ends
      exact of_decide_eq_true ends
    · rw [whole, hash ends]
  · have now := visible (now + 4) (now + 13) (now + 8) (by omega) (by omega) read.before read.after
    have piece := read.piece
    rw [now, ← size] at piece
    dsimp only
    rw [streamed.exact visible, List.take_add]
    exact congrArg (content.take x.offset ++ ·) piece

end Clix.Pin
