import Clix.Model.Types
import Clix.Model.Error

/-! # Admission limits -/

namespace Clix.Limits

open Except

def children : ℕ := 4
def argvCount : ℕ := 256
def argvBytes : ℕ := 64 * 1024
def idBytes : ℕ := 128
def toolBytes : ℕ := 4096
def statusReasonBytes : ℕ := 64 * 1024
def outputStreamBytes : ℕ := 4 * 1024 * 1024
def meshFrameBytes : ℕ := 64 * 1024 * 1024

def containsNul (s : String) : Bool := s.toList.contains (Char.ofNat 0)

def identifier (id : String) : Result Unit :=
  refuseIf (id.utf8ByteSize = 0 ∨ idBytes < id.utf8ByteSize ∨ containsNul id = true)
    (.usage "identifier requires 1 to 128 bytes and no NUL")

def tool (value : String) : Result Unit :=
  refuseIf (value.utf8ByteSize = 0 ∨ toolBytes < value.utf8ByteSize ∨ containsNul value = true)
    (.usage "tool must contain 1 to 4096 bytes and no NUL")

/-- Check arguments in order, with the bytes counted so far. -/
def arguments (bytes : ℕ) : List String → Result Unit
  | [] => .ok ()
  | arg :: rest => do
    refuseIf (containsNul arg = true) (.usage "command arguments must not contain NUL")
    refuseIf (argvBytes < bytes + arg.utf8ByteSize) (.usage "command arguments exceed 64 KiB")
    arguments (bytes + arg.utf8ByteSize) rest

def invocation (id : String) (argv : List String) : Result Unit := do
  identifier id
  refuseIf (argv = [] ∨ argvCount < argv.length)
    (.usage "command requires between 1 and 256 arguments")
  tool (argv.headD "")
  arguments 0 argv

def status (value : JobStatus) : Result Unit :=
  match value with
  | .denied reason | .failed reason | .uncertain reason =>
    refuseIf (statusReasonBytes < reason.utf8ByteSize) (.protocol "job reason exceeds 64 KiB")
  | _ => .ok ()

def result (job : Job) : Result Unit := do
  invocation job.id job.argv
  status job.status
  refuseIf (outputStreamBytes < job.stdout.length ∨ outputStreamBytes < job.stderr.length)
    (.protocol "job output exceeds 4 MiB per stream")

theorem arguments_eq_ok {bytes : ℕ} {argv : List String} (success : arguments bytes argv = .ok ()) :
    (∀ arg ∈ argv, containsNul arg = false) ∧
      (argv ≠ [] → bytes + (argv.map String.utf8ByteSize).sum ≤ argvBytes) := by
  induction argv generalizing bytes with
  | nil => simp
  | cons arg rest ih =>
    rw [arguments, refuseIf_bind_eq_ok, refuseIf_bind_eq_ok] at success
    obtain ⟨clean, fits, others⟩ := success
    obtain ⟨cleanRest, bound⟩ := ih others
    refine ⟨?_, fun _ => ?_⟩
    · rintro a member
      rcases List.mem_cons.mp member with rfl | later
      · exact Bool.eq_false_iff.mpr clean
      · exact cleanRest a later
    · rw [List.map_cons, List.sum_cons]
      cases rest with
      | nil => simpa using not_lt.mp fits
      | cons next others =>
        have total := bound (List.cons_ne_nil _ _)
        omega

/-- What an admissible invocation promises about its sizes. -/
theorem invocation_eq_ok {id : String} {argv : List String} (success : invocation id argv = .ok ()) :
    identifier id = .ok () ∧ argv ≠ [] ∧ argv.length ≤ argvCount ∧
      (argv.map String.utf8ByteSize).sum ≤ argvBytes := by
  rw [invocation, bind_eq_ok] at success
  obtain ⟨⟨⟩, named, success⟩ := success
  rw [refuseIf_bind_eq_ok, not_or, not_lt, bind_eq_ok] at success
  obtain ⟨⟨nonempty, count⟩, ⟨⟩, -, args⟩ := success
  refine ⟨named, nonempty, count, ?_⟩
  simpa using (arguments_eq_ok args).2 nonempty

end Clix.Limits
