import Clix.Proofs.Charge
import Clix.Model.Update

/-! # Pruning pays for itself

Removing payloads, by the owner or by the budget, never raises the capacity charge, so the reserve for active jobs never
refuses a state because something was removed from it. The limit on the text itself is another one: a receipt may be longer
than the bytes it replaces.
-/

namespace Clix.Storage

variable {s t : Store}

theorem prune_charge_le {keep removed : ℕ} (success : prune s keep = .ok (t, removed)) : charge t ≤ charge s :=
  removeAll_charge_le (fun _ member => List.mem_of_mem_take member) (prune_eq_ok_iff.mp success).1

theorem prepare_charge_le {old : Store} (success : prepare s old = .ok t) : charge t ≤ charge s := by
  obtain ⟨gone, rest, split, removed⟩ := evict_eq_ok (prepare_eq_ok success).2.1
  refine removeAll_charge_le (fun candidate member => ?_) removed
  rw [split]
  exact List.mem_append_left _ member

/-- Pruning never raises the charge. The reserve accepts what it leaves of a state that can be written at all, above the
limit too, and refuses no update because of an eviction. Within the limit the text stays within its own. -/
theorem pruning_charge (s t old : Store) (keep removed : ℕ) :
    (prune s keep = .ok (t, removed) ∨ prepare s old = .ok t →
      completionCharge t (Json.size t) ≤ completionCharge s (Json.size s)) ∧
    (prune s keep = .ok (t, removed) → Json.size s ≤ stateBytes →
      reserveCompletion t s (Json.size t) = .ok ()) ∧
    (prepare s old = .ok t → reserveCompletion s old (Json.size s) = .ok () →
      reserveCompletion t old (Json.size t) = .ok ()) ∧
    (prune s keep = .ok (t, removed) ∨ prepare s old = .ok t → outputBytes t ≤ outputBudget →
      completionCharge s (Json.size s) ≤ stateBytes → encode t = .ok (Json.toVec t)) := by
  have lower : prune s keep = .ok (t, removed) ∨ prepare s old = .ok t → charge t ≤ charge s := by
    rintro (pruned | evicted)
    · exact prune_charge_le pruned
    · exact prepare_charge_le evicted
  refine ⟨lower, fun pruned fits => ?_, fun evicted accepted => ?_, fun removed fits small => ?_⟩
  · exact reserveCompletion_eq_ok_iff.mpr (.inr ⟨fits, lower (.inl pruned)⟩)
  · have below := lower (.inr evicted)
    rcases reserveCompletion_eq_ok_iff.mp accepted with small | ⟨fits, charged⟩
    · exact reserveCompletion_eq_ok_iff.mpr (.inl (below.trans small))
    · exact reserveCompletion_eq_ok_iff.mpr (.inr ⟨fits, below.trans charged⟩)
  · have text := (size_le_charge fits).trans ((lower removed).trans small)
    rw [encode, Except.refuseIf_bind_eq_ok]
    exact ⟨not_lt.mpr text, rfl⟩

end Clix.Storage

namespace Clix.PruneExample

open Storage

def job : Job := ⟨"job", ⟨"alice"⟩, ["true"], ⟨"alice"⟩, .done 0, [120], []⟩

def invocation : Invocation := ⟨"job", ⟨"alice"⟩, [], ⟨"alice"⟩, [], ["true"], none, none⟩

def outcome : SignedFact := ⟨⟨"key", .runner, 1, .done 0, ⟨1, ""⟩, ⟨0, ""⟩⟩, []⟩

def entry : Entry := ⟨⟨⟨invocation, []⟩, none, some outcome⟩, 1, none⟩

/-- A finished job of one byte of output, on a machine whose last synchronisation reported an error. -/
def holding (report : Option String) : Store :=
  { Store.blank "alice" [] with
    jobs := [job]
    jobCertificates := (∅ : OrdMap String String).insert "job" "key"
    pinIndex := ⟨∅, none, ∅, report⟩
    history := {
      initialized := true
      epoch := "epoch"
      clock := 1
      trust := Crypto.transparent.hash (Json.toVec ([] : List (String × Bytes)))
      entries := (∅ : OrdMap String Entry).insert "key" entry
      peers := ∅ } }

/-- The same without the output. -/
def pruned (report : Option String) : Store := (Payload.local "job").removedFrom (holding report) "key"

theorem prune_holding (report : Option String) : prune (holding report) 0 = .ok (pruned report, 1) := rfl

/-- The fact of the pruned job is published already. -/
theorem published (report : Option String) : History.refreshOwned Crypto.transparent (.ok "epoch") (pruned report)
    (some (holding report)) = .ok (pruned report) := by
  have unmarked : History.markLegacy (pruned report) = pruned report := rfl
  have named : History.ensureEpoch (.ok "epoch") (pruned report) = .ok (pruned report) := rfl
  have trusted : History.refreshTrust Crypto.transparent (pruned report) = pruned report := if_pos rfl
  have settled : (History.changedJobs false (holding report).jobs (pruned report).jobs).foldlM
      (History.publishOwned Crypto.transparent (holding report).jobs) (pruned report) = .ok (pruned report) := rfl
  rw [History.refreshOwned, unmarked, named]
  dsimp only [Except.ok_bind]
  rw [trusted]
  exact congrArg (· >>= fun s => pure { s with history := { s.history with initialized := true } }) settled

theorem prepared (report : Option String) :
    prepare (History.normalizeOutput { pruned report with formatVersion := Store.formatVersionNow }) (holding report) =
      .ok (pruned report) := rfl

/-- A state with a longer report has that much longer a text. -/
theorem size_report (s : Store) (clean : s.pinIndex.lastError = none) (report : String) :
    Json.size { s with pinIndex := { s.pinIndex with lastError := some report } } + 4 = Json.size s + Json.size report := by
  have null : (Json.toVec (none : Option String)).length = 4 := rfl
  have index : (Json.toVec { s.pinIndex with lastError := some report }).length + 4 =
      (Json.toVec s.pinIndex).length + (Json.toVec report).length := by
    change (Json.object [_, _, _, Json.field "last_error" (Json.toVec report)]).length + 4 =
      (Json.object [_, _, _, Json.field "last_error" (Json.toVec s.pinIndex.lastError)]).length + _
    rw [clean, Json.length_object, Json.length_object]
    simp only [List.map_cons, List.map_nil, List.sum_cons, List.sum_nil, Json.length_field, null]
    omega
  change (Json.object _).length + 4 = (Json.object _).length + (Json.toVec report).length
  rw [Json.length_object, Json.length_object]
  simp only [List.map_cons, List.map_nil, List.sum_cons, List.sum_nil, Json.length_field] at index ⊢
  omega

set_option maxRecDepth 8000 in
theorem size_holding : Json.size (holding none) = 1023 := by decide

set_option maxRecDepth 8000 in
theorem size_pruned : Json.size (pruned none) = 1030 := by decide

section Full

variable {report : String} (fills : Json.size report = stateBytes - 1019)

include fills

theorem size_full : Json.size (holding (some report)) = stateBytes := by
  have longer : Json.size (holding (some report)) + 4 = Json.size (holding none) + Json.size report :=
    size_report (holding none) rfl report
  have limit : stateBytes = 134217728 := rfl
  rw [size_holding] at longer
  omega

theorem size_full_pruned : Json.size (pruned (some report)) = stateBytes + 7 := by
  have longer : Json.size (pruned (some report)) + 4 = Json.size (pruned none) + Json.size report :=
    size_report (pruned none) rfl report
  have limit : stateBytes = 134217728 := rfl
  rw [size_pruned] at longer
  omega

theorem charge_full : stateBytes < completionCharge (holding (some report)) (Json.size (holding (some report))) := by
  have payload : payloadBytes (holding (some report)) = 3 := rfl
  have budget : outputBudget = 16777216 := rfl
  rw [completionCharge, size_full fills, payload]
  omega

theorem stage_full : Store.stage Crypto.transparent (.ok "epoch") (holding (some report)) (fun s => prune s 0) =
    .error (.capacity "Clix state exceeds 128 MiB; new work is refused") := by
  have writable : Store.ensureWritable (holding (some report)) = .ok () := rfl
  have large : stateBytes < (Json.toVec (pruned (some report))).length := by
    have text : (Json.toVec (pruned (some report))).length = stateBytes + 7 := size_full_pruned fills
    omega
  have refused : encode (pruned (some report)) =
      .error (.capacity "Clix state exceeds 128 MiB; new work is refused") := by
    rw [encode, Except.refuseIf, if_pos large]
    rfl
  rw [Store.stage, writable, prune_holding]
  dsimp only [Except.ok_bind]
  rw [published, Except.ok_bind, prepared, Except.ok_bind, refused]
  rfl

end Full

/-- A report that fills the text of the state to its limit. -/
def report : String := String.ofList (List.replicate (stateBytes - 1021) 'x')

theorem size_fills : Json.size report = stateBytes - 1019 := by
  have plain : ((String.utf8EncodeChar 'x').flatMap Json.escape).length = 1 := rfl
  have filler : Json.size report = stateBytes - 1021 + 2 := by
    unfold report
    rw [Json.size_replicate plain]
  rw [filler]
  have limit : stateBytes = 134217728 := rfl
  omega

/-- Above the limit the owner's pruning may be refused, for the seven bytes by which its receipts are longer. -/
theorem prune_refused : Json.size (holding (some report)) = stateBytes ∧
    stateBytes < completionCharge (holding (some report)) (Json.size (holding (some report))) ∧
    prune (holding (some report)) 0 = .ok (pruned (some report), 1) ∧
    Store.stage Crypto.transparent (.ok "epoch") (holding (some report)) (fun s => prune s 0) =
      .error (.capacity "Clix state exceeds 128 MiB; new work is refused") :=
  ⟨size_full size_fills, charge_full size_fills, prune_holding _, stage_full size_fills⟩

/-- What is left of a small state is accepted, and so is an update that evicts nothing. -/
theorem prune_accepted : completionCharge (pruned none) (Json.size (pruned none)) ≤
      completionCharge (holding none) (Json.size (holding none)) ∧
    reserveCompletion (pruned none) (holding none) (Json.size (pruned none)) = .ok () ∧
    reserveCompletion (holding none) (holding none) (Json.size (holding none)) = .ok () ∧
    encode (pruned none) = .ok (Json.toVec (pruned none)) := by
  have text : Json.size (holding none) ≤ stateBytes := by
    rw [size_holding]
    decide
  have small : completionCharge (holding none) (Json.size (holding none)) ≤ stateBytes := by
    rw [size_holding]
    decide
  have empty : outputBytes (pruned none) ≤ outputBudget := Nat.zero_le _
  have whole : prepare (holding none) (holding none) = .ok (holding none) := rfl
  have gone := pruning_charge (holding none) (pruned none) (holding none) 0 1
  have kept := pruning_charge (holding none) (holding none) (holding none) 0 0
  exact ⟨gone.1 (.inl (prune_holding none)), gone.2.1 (prune_holding none) text,
    kept.2.2.1 whole (reserveCompletion_eq_ok_iff.mpr (.inl small)), gone.2.2.2 (.inl (prune_holding none)) empty small⟩

end Clix.PruneExample
