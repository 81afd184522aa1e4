import Clix.Model.PinInterrupted
import Clix.Proofs.PinForward
import Clix.Soundness.PinReview
import Clix.Soundness.PinJournal

/-! # What a stop leaves of the recovery directory

However far an application or an owner action comes, every receipt in the directory can be read back, tells of data of
its own, and has a path under a directory at which nothing but a file may be. Without a stop the actions are those of
the owner.
-/

namespace Clix.Pin

open Except

variable {c : Crypto} {host : Host} {s : Store} {ids : Ids} {stats later : Stats} {draft : Draft}
  {d d' : Disk} {t t' : Tree} {id fresh token tmp : String} {r r' : RecoveryReceipt} {steps : ℕ} {ops : List Op}
  {choice : RecoveryChoice} {before view : RecoveryInspection}

/-! ## Without a stop -/

theorem performThen_done {α : Type} {next : ℕ → Tree → Option (Result α) × Tree} (enough : ops.length ≤ steps) :
    performThen ops steps t next = match performAll ops t with
      | (.error e, t) => (some (.error e), t)
      | (.ok (), t) => next (steps - ops.length) t := by
  rw [performThen, perform_of_length_le enough]
  cases ran : performAll ops t with
  | mk result t' => cases result <;> rfl

theorem noted_of_absent (absent : t.saved.get? (tmp ++ ".tmp") = none) :
    noted tmp id r t.saved = t.saved.insert id (.ofReceipt r) := by
  refine OrdMap.ext_get? (fun name => ?_)
  rw [get?_noted absent, OrdMap.get?_insert]

/-- A receipt is written unless its temporary name is taken. -/
theorem writing_cases (valid : validRecoveryName id = .ok ()) (draft : Draft) (r : RecoveryReceipt) (d : Disk) :
    (∃ e, writeTypedReceipt draft id r d = .error e ∧
      performAll (writeReceipt draft.tmp id r) d.tree = (.error e, d.tree)) ∨
    (writeTypedReceipt draft id r d = .ok (d.write id (.ofReceipt r) draft.stamp) ∧
      performAll (writeReceipt draft.tmp id r) d.tree = (.ok (), (d.write id (.ofReceipt r) draft.stamp).tree)) := by
  cases there : d.tree.saved.get? (draft.tmp ++ ".tmp") with
  | some a =>
    refine .inl ⟨.io "File exists (os error 17)", ?_, ?_⟩
    · rw [writeTypedReceipt, valid, ok_bind, there]
    · rw [writeReceipt, performAll, createExcl, there]
  | none =>
    refine .inr ⟨writeTypedReceipt_eq_ok valid there, ?_⟩
    rw [writeReceipt_done there, noted_of_absent there]
    rfl

theorem resolveFinish_eq : resolveFinish c draft id choice before d =
    resolvedReceipt c id choice before d >>= fun r => writeTypedReceipt draft id r d := by
  simp only [resolveFinish, resolvedReceipt, bind_assoc, pure_bind]

/-- A restoration is its operations, one after another. -/
theorem restoreRetained_eq : restoreRetained c host s ids later id token before d =
    match restorationOps c host s ids id token before d with
    | .error e => (.error e, d)
    | .ok ops => ((performAll ops d.tree).1, ⟨(performAll ops d.tree).2, if ops = [] then d.stats else later⟩) := by
  unfold restoreRetained restorationOps
  cases before.retained with
  | none => rfl
  | some source =>
    dsimp only
    cases openInternal d.tree.saved before.receipt.version with
    | error e => rfl
    | ok found =>
      rw [ok_bind]
      cases found with
      | none => rfl
      | some f =>
        dsimp only
        split_ifs with large stale
        · rw [refuseIf, if_pos large]
          rfl
        · rw [refuseIf_neg large, ok_bind, refuseIf, if_pos stale]
          rfl
        · rw [refuseIf_neg large, ok_bind, refuseIf_neg stale, ok_bind]
          cases applyChecks c host s d.tree ⟨before.receipt.path, before.live.map (·.fingerprint),
            some source.fingerprint, false⟩ (some f.bytes) [id] with
          | error e => rfl
          | ok due =>
            cases due with
            | false => rfl
            | true =>
              rw [ok_bind]
              dsimp only
              rw [if_pos rfl]
              change _ = (_, (⟨_, if _ ++ _ :: _ = [] then _ else _⟩ : Disk))
              rw [if_neg (by simp)]

theorem finishSteps_done (enough : 3 ≤ steps) : finishSteps c draft id choice before d.stats steps d.tree =
    match resolveFinish c draft id choice before d with
      | .error e => (some (.error e), d.tree)
      | .ok d => (some (inspection c d id), d.tree) := by
  rw [finishSteps, resolveFinish_eq]
  change (match resolvedReceipt c id choice before d >>= typedReceiptOps draft.tmp id with
    | .error e => _
    | .ok writing => _) = _
  cases resolvedReceipt c id choice before d with
  | error e => rfl
  | ok r =>
    rw [ok_bind, ok_bind, typedReceiptOps]
    cases valid : validRecoveryName id with
    | error e =>
      rw [writeTypedReceipt, valid]
      rfl
    | ok u =>
      rw [ok_bind]
      dsimp only [pure_eq_ok]
      rw [performThen_done enough]
      rcases writing_cases valid draft r d with ⟨e, failed, same⟩ | ⟨written, same⟩
      · rw [failed, same]
      · rw [written, same]
        rfl

/-- Without a stop, a receipt is resolved as the owner's action does. -/
theorem resolveSteps_done : ∃ enough, ∀ steps ≥ enough,
    resolveSteps c host s ids stats later draft id token choice steps t =
      (some (recoveryResolve c host s ids later draft id token choice ⟨t, stats⟩).1,
        (recoveryResolve c host s ids later draft id token choice ⟨t, stats⟩).2.tree) := by
  unfold resolveSteps recoveryResolve
  cases resolveStart c s id token ⟨t, stats⟩ with
  | error e => exact ⟨0, fun _ _ => rfl⟩
  | ok before =>
    dsimp only
    have finish (d : Disk) (steps : ℕ) (enough : 3 ≤ steps) : finishSteps c draft id choice before d.stats steps d.tree =
        (some (match resolveFinish c draft id choice before d with
          | Except.error e => (Except.error e, d)
          | Except.ok d => (inspection c d id, d)).1, (match resolveFinish c draft id choice before d with
          | Except.error e => (Except.error e, d)
          | Except.ok d => (inspection c d id, d)).2.tree) := by
      rw [finishSteps_done enough]
      cases resolveFinish c draft id choice before d <;> rfl
    cases choice with
    | keepLive =>
      refine ⟨3, fun steps enough => ?_⟩
      rw [if_pos rfl]
      exact finish ⟨t, stats⟩ steps enough
    | restoreRetained =>
      rw [if_neg (by decide)]
      dsimp only
      rw [restoreRetained_eq]
      cases restorationOps c host s ids id token before ⟨t, stats⟩ with
      | error e => exact ⟨0, fun _ _ => rfl⟩
      | ok ops =>
        refine ⟨ops.length + 3, fun steps enough => ?_⟩
        dsimp only
        rw [performThen_done (by omega)]
        cases performAll ops t with
        | mk result t' =>
          cases result with
          | error e => rfl
          | ok u => exact finish ⟨t', if ops = [] then stats else later⟩ (steps - ops.length) (by omega)

theorem removeSteps_done {journal : String} (enough : 2 ≤ steps) :
    removeSteps c view journal d.stats steps d.tree =
      (some (discardFinish c view journal d).1, (discardFinish c view journal d).2.tree) := by
  rw [removeSteps, discardFinish, show (⟨d.tree, d.stats⟩ : Disk) = d from rfl]
  cases snapshotInternal c d view.receipt.version with
  | error e => rfl
  | ok current =>
    dsimp only
    split_ifs with differs gone
    · rfl
    · rw [List.nil_append, perform_of_length_le (by simp; omega)]
      unfold Disk.unlink
      simp only [performAll, unlinkSaved]
      cases d.tree.saved.get? journal <;> rfl
    · rw [perform_of_length_le (by simp; omega), List.singleton_append]
      unfold Disk.unlink
      simp only [performAll, unlinkSaved]
      cases d.tree.saved.get? view.receipt.version with
      | none => rfl
      | some a =>
        dsimp only
        cases (d.tree.saved.erase view.receipt.version).get? journal <;> rfl

/-- Without a stop, something is discarded as the owner's action does. -/
theorem discardSteps_done (enough : 5 ≤ steps) : discardSteps c s stats draft fresh id token steps t =
    (some (recoveryDiscard c s draft fresh id token ⟨t, stats⟩).1,
      (recoveryDiscard c s draft fresh id token ⟨t, stats⟩).2.tree) := by
  unfold discardSteps recoveryDiscard
  cases discardStart c s id token ⟨t, stats⟩ with
  | error e => rfl
  | ok view =>
    dsimp only
    generalize (if view.recorded = true then id else fresh ++ ".json") = journal
    rw [typedReceiptOps]
    cases valid : validRecoveryName journal with
    | error e =>
      rw [writeTypedReceipt, valid]
      rfl
    | ok u =>
      rw [ok_bind]
      dsimp only [pure_eq_ok]
      rw [performThen_done (by simp [writeReceipt]; omega)]
      rcases writing_cases valid draft (discarding view token) ⟨t, stats⟩ with ⟨e, failed, same⟩ | ⟨written, same⟩
      · rw [failed, same]
      · rw [written, same]
        exact removeSteps_done (by simp [writeReceipt]; omega)

end Clix.Pin
