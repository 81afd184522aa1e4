import Clix.Model.PinOwner

/-! # Owner actions that stop midway

Resolving and discarding write the recovery directory by the same file operations as an application, and the machine
may stop between any two of them. A run is any sequence of applications and owner actions, each stopped somewhere or
not at all, without another writer.
-/

namespace Clix.Pin

open Except

variable (c : Crypto) (host : Host) (s : Store)

/-- The metadata after an entry of the recovery directory was written. -/
def Stats.write (stats : Stats) (name : String) (stamp : Stamp) : Stats :=
  { stats with saved := Function.update stats.saved name stamp }

/-- The operations that replace a receipt, once its name is checked. -/
def typedReceiptOps (tmp id : String) (r : RecoveryReceipt) : Result (List Op) := do
  validRecoveryName id
  return writeReceipt tmp id r

/-- The operations that put the retained version back, once everything is checked. -/
def restorationOps (ids : Ids) (id token : String) (before : RecoveryInspection) (d : Disk) : Result (List Op) :=
  match before.retained with
  | none => .error (.usage "there is no retained version to restore")
  | some source => do
    match ← openInternal d.tree.saved before.receipt.version with
    | none => .error (.usage "recovery version is absent")
    | some f => do
      refuseIf (maxFile < f.bytes.length) (.usage "recovery read exceeds the supported size; data was preserved")
      refuseIf (fingerprint c f.bytes source.fingerprint.mode ≠ source.fingerprint ∨
        (inspection c d id).map (·.token) ≠ .ok token) (changed "retained version changed before restoration")
      let ch : Change := ⟨before.receipt.path, before.live.map (·.fingerprint), some source.fingerprint, false⟩
      let due ← applyChecks c host s d.tree ch (some f.bytes) [id]
      return if due then journalOps ids ch f.bytes [id] ++ publishOp ids ch :: settleOps c ids ch [id] else []

/-- The receipt of a resolution. Nothing but a restoration may have changed since the first inspection. -/
def resolvedReceipt (id : String) (choice : RecoveryChoice) (before : RecoveryInspection) (d : Disk) :
    Result RecoveryReceipt := do
  let after ← inspection c d id
  refuseIf (after.receipt ≠ before.receipt) (changed "recovery receipt changed during resolution")
  refuseIf (after.retained ≠ before.retained)
    (changed "retained version changed during resolution; all versions were preserved")
  refuseIf (choice = .keepLive ∧ after.live ≠ before.live) (changed "live version changed during resolution")
  let retained ← openInternal d.tree.saved before.receipt.version
  checkOptionalFile (retained.map (fun f => (f, d.stats.saved before.receipt.version))) after.retained
  return { before.receipt with
    expected := after.retained.map (·.fingerprint)
    replacement := after.live.map (·.fingerprint)
    state := .resolved }

/-- Perform operations, and go on with the tree they leave if nothing failed or stopped. -/
def performThen {α : Type} (ops : List Op) (steps : ℕ) (t : Tree)
    (next : ℕ → Tree → Option (Result α) × Tree) : Option (Result α) × Tree :=
  match perform ops steps t with
  | (none, t) => (none, t)
  | (some (.error e), t) => (some (.error e), t)
  | (some (.ok ()), t) => next (steps - ops.length) t

/-- The end of a resolution: the receipt is written, and inspected once more. -/
def finishSteps (draft : Draft) (id : String) (choice : RecoveryChoice) (before : RecoveryInspection) (stats : Stats)
    (steps : ℕ) (t : Tree) : Option (Result RecoveryInspection) × Tree :=
  match resolvedReceipt c id choice before ⟨t, stats⟩ >>= typedReceiptOps draft.tmp id with
  | .error e => (some (.error e), t)
  | .ok writing =>
    performThen writing steps t (fun _ t => (some (inspection c ⟨t, stats.write id draft.stamp⟩ id), t))

/-- `later` are the metadata after a restoration, if there is one. -/
def resolveSteps (ids : Ids) (stats later : Stats) (draft : Draft) (id token : String) (choice : RecoveryChoice)
    (steps : ℕ) (t : Tree) : Option (Result RecoveryInspection) × Tree :=
  match resolveStart c s id token ⟨t, stats⟩ with
  | .error e => (some (.error e), t)
  | .ok before =>
    match (if choice = .keepLive then .ok [] else restorationOps c host s ids id token before ⟨t, stats⟩) with
    | .error e => (some (.error e), t)
    | .ok restoration => performThen restoration steps t
      (finishSteps c draft id choice before (if restoration = [] then stats else later))

/-- The end of a discard: the version leaves, and then the journal. -/
def removeSteps (view : RecoveryInspection) (journal : String) (stats : Stats) (steps : ℕ) (t : Tree) :
    Option (Result Unit) × Tree :=
  match snapshotInternal c ⟨t, stats⟩ view.receipt.version with
  | .error e => (some (.error e), t)
  | .ok current =>
    if current ≠ view.retained then (some (.error (changed "retained version changed before discard")), t)
    else perform ((if current = none then [] else [unlinkSaved view.receipt.version]) ++ [unlinkSaved journal]) steps t

def discardSteps (stats : Stats) (draft : Draft) (fresh id token : String) (steps : ℕ) (t : Tree) :
    Option (Result Unit) × Tree :=
  match discardStart c s id token ⟨t, stats⟩ with
  | .error e => (some (.error e), t)
  | .ok view =>
    let journal := if view.recorded = true then id else fresh ++ ".json"
    match typedReceiptOps draft.tmp journal (discarding view token) with
    | .error e => (some (.error e), t)
    | .ok writing => performThen writing steps t (removeSteps c view journal (stats.write journal draft.stamp))

/-! ## Runs -/

/-- What is done to a pinned tree, with the IDs that are drawn for it and the metadata that are found. -/
inductive Action where
  | apply (ch : Change) (bytes : Option Bytes) (ids : Ids)
  | resolve (ids : Ids) (stats later : Stats) (draft : Draft) (id token : String) (choice : RecoveryChoice)
  | discard (stats : Stats) (draft : Draft) (fresh id token : String)

/-- The tree after an action that may have stopped after some operations. -/
def Action.run (action : Action) (steps : ℕ) (t : Tree) : Tree :=
  match action with
  | .apply ch bytes ids => (applyLocked c host s ch bytes [] ids none steps t).2
  | .resolve ids stats later draft id token choice =>
    (resolveSteps c host s ids stats later draft id token choice steps t).2
  | .discard stats draft fresh id token => (discardSteps c s stats draft fresh id token steps t).2

/-- An action as it was taken: with the grants of the moment, and up to a stop. -/
structure Attempt where
  host : Host
  store : Store
  action : Action
  steps : ℕ

def Attempt.run (a : Attempt) (t : Tree) : Tree := a.action.run c a.host a.store a.steps t

def runAttempts (attempts : List Attempt) (t : Tree) : Tree := attempts.foldl (fun t a => a.run c t) t

/-! ## Clearing -/

/-- An artifact to clear, with what is drawn for it. A discard that was begun is repeated with the token of its
receipt, or with that of an inspection. -/
structure Clearing where
  id : String
  draft : Draft
  fresh : String
  recorded : Bool

/-- What an owner does about one artifact: keep the live version under a receipt, finish a discard that was begun, and
discard what no receipt tells of. -/
def clearOne (ids : Ids) (later : Stats) (x : Clearing) (d : Disk) : Result Unit × Disk :=
  match recoveryInspect c d x.id with
  | .error e => (.error e, d)
  | .ok view =>
    if view.recorded = true ∧ view.receipt.state ≠ .discarding then
      let (result, d) := recoveryResolve c host s ids later x.draft x.id view.token .keepLive d
      (result.map (fun _ => ()), d)
    else recoveryDiscard c s x.draft x.fresh x.id
      (if x.recorded = true then view.receipt.discardToken.getD view.token else view.token) d

/-- Discard what an inspection shows. -/
def discardOne (x : Clearing) (d : Disk) : Result Unit × Disk :=
  match recoveryInspect c d x.id with
  | .error e => (.error e, d)
  | .ok view => recoveryDiscard c s x.draft x.fresh x.id view.token d

/-- One artifact after another, up to one that fails. -/
def each (act : Clearing → Disk → Result Unit × Disk) : List Clearing → Disk → Result Unit × Disk
  | [], d => (.ok (), d)
  | x :: rest, d =>
    match act x d with
    | (.error e, d) => (.error e, d)
    | (.ok (), d) => each act rest d

end Clix.Pin
