import Clix.Model.PinTree
import Clix.ToMathlib.Cursor

/-! # What the owner sees of the recovery directory

The owner lists the recovery directory in pages and inspects, resolves or discards one artifact at a time. A
token stands for everything an inspection showed, the metadata of the files included, so that an action on
anything else is refused.
-/

namespace Clix.Pin

open Except

/-! ## Snapshots -/

/-- What the file system tells about a file beside its size and mode. -/
structure Stamp where
  device : UInt64
  inode : UInt64
  modifiedSeconds : ℤ
  modifiedNanoseconds : ℤ
  changedSeconds : ℤ
  changedNanoseconds : ℤ
  deriving DecidableEq, Repr

/-- The metadata of the live files and of the recovery directory. -/
structure Stats where
  live : List String → Stamp
  saved : String → Stamp

/-- A tree with the metadata of its files. -/
structure Disk where
  tree : Tree
  stats : Stats

structure RecoveryVersion where
  fingerprint : Fingerprint
  bytes : ℕ
  stamp : Stamp
  deriving DecidableEq, Repr

def snapshotFile (c : Crypto) (f : File) (stamp : Stamp) : RecoveryVersion :=
  ⟨f.fingerprint c, f.bytes.length, stamp⟩

/-- The version of an entry of the recovery directory, of any size. -/
def snapshotInternal (c : Crypto) (d : Disk) (name : String) : Result (Option RecoveryVersion) := do
  let f ← openInternal d.tree.saved name
  return f.map (fun f => snapshotFile c f (d.stats.saved name))

def openLive (live : Live) (path : String) : Result (Option (List String × Node)) := do
  validPath path
  openat2 live path

def snapshotLive (c : Crypto) (d : Disk) (path : String) : Result (Option RecoveryVersion) := do
  match ← openLive d.tree.live path with
  | none => return none
  | some (place, .file f) => return some (snapshotFile c f (d.stats.live place))
  | some _ => .error (.protocol "recovery supports regular files only")

/-! ## Inspection -/

structure RecoveryInspection where
  id : String
  recorded : Bool
  receipt : RecoveryReceipt
  live : Option RecoveryVersion
  retained : Option RecoveryVersion
  token : String
  explanation : String
  deriving DecidableEq, Repr

instance : Json.Serialize ℤ :=
  ⟨fun n => if n < 0 then Json.utf8 "-" ++ Json.digits n.natAbs else Json.digits n.natAbs⟩

instance : Json.Serialize RecoveryVersion where
  toVec v := Json.object [
    Json.field "fingerprint" (Json.toVec v.fingerprint), Json.field "bytes" (Json.toVec v.bytes),
    Json.field "device" (Json.toVec v.stamp.device), Json.field "inode" (Json.toVec v.stamp.inode),
    Json.field "modified_seconds" (Json.toVec v.stamp.modifiedSeconds),
    Json.field "modified_nanoseconds" (Json.toVec v.stamp.modifiedNanoseconds),
    Json.field "changed_seconds" (Json.toVec v.stamp.changedSeconds),
    Json.field "changed_nanoseconds" (Json.toVec v.stamp.changedNanoseconds)]

/-- The fields of a receipt as a token takes them, in the order of their declaration. -/
def RecoveryReceipt.declared (r : RecoveryReceipt) : Bytes := Json.object (
  [Json.field "path" (Json.toVec r.path), Json.field "expected" (Json.toVec r.expected),
    Json.field "replacement" (Json.toVec r.replacement), Json.field "version" (Json.toVec r.version),
    Json.field "state" (Json.string r.state.text)] ++
  (r.sourceReceipt.map (fun source => Json.field "source_receipt" (Json.toVec source))).toList ++
  (r.discardToken.map (fun token => Json.field "discard_token" (Json.toVec token))).toList)

def readAndParse (saved : OrdMap String Artifact) (name : String) : Result RecoveryReceipt := do
  let r ← readReceipt saved name
  parseReceipt r

/-- Whether a receipt stands in the way of handling a name as unrecorded. -/
def checkUnowned (saved : OrdMap String Artifact) (id name : String) : Result Unit := do
  validRecoveryName name
  if name ≠ id ∧ isReceiptName name = true then
    match readAndParse saved name with
    | .ok r =>
      refuseIf (r.version = id)
        (.usage ("this version belongs to receipt " ++ name ++ "; inspect that ID"))
    -- Malformed metadata may be reviewed, but chooses no data version.
    | .error e => refuseIf (isReceiptName id = false) e
  else return ()

def artifactInspection (c : Crypto) (d : Disk) (id explanation : String) : Result RecoveryInspection := do
  d.tree.saved.keys.forM (checkUnowned d.tree.saved id)
  match ← snapshotInternal c d id with
  | none => .error (.usage "recovery artifact is absent")
  | some retained => return {
      id := id
      recorded := false
      receipt := ⟨"", some retained.fingerprint, none, id, .resolved, none, none⟩
      live := none
      retained := some retained
      token := c.hash (Json.array [Json.toVec id, Json.toVec retained])
      explanation := explanation ++ "; export retained bytes or explicitly discard only this artifact" }

def explain (r : RecoveryReceipt) (live retained : Option Fingerprint) : String :=
  match r.state with
  | .pending =>
    if live = r.expected ∧ (retained = r.replacement ∨ retained = none) then
      "publication may be staged or not started; live and saved versions require an owner choice"
    else if live = r.replacement ∧ retained = r.expected then
      "publication appears applied but completion was not recorded; review both versions"
    else "interrupted publication is ambiguous; no version is chosen automatically"
  | .discarding => "an explicit discard was interrupted; repeat discard with the recorded or current token"
  | .retained | .resolved =>
    if retained ≠ r.expected then "retained inode changed after publication or review; data is preserved"
    else "retained version is available for owner inspection"

/-- The live version at the path of a receipt. A discarded artifact without an origin has no path. -/
def snapshotDestination (c : Crypto) (d : Disk) (r : RecoveryReceipt) : Result (Option RecoveryVersion) :=
  if r.path = "" then .ok none else snapshotLive c d r.path

def inspectReceipt (c : Crypto) (d : Disk) (id : String) (r : RecoveryReceipt) : Result RecoveryInspection := do
  let live ← snapshotDestination c d r
  let retained ← snapshotInternal c d r.version
  return {
    id := id
    recorded := true
    receipt := r
    live := live
    retained := retained
    token := c.hash (Json.array [r.declared, Json.toVec live, Json.toVec retained, Json.toVec id])
    explanation := explain r (live.map (·.fingerprint)) (retained.map (·.fingerprint)) }

def inspection (c : Crypto) (d : Disk) (id : String) : Result RecoveryInspection := do
  validRecoveryName id
  if isReceiptName id = false then
    artifactInspection c d id "unreferenced saved or staged data; no original path is inferred"
  else match ← openInternal d.tree.saved id with
    | none => .error (.usage "recovery receipt is absent")
    | some f =>
      if maxReceipt < f.bytes.length then
        artifactInspection c d id "receipt exceeds 64 KiB; raw metadata only, no original path is inferred"
      else match readAndParse d.tree.saved id with
        | .error _ =>
          artifactInspection c d id "malformed receipt; raw metadata only, no original path is inferred"
        | .ok r => inspectReceipt c d id r

/-- What the owner is shown of an artifact. -/
def recoveryInspect (c : Crypto) (d : Disk) (id : String) : Result RecoveryInspection := do
  openTree d.tree.live
  inspection c d id

/-! ## Listing -/

def maxRecoveryPage : ℕ := 128

structure RecoveryEntry where
  id : String
  path : Option String
  state : String
  problem : Option String
  deriving DecidableEq, Repr

structure RecoveryUsage where
  bytes : ℕ
  entries : ℕ
  limitBytes : ℕ
  limitEntries : ℕ
  admissionBlocked : Bool
  deriving DecidableEq, Repr

structure RecoveryList where
  body : String
  usage : RecoveryUsage
  blocked : Bool
  entries : List RecoveryEntry
  nextCursor : Option String
  deriving DecidableEq, Repr

/-- Addition of unsigned 64-bit numbers that stops at the largest one. -/
def saturatingAdd (a b : ℕ) : ℕ := min (a + b) (2 ^ 64 - 1)

def usageFromTotals (bytes entries : ℕ) : RecoveryUsage where
  bytes := bytes
  entries := entries
  limitBytes := maxRecoveryBytes
  limitEntries := maxRecoveryEntries
  admissionBlocked := decide (maxRecoveryBytes ≤ saturatingAdd bytes recoveryReserve) ||
    decide (maxRecoveryEntries ≤ saturatingAdd entries 8)

/-- What a listing keeps while it streams the directory. -/
structure Selection where
  bytes : ℕ
  count : ℕ
  names : OrdSet String

/-- One name of the directory. The smallest names behind the cursor are kept, one more than a page holds. -/
def Selection.visit (saved : OrdMap String Artifact) (cursor : Option String) (limit : ℕ) (s : Selection)
    (name : String) : Result Selection := do
  validRecoveryName name
  return {
    bytes := saturatingAdd s.bytes ((saved.get? name).elim 0 (·.size))
    count := saturatingAdd s.count 1
    names := if cursor.all (fun cursor => cursor < name) then OrdMap.insertWithin (limit + 1) s.names name
      else s.names }

/-- The data of a page that a receipt owns, wherever that receipt is listed. -/
def linkOwner (saved : OrdMap String Artifact) (names linked : OrdSet String) (id : String) :
    Result (OrdSet String) := do
  validRecoveryName id
  if isReceiptName id = true then
    match readAndParse saved id with
    | .ok r => return if names.contains r.version then linked.insert r.version () else linked
    | .error _ => return linked
  else return linked

/-- A receipt whose version is as it was displaced. -/
def RecoveryInspection.healthy (view : RecoveryInspection) : Bool :=
  decide (view.receipt.state = .retained ∨ view.receipt.state = .resolved) &&
    decide (view.retained.map (·.fingerprint) = view.receipt.expected)

def receiptEntry (c : Crypto) (d : Disk) (id : String) : RecoveryEntry :=
  match inspection c d id with
  | .ok view =>
    if view.recorded = false then ⟨id, none, "unreferenced", some view.explanation⟩
    else ⟨id, some view.receipt.path, view.receipt.state.text,
      if view.healthy = true then none else some view.explanation⟩
  | .error e => ⟨id, none, "invalid", some e.text⟩

/-- The live version is observed once more before a row is presented as healthy. -/
def recheckLive (c : Crypto) (d : Disk) (entry : RecoveryEntry) : RecoveryEntry :=
  match entry.path with
  | none => entry
  | some path =>
    if path = "" then entry
    else match snapshotLive c d path with
      | .ok _ => entry
      | .error e => { entry with problem := some e.text }

def unreferencedEntry (id : String) : RecoveryEntry :=
  ⟨id, none, "unreferenced", some "unreferenced recovery data; preserved, never automatically deleted"⟩

/-- A page of the recovery directory. The directory is read twice, each time in an order of its own. -/
def listRecoveryPage (c : Crypto) (d : Disk) (body : String) (first second : List String)
    (cursor : Option String) (limit : ℕ) : Result RecoveryList := do
  refuseIf (limit = 0 ∨ maxRecoveryPage < limit) (.usage "recovery page size must be 1 through 128")
  cursor.forM validRecoveryName
  let selected ← first.foldlM (Selection.visit d.tree.saved cursor limit) ⟨0, 0, ∅⟩
  let full := decide (limit < selected.names.size)
  let names := if full then selected.names.popLast else selected.names
  let nextCursor := if full then names.keys.getLast? else none
  let usage := usageFromTotals selected.bytes selected.count
  let linked ← second.foldlM (linkOwner d.tree.saved names) ∅
  let receipts := (names.keys.filter isReceiptName).map (fun id => recheckLive c d (receiptEntry c d id))
  let data := (names.keys.filter (fun id => !isReceiptName id && !linked.contains id)).map unreferencedEntry
  let entries := (receipts ++ data).insertionSort (fun a b => a.id ≤ b.id)
  return {
    body := body
    usage := usage
    blocked := usage.admissionBlocked || entries.any (·.problem.isSome)
    entries := entries
    nextCursor := nextCursor }

/-! ## Owner actions -/

inductive RecoveryChoice where
  | keepLive
  | restoreRetained
  deriving DecidableEq, Repr

/-- A new file of the recovery directory: its temporary name, and its metadata under the name it gets. -/
structure Draft where
  tmp : String
  stamp : Stamp

namespace Disk

def write (d : Disk) (name : String) (artifact : Artifact) (stamp : Stamp) : Disk where
  tree := { d.tree with saved := d.tree.saved.insert name artifact }
  stats := { d.stats with saved := Function.update d.stats.saved name stamp }

def unlink (d : Disk) (name : String) : Result Disk :=
  match d.tree.saved.get? name with
  | none => .error notFound
  | some _ => .ok { d with tree := { d.tree with saved := d.tree.saved.erase name } }

end Disk

def writeTypedReceipt (draft : Draft) (id : String) (r : RecoveryReceipt) (d : Disk) : Result Disk := do
  validRecoveryName id
  match d.tree.saved.get? (draft.tmp ++ ".tmp") with
  | some _ => .error (.io "File exists (os error 17)")
  | none => return d.write id (.ofReceipt r) draft.stamp

def matchesVersion (f : File) (stamp : Stamp) (v : RecoveryVersion) : Bool :=
  decide (f.bytes.length = v.bytes) && decide (permissions f.mode = v.fingerprint.mode) && decide (stamp = v.stamp)

def checkOptionalFile (f : Option (File × Stamp)) (expected : Option RecoveryVersion) : Result Unit :=
  refuseIf ((match f, expected with
    | some (f, stamp), some v => matchesVersion f stamp v
    | none, none => true
    | _, _ => false) = false)
    (changed "inspected version changed during recovery export")

def staleInspection : ClixError := changed "recovery inspection is stale; inspect again"

/-- What is checked before a receipt is resolved. -/
def resolveStart (c : Crypto) (s : Store) (id token : String) (d : Disk) : Result RecoveryInspection := do
  Store.ensureWritable s
  openTree d.tree.live
  let before ← inspection c d id
  refuseIf (before.token ≠ token) staleInspection
  refuseIf (before.recorded = false)
    (.usage "unreferenced data has no destination; export it or explicitly discard it")
  refuseIf (before.receipt.state = .discarding)
    (.usage "finish the interrupted discard before resolving this receipt")
  return before

/-- Put the retained version back, through the journal of a change. `later` are the metadata after it. -/
def restoreRetained (c : Crypto) (host : Host) (s : Store) (ids : Ids) (later : Stats) (id token : String)
    (before : RecoveryInspection) (d : Disk) : Result Unit × Disk :=
  match before.retained with
  | none => (.error (.usage "there is no retained version to restore"), d)
  | some source =>
    match openInternal d.tree.saved before.receipt.version with
    | .error e => (.error e, d)
    | .ok none => (.error (.usage "recovery version is absent"), d)
    | .ok (some f) =>
      if maxFile < f.bytes.length then
        (.error (.usage "recovery read exceeds the supported size; data was preserved"), d)
      else if fingerprint c f.bytes source.fingerprint.mode ≠ source.fingerprint ∨
          (inspection c d id).map (·.token) ≠ .ok token then
        (.error (changed "retained version changed before restoration"), d)
      else
        let ch : Change :=
          ⟨before.receipt.path, before.live.map (·.fingerprint), some source.fingerprint, false⟩
        match applyChecks c host s d.tree ch (some f.bytes) [id] with
        | .error e => (.error e, d)
        | .ok false => (.ok (), d)
        | .ok true =>
          let (result, t) := performAll
            (journalOps ids ch f.bytes [id] ++ publishOp ids ch :: settleOps c ids ch [id]) d.tree
          (result, ⟨t, later⟩)

/-- Nothing but a restoration may have changed since the first inspection; then the receipt is resolved. -/
def resolveFinish (c : Crypto) (draft : Draft) (id : String) (choice : RecoveryChoice)
    (before : RecoveryInspection) (d : Disk) : Result Disk := do
  let after ← inspection c d id
  refuseIf (after.receipt ≠ before.receipt) (changed "recovery receipt changed during resolution")
  refuseIf (after.retained ≠ before.retained)
    (changed "retained version changed during resolution; all versions were preserved")
  refuseIf (choice = .keepLive ∧ after.live ≠ before.live) (changed "live version changed during resolution")
  let retained ← openInternal d.tree.saved before.receipt.version
  checkOptionalFile (retained.map (fun f => (f, d.stats.saved before.receipt.version))) after.retained
  writeTypedReceipt draft id { before.receipt with
    expected := after.retained.map (·.fingerprint)
    replacement := after.live.map (·.fingerprint)
    state := .resolved } d

def recoveryResolve (c : Crypto) (host : Host) (s : Store) (ids : Ids) (later : Stats) (draft : Draft)
    (id token : String) (choice : RecoveryChoice) (d : Disk) : Result RecoveryInspection × Disk :=
  match resolveStart c s id token d with
  | .error e => (.error e, d)
  | .ok before =>
    match (match choice with
      | .keepLive => (.ok (), d)
      | .restoreRetained => restoreRetained c host s ids later id token before d : Result Unit × Disk) with
    | (.error e, d) => (.error e, d)
    | (.ok (), d) =>
      match resolveFinish c draft id choice before d with
      | .error e => (.error e, d)
      | .ok d => (inspection c d id, d)

/-- What is checked before something is discarded. -/
def discardStart (c : Crypto) (s : Store) (id token : String) (d : Disk) : Result RecoveryInspection := do
  Store.ensureWritable s
  openTree d.tree.live
  let view ← inspection c d id
  let resume := decide (view.receipt.state = .discarding ∧ view.receipt.discardToken = some token)
  refuseIf (view.token ≠ token ∧ resume = false) staleInspection
  refuseIf (view.receipt.state = .pending)
    (.usage "resolve the interrupted publication before discarding its retained version")
  refuseIf (resume = true ∧ view.retained.map (·.fingerprint) ≠ view.receipt.expected ∧ view.retained ≠ none)
    (changed "retained version changed during interrupted discard")
  return view

def discarding (view : RecoveryInspection) (token : String) : RecoveryReceipt :=
  { view.receipt with
    state := .discarding
    expected := view.retained.map (·.fingerprint)
    discardToken := some token }

/-- Take away what was inspected, and then the journal of the discard. -/
def discardFinish (c : Crypto) (view : RecoveryInspection) (journal : String) (d : Disk) : Result Unit × Disk :=
  match snapshotInternal c d view.receipt.version with
  | .error e => (.error e, d)
  | .ok current =>
    if current ≠ view.retained then (.error (changed "retained version changed before discard"), d)
    else match (if current = none then .ok d else d.unlink view.receipt.version) with
      | .error e => (.error e, d)
      | .ok d =>
        match d.unlink journal with
        | .error e => (.error e, d)
        | .ok d => (.ok (), d)

/-- `fresh` is the ID drawn for the journal of an artifact without a receipt. -/
def recoveryDiscard (c : Crypto) (s : Store) (draft : Draft) (fresh id token : String) (d : Disk) :
    Result Unit × Disk :=
  match discardStart c s id token d with
  | .error e => (.error e, d)
  | .ok view =>
    let journal := if view.recorded = true then id else fresh ++ ".json"
    match writeTypedReceipt draft journal (discarding view token) d with
    | .error e => (.error e, d)
    | .ok d => discardFinish c view journal d

end Clix.Pin
