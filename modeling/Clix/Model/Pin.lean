import Clix.Model.Update
import Clix.Model.Encode
import Clix.ToMathlib.ThreeWay

/-! # Planning a pin synchronization

A manifest maps the paths of a tree, as text, to the fingerprints of their files. A plan compares two
manifests with the one both machines last agreed on and lists, per path, the change that one of the
sides has to make.
-/

namespace Clix

open Except

/-- The paths of a tree with what each file holds. -/
abbrev Manifest := OrdMap String Fingerprint

namespace Pin

def recovery : String := ".clix-recovery"
def maxFile : ℕ := 16 * 1024 * 1024
def maxPinEntries : ℕ := 4096
def maxDepth : ℕ := 64

/-- What a machine serves to a peer that wants to synchronize. -/
structure Listing where
  files : Manifest
  baseline : Manifest
  deriving DecidableEq

structure Change where
  path : String
  expected : Option Fingerprint
  new : Option Fingerprint
  toRemote : Bool
  deriving DecidableEq, Repr

def key (pk : Bytes) : String := Crypto.hex pk

/-- Pin is opt-in per machine. -/
def ensureEnabled (s : Store) : Result Unit :=
  refuseIf (s.pinEnabled = false)
    (.usage ("pin is off on " ++ s.bodyName ++ "; enable it there with clix pin on"))

def conflict (path a b : String) : ClixError := .pinConflict ("src/" ++ path) a b

def changed (path : String) : ClixError := .pinConflict ("src/" ++ path) "scanned version" "current version"

/-- The text between the slashes of a path. -/
def parts (rel : String) : List String := (rel.toList.splitOn '/').map String.ofList

/-- Anything inside a `.git` directory is never synchronized. -/
def excluded (rel : String) : Bool := (parts rel).contains ".git"

/-- Whether every component of a path is a plain name. An empty part or a dot counts as no component,
unless the path starts with it. -/
def isNormal (rel : String) : Bool :=
  match parts rel with
  | [] => false
  | first :: rest => first != "" && first != "." && first != ".." && !rest.contains ".."

def validPath (rel : String) : Result Unit :=
  refuseIf (isNormal rel = false ∨ (parts rel).contains recovery = true ∨ excluded rel = true)
    (.protocol "invalid pin path")

def fingerprint (c : Crypto) (bytes : Bytes) (mode : UInt32) : Fingerprint := ⟨c.hash bytes, mode⟩

/-- The change one path needs, and its merged value. -/
def planPath (a b path : String) (l r base : Option Fingerprint) :
    Result (Option Change × Option Fingerprint) := do
  validPath path
  if l = r then return (none, l)
  else if l = base then return (some ⟨path, l, r, false⟩, r)
  else if r = base then return (some ⟨path, r, l, true⟩, l)
  else .error (conflict path a b)

/-- The paths of some manifests, in order. -/
def paths (manifests : List Manifest) : List String :=
  ((∅ : OrdSet String).extend (manifests.flatMap (·.keys))).keys

/-- Plan the paths in order, with the changes and the merged files so far. -/
def planPaths (loc rem base : Manifest) (a b : String) (changes : List Change) (merged : Manifest) :
    List String → Result (List Change × Manifest)
  | [] => .ok (changes, merged)
  | path :: rest => do
    let (change, selected) ← planPath a b path (loc.get? path) (rem.get? path) (base.get? path)
    planPaths loc rem base a b (changes ++ change.toList) (selected.elim merged (merged.insert path)) rest

def plan (loc rem base : Manifest) (a b : String) : Result (List Change × Manifest) :=
  planPaths loc rem base a b [] ∅ (paths [loc, rem, base])

/-- Drop excluded paths, which old baselines and older peers may still carry. -/
def withoutExcluded (manifest : Manifest) : Manifest := manifest.restrict (fun path => !excluded path)

def baseline (s : Store) (peer : Bytes) : Manifest :=
  withoutExcluded ((s.pinIndex.peers.get? (key peer)).getD ∅)

def commonBaseline (a b loc rem : Manifest) : Result Manifest :=
  if a = b then .ok a
  else if loc = rem then .ok loc
  else .error (conflict "(sync baseline)" "local baseline" "peer baseline")

/-- What the initiator of a synchronization plans, from its own baseline and a validated listing. -/
def syncPlan (own loc : Manifest) (remote : Listing) (a b : String) : Result (List Change × Manifest) := do
  let base ← commonBaseline own remote.baseline loc remote.files
  plan loc remote.files base a b

/-- Remember a manifest as what was last agreed on with a peer. -/
def recordEdit (now : UInt64) (pk : Bytes) (manifest : Manifest) (s : Store) : Result (Store × Unit) :=
  .ok ({ s with pinIndex := {
    peers := s.pinIndex.peers.insert (key pk) manifest
    lastSync := some now
    hashes := manifest.mapValues (fun _ f => f.hash)
    lastError := none } }, ())

/-- Bound and validate a peer's listing, without its excluded paths. -/
def validateListing (list : Listing) : Result Listing := do
  refuseIf (maxPinEntries < list.files.size ∨ maxPinEntries < list.baseline.size)
    (.protocol "peer pin listing exceeds 4096 entries")
  let list : Listing := ⟨withoutExcluded list.files, withoutExcluded list.baseline⟩
  (list.files.keys ++ list.baseline.keys).forM validPath
  return list

/-! ## Conflicts shown to the owner -/

structure PinConflictSnapshot where
  peer : String
  peerKey : String
  path : String
  local_ : Option Fingerprint
  remote : Option Fingerprint
  localBaseline : Option Fingerprint
  remoteBaseline : Option Fingerprint
  token : String
  deriving DecidableEq, Repr

structure PinConflictReport where
  peer : String
  baselineMismatch : Bool
  conflicts : List PinConflictSnapshot

def conflictSnapshot (c : Crypto) (peer : Peer) (path : String) (l r a b : Option Fingerprint) :
    PinConflictSnapshot where
  peer := peer.name.name
  peerKey := key peer.ownerPk
  path := path
  local_ := l
  remote := r
  localBaseline := a
  remoteBaseline := b
  token := c.hash (Json.array [Json.toVec peer.name.name, Json.toVec (key peer.ownerPk), Json.toVec path,
    Json.toVec l, Json.toVec r, Json.toVec a, Json.toVec b])

/-- Whether a path is shown as a conflict: the sides differ, and either what they last agreed on is not
the same or both have changed it. -/
def isConflict (l r a b : Option Fingerprint) : Bool :=
  decide (l ≠ r) && (decide (a ≠ b) || (decide (l ≠ a) && decide (r ≠ a)))

/-- The report on a validated listing of a peer. -/
def inspectPeerConflicts (c : Crypto) (peer : Peer) (base loc : Manifest) (remote : Listing) :
    PinConflictReport where
  peer := peer.name.name
  baselineMismatch := decide (base ≠ remote.baseline)
  conflicts := ((paths [loc, remote.files, base, remote.baseline]).filter (fun path =>
      isConflict (loc.get? path) (remote.files.get? path) (base.get? path) (remote.baseline.get? path))).map
    (fun path => conflictSnapshot c peer path (loc.get? path) (remote.files.get? path) (base.get? path)
      (remote.baseline.get? path))

end Pin

end Clix
