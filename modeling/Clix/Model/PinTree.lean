import Clix.Model.Pin
import Mathlib.Data.List.Lex

/-! # The tree that pin synchronizes

The live files of a machine below its pin root, and the recovery directory in which every displaced
version is kept under a receipt. A change is applied by a sequence of file operations, each atomic; the
machine may stop between any two of them, and another program may write to the path meanwhile. The recovery
directory is there and its owner can use it; it is kept apart from the live nodes, without its lock file.
-/

namespace Clix

namespace Pin

open Except

/-- A regular file. Only the permission bits of its mode take part in a fingerprint. -/
structure File where
  bytes : Bytes
  mode : UInt32
  deriving DecidableEq, Repr

def permissions (mode : UInt32) : UInt32 := mode &&& 0o777

def File.fingerprint (c : Crypto) (f : File) : Fingerprint := Pin.fingerprint c f.bytes (permissions f.mode)

/-! ## Access

The program owns its tree and is no superuser, so the owner's bits of a mode decide.
-/

def mayRead (mode : UInt32) : Bool := mode &&& 0o400 != 0

def mayWrite (mode : UInt32) : Bool := mode &&& 0o200 != 0

def maySearch (mode : UInt32) : Bool := mode &&& 0o100 != 0

/-- What the file system tells about a directory. -/
structure Directory where
  mode : UInt32
  size : ℕ
  deriving DecidableEq, Repr

/-- A directory as this program makes it. -/
def Directory.made : Directory := ⟨0o755, 4096⟩

inductive Node where
  | dir
  | file (f : File)
  | link (target : String)
  | special
  deriving DecidableEq, Repr

/-! ## Live nodes -/

/-- A name a directory can hold. -/
def Named (name : String) : Prop :=
  name ≠ "" ∧ name ≠ "." ∧ name ≠ ".." ∧ '/' ∉ name.toList ∧ name.utf8ByteSize ≤ 255

instance (name : String) : Decidable (Named name) := inferInstanceAs (Decidable (_ ∧ _))

/-- The nodes below the pin root by their names from the root, and what is told about the directories among
them and the root. Every node is in a directory, and the recovery directory is none of them. -/
structure Live where
  nodes : OrdMap (List String) Node
  dirs : List String → Directory
  named : ∀ path node, nodes.get? path = some node → path ≠ [] ∧ ∀ name ∈ path, Named name
  closed : ∀ path name node, nodes.get? (path ++ [name]) = some node →
    path = [] ∨ nodes.get? path = some .dir
  foreign : ∀ path node, nodes.get? path = some node → path.head? ≠ some recovery
  unmade : ∀ path, path ≠ [] → nodes.get? path ≠ some .dir → dirs path = .made

namespace Live

def empty : Live where
  nodes := ∅
  dirs _ := .made
  named _ _ found := absurd found (by simp)
  closed _ _ _ found := absurd found (by simp)
  foreign _ _ found := absurd found (by simp)
  unmade _ _ _ := rfl

/-- The node at a path; the root is a directory. -/
def node? (live : Live) (path : List String) : Option Node :=
  if path = [] then some .dir else live.nodes.get? path

/-- Whether a directory can take a node under a name without losing what is below that name. -/
structure Fits (live : Live) (dir : List String) (name : String) : Prop where
  parent : live.node? dir = some .dir
  named : Named name
  leaf : live.node? (dir ++ [name]) ≠ some .dir
  foreign : (dir ++ [name]).head? ≠ some recovery

theorem fits_iff {live : Live} {dir : List String} {name : String} : live.Fits dir name ↔
    live.node? dir = some .dir ∧ Named name ∧ live.node? (dir ++ [name]) ≠ some .dir ∧
      (dir ++ [name]).head? ≠ some recovery :=
  ⟨fun fits => ⟨fits.parent, fits.named, fits.leaf, fits.foreign⟩,
    fun ⟨parent, named, leaf, foreign⟩ => ⟨parent, named, leaf, foreign⟩⟩

instance (live : Live) (dir : List String) (name : String) : Decidable (live.Fits dir name) :=
  decidable_of_iff _ fits_iff.symm

theorem named_of_node? {live : Live} {path : List String} {node : Node} (found : live.node? path = some node) :
    ∀ name ∈ path, Named name := by
  unfold node? at found
  split_ifs at found with top
  · subst top
    exact fun _ member => absurd member List.not_mem_nil
  · exact (live.named path node found).2

private theorem closed_of {live : Live} {path : List String} {name : String} {node : Node}
    (found : live.nodes.get? (path ++ [name]) = some node) : live.node? path = some .dir := by
  unfold node?
  split_ifs with top
  · rfl
  · exact (live.closed path name node found).resolve_left top

/-- Put a node in a directory, in place of one that is no directory. -/
def put (live : Live) (dir : List String) (name : String) (node : Node) (fits : live.Fits dir name) : Live where
  nodes := live.nodes.insert (dir ++ [name]) node
  dirs := live.dirs
  named path found there := by
    rw [OrdMap.get?_insert] at there
    split_ifs at there with same
    · subst same
      refine ⟨by simp, fun part member => ?_⟩
      rcases List.mem_append.mp member with inside | last
      · exact named_of_node? fits.parent part inside
      · exact List.mem_singleton.mp last ▸ fits.named
    · exact live.named path found there
  closed path last found there := by
    have parent : live.node? path = some .dir := by
      rw [OrdMap.get?_insert] at there
      split_ifs at there with same
      · rw [(List.append_inj' same rfl).1]
        exact fits.parent
      · exact closed_of there
    by_cases top : path = []
    · exact .inl top
    · refine .inr ?_
      rw [OrdMap.get?_insert, if_neg (fun same : path = dir ++ [name] => fits.leaf (same ▸ parent))]
      rw [node?, if_neg top] at parent
      exact parent
  foreign path found there := by
    rw [OrdMap.get?_insert] at there
    split_ifs at there with same
    · rw [same]
      exact fits.foreign
    · exact live.foreign path found there
  unmade path below other := by
    rw [OrdMap.get?_insert] at other
    split_ifs at other with same
    · have leaf := fits.leaf
      rw [← same, node?, if_neg below] at leaf
      exact live.unmade path below leaf
    · exact live.unmade path below other

/-- Take away a node with everything below it. -/
def cut (live : Live) (dir : List String) (name : String) : Live where
  nodes := live.nodes.restrict (fun path => !(dir ++ [name]).isPrefixOf path)
  dirs path := if (dir ++ [name]).isPrefixOf path then .made else live.dirs path
  named path node there := by
    rw [OrdMap.get?_restrict] at there
    split_ifs at there
    exact live.named path node there
  closed path last node there := by
    rw [OrdMap.get?_restrict] at there
    split_ifs at there with kept
    refine (live.closed path last node there).imp_right (fun parent => ?_)
    rw [OrdMap.get?_restrict, if_pos, parent]
    rw [Bool.not_eq_true', ← Bool.not_eq_true, List.isPrefixOf_iff_prefix] at kept ⊢
    exact fun inside => kept (inside.trans (List.prefix_append _ _))
  foreign path node there := by
    rw [OrdMap.get?_restrict] at there
    split_ifs at there
    exact live.foreign path node there
  unmade path below other := by
    rw [OrdMap.get?_restrict] at other
    cases inside : (dir ++ [name]).isPrefixOf path with
    | true => rfl
    | false =>
      rw [inside] at other
      exact live.unmade path below other

/-! ### What a program may do -/

def listable (live : Live) (dir : List String) : Bool := mayRead (live.dirs dir).mode

def writable (live : Live) (dir : List String) : Bool := mayWrite (live.dirs dir).mode

def searchable (live : Live) (dir : List String) : Bool := maySearch (live.dirs dir).mode

/-- Whether every directory above a path can be searched. -/
def searched (live : Live) (path : List String) : Bool :=
  (List.range path.length).all (fun n => live.searchable (path.take n))

/-- Whether a node can be opened for reading. -/
def readable (live : Live) (path : List String) : Node → Bool
  | .dir => live.listable path
  | .file f => mayRead f.mode
  | .link _ => true
  | .special => true

/-- Whether a name of a directory can be given to another node. A directory is not moved to another one unless
it may be written itself. -/
def movable (live : Live) (dir : List String) (name : String) : Bool :=
  live.writable dir && live.searchable dir &&
    (live.node? (dir ++ [name]) != some .dir || live.writable (dir ++ [name]))

/-- A node with everything below it, by the names from it. -/
def branch (live : Live) (path : List String) : List (List String × Node × Directory) :=
  (live.nodes.entries.filter (fun e => path.isPrefixOf e.1)).map
    (fun e => (e.1.drop path.length, e.2, live.dirs e.1))

end Live

def tooLong : ClixError := .io "File name too long (os error 36)"
def notDirectory : ClixError := .io "Not a directory (os error 20)"
def linkRefused : ClixError := .io "Too many levels of symbolic links (os error 40)"
def notFound : ClixError := .io "No such file or directory (os error 2)"
def accessDenied : ClixError := .io "Permission denied (os error 13)"
def isDirectory : ClixError := .io "Is a directory (os error 21)"

/-- Open the pin root and the recovery directory in it. -/
def openTree (live : Live) : Result Unit :=
  refuseIf (live.listable [] = false ∨ live.searchable [] = false) accessDenied

/-- Walk the parts of a path below a directory without following a link. Empty parts and dots stay where
they are. -/
def walk (live : Live) (dir : List String) : List String → Result (Option (List String × Node))
  | [] => .ok (some (dir, .dir))
  | part :: rest =>
    if part = "" then walk live dir rest
    else if live.searchable dir = false then .error accessDenied
    else if part = "." then walk live dir rest
    else if 255 < part.utf8ByteSize then .error tooLong
    else match live.node? (dir ++ [part]) with
      | none => .ok none
      | some .dir => walk live (dir ++ [part]) rest
      | some (.link _) => .error linkRefused
      | some (.file f) => if rest = [] then .ok (some (dir ++ [part], .file f)) else .error notDirectory
      | some .special => if rest = [] then .ok (some (dir ++ [part], .special)) else .error notDirectory

/-- Paths given to the kernel hold no zero byte and are below its limit. -/
def ensurePassable (rel : String) : Result Unit := do
  refuseIf (Char.ofNat 0 ∈ rel.toList) (.io "Invalid argument (os error 22)")
  refuseIf (4096 ≤ rel.utf8ByteSize) tooLong

/-- Open what is live at a path for reading, from the root on. Only a missing name counts as absent. -/
def openat2 (live : Live) (rel : String) : Result (Option (List String × Node)) := do
  openTree live
  ensurePassable rel
  match ← walk live [] (parts rel) with
  | none => return none
  | some (place, node) => do
    refuseIf (live.readable place node = false) accessDenied
    return some (place, node)

def read (live : Live) (path : String) : Result (Option File) := do
  validPath path
  match ← openat2 live path with
  | none => return none
  | some (_, .file f) => do
    refuseIf (maxFile < f.bytes.length) (.protocol ("pin file exceeds 16 MiB: " ++ path))
    return some f
  | some _ => .error (.protocol ("pin supports regular files only: " ++ path))

/-- Open a directory of the tree by its path. -/
def openRel (live : Live) (rel : String) : Result Unit := do
  match ← openat2 live rel with
  | some (_, .dir) => return ()
  | some _ => .error notDirectory
  | none => .error notFound

/-! ## Receipts -/

def maxReceipt : ℕ := 64 * 1024
def maxRecoveryBytes : ℕ := 256 * 1024 * 1024
def maxRecoveryEntries : ℕ := 4096
def recoveryReserve : ℕ := 1024 * 1024

inductive RecoveryState where
  | pending
  | retained
  | resolved
  | discarding
  deriving DecidableEq, Repr

def RecoveryState.text : RecoveryState → String
  | pending => "pending"
  | retained => "retained"
  | resolved => "resolved"
  | discarding => "discarding"

structure RecoveryReceipt where
  path : String
  expected : Option Fingerprint
  replacement : Option Fingerprint
  version : String
  state : RecoveryState
  sourceReceipt : Option String
  discardToken : Option String
  deriving DecidableEq, Repr

/-- A receipt is written with its fields in the order of their names, absent optional ones left out. -/
instance : Json.Serialize RecoveryReceipt where
  toVec r := Json.object (
    (r.discardToken.map (fun token => Json.field "discard_token" (Json.toVec token))).toList ++
    [Json.field "expected" (Json.toVec r.expected), Json.field "path" (Json.toVec r.path),
      Json.field "replacement" (Json.toVec r.replacement)] ++
    (r.sourceReceipt.map (fun source => Json.field "source_receipt" (Json.toVec source))).toList ++
    [Json.field "state" (Json.string r.state.text), Json.field "version" (Json.toVec r.version)])

/-- An entry of the recovery directory. A receipt is kept with what its text stands for, and what is no regular
file with everything below it. -/
inductive Artifact where
  | receipt (text : Bytes) (value : RecoveryReceipt)
  | file (f : File)
  | other (size : ℕ) (content : List (List String × Node × Directory))
  deriving DecidableEq, Repr

namespace Artifact

def size : Artifact → ℕ
  | receipt text _ => text.length
  | file f => f.bytes.length
  | other size _ => size

def value? : Artifact → Option RecoveryReceipt
  | receipt _ value => some value
  | file _ => none
  | other _ _ => none

/-- A receipt as this program writes it. -/
def ofReceipt (r : RecoveryReceipt) : Artifact := receipt (Json.toVec r) r

/-- The file behind an entry. -/
def file? : Artifact → Option File
  | receipt text _ => some ⟨text, 0o600⟩
  | file f => some f
  | other _ _ => none

end Artifact

/-- The live files of a machine and its recovery directory. -/
structure Tree where
  live : Live
  saved : OrdMap String Artifact

def endsWith (name ending : String) : Bool := ending.toList.isSuffixOf name.toList

def isReceiptName (name : String) : Bool := endsWith name ".json"

def validRecoveryName (name : String) : Result Unit :=
  refuseIf (name = "" ∨ 200 < name.utf8ByteSize ∨ name = ".lock" ∨ name = "." ∨ name = ".." ∨
      (parts name).length ≠ 1)
    (.protocol "invalid recovery ID")

/-- The bytes and the number of the entries kept for recovery. -/
def recoveryUsage (saved : OrdMap String Artifact) : Result (ℕ × ℕ) := do
  saved.keys.forM validRecoveryName
  return ((saved.entries.map (fun e => e.2.size)).sum, saved.size)

/-- The names of the entries kept for recovery, in order. -/
def recoveryNames (saved : OrdMap String Artifact) : Result (List String) := do
  refuseIf (maxRecoveryEntries + 16 < saved.size)
    (.usage "recovery directory exceeds its entry limit; no data was deleted")
  return saved.keys

/-- The file of an entry; an absent one is none. -/
def openInternal (saved : OrdMap String Artifact) (name : String) : Result (Option File) := do
  validRecoveryName name
  match saved.get? name with
  | none => .ok none
  | some artifact =>
    match artifact.file? with
    | none => .error (.protocol "recovery entries must be regular files")
    | some f => do
      refuseIf (mayRead f.mode = false) accessDenied
      return some f

def internalSnapshot (c : Crypto) (saved : OrdMap String Artifact) (name : String) :
    Result (Option Fingerprint) := do
  let f ← openInternal saved name
  return f.map (·.fingerprint c)

/-- The text of an entry that is not longer than a receipt may be. -/
def readReceipt (saved : OrdMap String Artifact) (name : String) : Result RecoveryReceipt := do
  let f ← openInternal saved name
  match f with
  | none => .error (.usage "recovery version is absent")
  | some f => do
    refuseIf (maxReceipt < f.bytes.length)
      (.usage "recovery read exceeds the supported size; data was preserved")
    match (saved.get? name).bind (·.value?) with
    | none => .error (.protocol ("invalid recovery receipt " ++ name))
    | some r => .ok r

/-- Only a discarded artifact without an origin has no path. -/
def validReceiptPath (r : RecoveryReceipt) : Result Unit :=
  if r.path ≠ "" ∨ r.state ≠ .discarding then validPath r.path else .ok ()

def parseReceipt (r : RecoveryReceipt) : Result RecoveryReceipt := do
  validReceiptPath r
  validRecoveryName r.version
  refuseIf ((endsWith r.version ".json" = true ∧ ¬(r.state = .discarding ∧ r.path = "")) ∨
      (endsWith r.version ".tmp" = true ∧ r.state ≠ .discarding))
    (.protocol "recovery version must name a data file")
  return r

/-- One receipt must be settled, and the version it names must be as it was displaced. -/
def checkReceipt (c : Crypto) (saved : OrdMap String Artifact) (name : String) : Result Unit := do
  let r ← readReceipt saved name
  refuseIf (r.state ≠ .retained ∧ r.state ≠ .resolved)
    (changed (r.path ++ "; owner must review " ++ recovery ++ "/" ++ name ++ " before syncing"))
  let r ← parseReceipt r
  let actual ← internalSnapshot c saved r.version
  refuseIf (actual ≠ r.expected)
    (changed (r.path ++ "; retained version changed, review " ++ recovery ++ "/" ++ name))

/-- The version a receipt names, if its text reads as a receipt. -/
def versionOf (saved : OrdMap String Artifact) (name : String) : Option String :=
  ((saved.get? name).bind (·.value?)).map (·.version)

/-- Whether the receipt of an explicit recovery owns a staged file. -/
def ownedBy (saved : OrdMap String Artifact) (name id : String) : Bool :=
  match readReceipt saved id with
  | .error _ => false
  | .ok r =>
    match parseReceipt r with
    | .error _ => false
    | .ok r => r.version == name

def checkRecoveryExcept (c : Crypto) (saved : OrdMap String Artifact) (ignored : List String) :
    Result Unit := do
  let (bytes, entries) ← recoveryUsage saved
  refuseIf (maxRecoveryBytes < bytes ∨ maxRecoveryEntries < entries)
    (.usage "pin recovery storage is over its limit; use clix pin list and review retained versions")
  let names ← recoveryNames saved
  let receipts := names.filter (fun name => isReceiptName name && !ignored.contains name)
  receipts.forM (checkReceipt c saved)
  let referenced := receipts.filterMap (versionOf saved)
  (names.filter (fun name => !isReceiptName name && !referenced.contains name)).forM (fun name =>
    refuseIf (ignored.any (ownedBy saved name) = false)
      (changed ("unreferenced recovery data " ++ name ++ "; inspect it before syncing")))

def admitRecovery (saved : OrdMap String Artifact) (extraBytes extraEntries : ℕ) : Result Unit := do
  let (bytes, entries) ← recoveryUsage saved
  refuseIf (maxRecoveryBytes < bytes + extraBytes + recoveryReserve ∨
      maxRecoveryEntries < entries + extraEntries + 8)
    (.usage ("pin recovery capacity reached (" ++ toString bytes ++ " bytes, " ++ toString entries ++
      " entries); review retained versions before syncing"))

/-! ## Scanning -/

def join (path : List String) : String := String.ofList (['/'].intercalate (path.map String.toList))

/-- What a scan comes across: everything but the content of excluded directories. -/
def visited (live : Live) : List (List String × Node) :=
  live.nodes.entries.filter (fun e => !e.1.dropLast.contains ".git")

/-- What a scan makes of one entry. -/
def scanNode (c : Crypto) (live : Live) (path : List String) (node : Node) : Result (Option Fingerprint) :=
  if excluded (join path) = true then .ok none
  else match node with
    | .dir => do
      openRel live (join path)
      return none
    | .file _ => do
      match ← read live (join path) with
      | none => .error (changed (join path))
      | some f => return some (f.fingerprint c)
    | .link _ => .error (.protocol ("unsupported pin entry (symlink or special file): " ++ join path))
    | .special => .error (.protocol ("unsupported pin entry (symlink or special file): " ++ join path))

def scanNodes (c : Crypto) (live : Live) (out : Manifest) : List (List String × Node) → Result Manifest
  | [] => .ok out
  | e :: rest => do
    let found ← scanNode c live e.1 e.2
    scanNodes c live (found.elim out (out.insert (join e.1))) rest

/-- The regular files of a tree. The order in which a directory lists its names decides which of several
errors is reported; here it is the order of the names. -/
def scan (c : Crypto) (t : Tree) : Result Manifest := do
  openTree t.live
  checkRecoveryExcept c t.saved []
  refuseIf (maxPinEntries < (visited t.live).length ∨ ∃ e ∈ visited t.live, maxDepth < e.1.length)
    (.usage "pin tree exceeds 4096 entries or 64 directories of depth")
  scanNodes c t.live ∅ (visited t.live)

/-! ## Applying one change -/

/-- One operation on the file system; it fails without a change. -/
abbrev Op := Tree → Result Tree

/-- What the machine around the tree tells about paths outside it. -/
structure Host where
  /-- The pin root, canonical, by its names. -/
  root : List String
  /-- The canonical path of a file that exists, given the live tree. -/
  canonicalize : Live → String → Option (List String)
  /-- The absolute form of a path, by its text alone. -/
  absolute : String → Result (List String)
  /-- Whether the recovery directory is there already. Where the root cannot be written, nothing makes it. -/
  hasRecovery : Bool

/-- The names of a path in the tree. -/
def place (rel : String) : List String := (parts rel).filter (fun part => part != "" && part != ".")

/-- Make a directory unless the name is taken. -/
def mkdirat (dir : List String) (part : String) : Op := fun t =>
  if part = "" then .error notFound
  else if t.live.searchable dir = false then .error accessDenied
  else if part = "." then .ok t
  else if 255 < part.utf8ByteSize then .error tooLong
  else match t.live.node? (dir ++ [part]) with
    | some _ => .ok t
    | none =>
      if t.live.writable dir = false then .error accessDenied
      else if fits : t.live.Fits dir part then .ok { t with live := t.live.put dir part .dir fits }
      else .error notFound

/-- Open a directory in a directory. -/
def openat (dir : List String) (part : String) : Op := fun t =>
  if t.live.searchable dir = false then .error accessDenied
  else if part = "." then (if t.live.listable dir = false then .error accessDenied else .ok t)
  else match t.live.node? (dir ++ [part]) with
    | some .dir => if t.live.listable (dir ++ [part]) = false then .error accessDenied else .ok t
    | some (.link _) => .error linkRefused
    | some _ => .error notDirectory
    | none => .error notFound

/-- The directories above a path, made where they are missing. -/
def parentOps (dir : List String) : List String → List Op
  | [] => []
  | part :: rest =>
    mkdirat dir part :: openat dir part :: parentOps (if part = "." then dir else dir ++ [part]) rest

def parentDir (rel : String) : List String := (parts rel).dropLast.filter (fun part => part != ".")

def fileName (rel : String) : String := (parts rel).getLastD ""

/-- Create an entry of the recovery directory that does not exist yet. -/
def createExcl (name : String) (artifact : Artifact) : Op := fun t =>
  match t.saved.get? name with
  | some _ => .error (.io "File exists (os error 17)")
  | none => .ok { t with saved := t.saved.insert name artifact }

def writeSaved (name : String) (artifact : Artifact) : Op := fun t =>
  .ok { t with saved := t.saved.insert name artifact }

def renameSaved (name target : String) : Op := fun t =>
  match t.saved.get? name with
  | none => .error notFound
  | some artifact => .ok { t with saved := (t.saved.erase name).insert target artifact }

def unlinkSaved (name : String) : Op := fun t =>
  match t.saved.get? name with
  | none => .error notFound
  | some _ => .ok { t with saved := t.saved.erase name }

/-- Replace a receipt through a temporary file. -/
def writeReceipt (tmp name : String) (r : RecoveryReceipt) : List Op :=
  [createExcl (tmp ++ ".tmp") (.file ⟨[], 0o600⟩), writeSaved (tmp ++ ".tmp") (.ofReceipt r),
    renameSaved (tmp ++ ".tmp") name]

/-- The random IDs one application draws. -/
structure Ids where
  version : String
  first : String
  second : String

def Ids.receiptName (ids : Ids) : String := ids.version ++ ".json"

/-- Stage new content in the recovery directory. -/
def stageOps (version : String) (bytes : Bytes) (mode : UInt32) : List Op :=
  [createExcl version (.file ⟨[], 0o600⟩), writeSaved version (.file ⟨bytes, 0o600⟩),
    writeSaved version (.file ⟨bytes, mode⟩)]

/-- What a live node is once it is moved to the recovery directory. -/
def Live.taken (live : Live) (path : List String) : Option Artifact :=
  match live.node? path with
  | none => none
  | some .dir => some (.other (live.dirs path).size (live.branch path))
  | some (.file f) => some (.file f)
  | some (.link target) => some (.other target.utf8ByteSize (live.branch path))
  | some .special => some (.other 0 (live.branch path))

/-- Exchange the staged content and what is live, whatever it is. -/
def exchange (version : String) (rel : String) : Op := fun t =>
  match t.saved.get? version, t.live.taken (parentDir rel ++ [fileName rel]) with
  | some (.file staged), some displaced =>
    if fits : (t.live.cut (parentDir rel) (fileName rel)).Fits (parentDir rel) (fileName rel) ∧
        t.live.movable (parentDir rel) (fileName rel) = true then
      .ok ⟨(t.live.cut (parentDir rel) (fileName rel)).put (parentDir rel) (fileName rel) (.file staged) fits.1,
        t.saved.insert version displaced⟩
    else .error (changed rel)
  | _, _ => .error (changed rel)

/-- Move the staged content to a path at which nothing is live. -/
def moveIn (version : String) (rel : String) : Op := fun t =>
  match t.saved.get? version, t.live.node? (parentDir rel ++ [fileName rel]) with
  | some (.file staged), none =>
    if fits : t.live.Fits (parentDir rel) (fileName rel) ∧ t.live.movable (parentDir rel) (fileName rel) = true then
      .ok ⟨t.live.put (parentDir rel) (fileName rel) (.file staged) fits.1, t.saved.erase version⟩
    else .error (changed rel)
  | _, _ => .error (changed rel)

/-- Move what is live to the recovery directory, whatever it is. -/
def moveOut (version : String) (rel : String) : Op := fun t =>
  match t.saved.get? version, t.live.taken (parentDir rel ++ [fileName rel]) with
  | none, some displaced =>
    if t.live.movable (parentDir rel) (fileName rel) = true then
      .ok ⟨t.live.cut (parentDir rel) (fileName rel), t.saved.insert version displaced⟩
    else .error (changed rel)
  | _, _ => .error (changed rel)

/-- What was displaced must be what was expected. -/
def verify (c : Crypto) (ids : Ids) (ch : Change) (expected : Fingerprint) : Op := fun t =>
  match t.saved.get? ids.version with
  | some (.file f) => do
    refuseIf (mayRead f.mode = false) accessDenied
    refuseIf (fingerprint c (f.bytes.take (maxFile + 1)) (permissions f.mode) ≠ expected)
      (changed (ch.path ++ " (review " ++ recovery ++ "/" ++ ids.receiptName ++
        "; previous version retained at " ++ recovery ++ "/" ++ ids.version ++ ")"))
    return t
  -- Only the error of a directory is modelled: a link is refused with another one.
  | some (.other _ _) => .error isDirectory
  | _ => .error notFound

/-- Another program writes after some of the operations. It may leave anything at a path and below it, and
nothing else is touched. -/
structure Intrusion (path : List String) where
  after : ℕ
  write : Live → Live
  elsewhere : ∀ live other, path.isPrefixOf other = false →
    (write live).node? other = live.node? other ∧ (write live).dirs other = live.dirs other

def intrude (write : Live → Live) : Op := fun t => .ok { t with live := write t.live }

def receiptOf (ids : Ids) (ch : Change) (ignored : List String) (state : RecoveryState) : RecoveryReceipt where
  path := ch.path
  expected := ch.expected
  replacement := ch.new
  version := ids.version
  state := state
  sourceReceipt := ignored.head?
  discardToken := none

/-- The operations up to the publication of a change. -/
def journalOps (ids : Ids) (ch : Change) (bytes : Bytes) (ignored : List String) : List Op :=
  parentOps [] (parts ch.path).dropLast ++
  writeReceipt ids.first ids.receiptName (receiptOf ids ch ignored .pending) ++
  (match ch.new with
    | some new => stageOps ids.version bytes new.mode
    | none => [])

/-- The operation that publishes a change. -/
def publishOp (ids : Ids) (ch : Change) : Op :=
  match ch.new, ch.expected with
  | some _, some _ => exchange ids.version ch.path
  | some _, none => moveIn ids.version ch.path
  | none, _ => moveOut ids.version ch.path

/-- The operations after the publication. The receipt of a creation is removed: nothing was displaced. -/
def settleOps (c : Crypto) (ids : Ids) (ch : Change) (ignored : List String) : List Op :=
  match ch.expected with
  | some expected =>
    verify c ids ch expected :: writeReceipt ids.second ids.receiptName (receiptOf ids ch ignored .retained)
  | none =>
    writeReceipt ids.second ids.receiptName (receiptOf ids ch ignored .resolved) ++
      [unlinkSaved ids.receiptName]

/-- Operations in order, up to one that fails or to a stop after some of them. Nothing is returned by a
program that stopped. -/
def perform : List Op → ℕ → Tree → Option (Result Unit) × Tree
  | [], _, t => (some (.ok ()), t)
  | _ :: _, 0, t => (none, t)
  | op :: rest, steps + 1, t =>
    match op t with
    | .error e => (some (.error e), t)
    | .ok t => perform rest steps t

def withIntrusion {path : List String} (ops : List Op) : Option (Intrusion path) → List Op
  | none => ops
  | some i => ops.take i.after ++ intrude i.write :: ops.drop i.after

def checkContent (c : Crypto) (new : Option Fingerprint) (bytes : Option Bytes) : Result Unit :=
  match new, bytes with
  | none, _ => .ok ()
  | some _, none => .error (.protocol "pin content missing")
  | some new, some data =>
    refuseIf (new.mode &&& ~~~0o777 ≠ 0 ∨ fingerprint c data new.mode ≠ new)
      (.protocol "invalid pin content hash or mode")

/-- Pin never replaces a granted binary: the path of each is compared with the destination. -/
def checkGranted (host : Host) (live : Live) (destination : List String) (g : Grant) : Result Unit := do
  let absolute ← host.absolute g.binary
  refuseIf ((host.canonicalize live g.binary).getD absolute = destination)
    (.protocol ("pin would replace granted binary " ++ g.tool ++
      ". Remove its grant on this machine before syncing, then review and add it again."))

/-- Everything that is checked before the first write: whether there is anything to do. -/
def applyChecks (c : Crypto) (host : Host) (s : Store) (t : Tree) (ch : Change) (bytes : Option Bytes)
    (ignored : List String) : Result Bool := do
  Store.ensureWritable s
  checkRecoveryExcept c t.saved ignored
  checkContent c ch.new bytes
  let current ← read t.live ch.path
  -- Retry after publication, before the acknowledgement.
  if current.map (·.fingerprint c) = ch.new then return false
  refuseIf (current.map (·.fingerprint c) ≠ ch.expected) (changed ch.path)
  s.grants.forM (checkGranted host t.live (host.root ++ place ch.path))
  admitRecovery t.saved ((current.elim 0 (·.bytes.length)) + bytes.elim 0 (·.length)) 4
  return true

/-- Apply a change, with a write of another program before the publication and a stop after some
operations. An operation that fails for a reason outside the model is a stop at it. -/
def applyLocked (c : Crypto) (host : Host) (s : Store) (ch : Change) (bytes : Option Bytes)
    (ignored : List String) (ids : Ids) (intrusion : Option (Intrusion (place ch.path))) (steps : ℕ) (t : Tree) :
    Option (Result (Option String)) × Tree :=
  match applyChecks c host s t ch bytes ignored with
  | .error e => (some (.error e), t)
  | .ok false => (some (.ok none), t)
  | .ok true =>
    let ops := withIntrusion (journalOps ids ch (bytes.getD []) ignored) intrusion ++
      publishOp ids ch :: settleOps c ids ch ignored
    let (outcome, t) := perform ops steps t
    (outcome.map (fun result => result.map (fun _ => some ids.receiptName)), t)

/-- The operations of a list one after another, up to one that fails. -/
def performAll : List Op → Tree → Result Unit × Tree
  | [], t => (.ok (), t)
  | op :: rest, t =>
    match op t with
    | .error e => (.error e, t)
    | .ok t => performAll rest t

/-- Open the recovery directory, which is made where it is missing. No other action holds its lock. -/
def recoveryLock (host : Host) (live : Live) : Result Unit :=
  refuseIf (live.searchable [] = false ∨ (host.hasRecovery = false ∧ live.writable [] = false)) accessDenied

/-- Apply a change under the lock, without a stop and without another writer. -/
def applyUndisturbed (c : Crypto) (host : Host) (s : Store) (ch : Change) (bytes : Option Bytes) (ids : Ids)
    (t : Tree) : Result Unit × Tree :=
  match applyChecks c host s t ch bytes [] with
  | .error e => (.error e, t)
  | .ok false => (.ok (), t)
  | .ok true =>
    performAll (journalOps ids ch (bytes.getD []) [] ++ publishOp ids ch :: settleOps c ids ch []) t

def apply (c : Crypto) (host : Host) (s : Store) (ch : Change) (bytes : Option Bytes) (ids : Ids) (t : Tree) :
    Result Unit × Tree :=
  match recoveryLock host t.live with
  | .error e => (.error e, t)
  | .ok () => applyUndisturbed c host s ch bytes ids t

end Pin

end Clix
