import Clix.Model.Daemon
import Clix.ToMathlib.AtomicSave

/-! # The state file of a sidecar, call by call

A save here is the calls it makes on the file system, any of which may fail or be the last one before a crash, and an
update runs an arbitrary edit. With each content goes its lineage: every change that was made to the state the sidecar
was installed with, oldest first. No move reads a lineage.
-/

namespace Clix

open Except

/-- How many steps of the replacement were completed before this call. -/
def SaveStep.completed : SaveStep → ℕ
  | .privateDir | .createTemp => 0
  | .write => 1
  | .flush => 2
  | .rename => 3
  | .syncDirectory => 4

/-- What the sidecar changes in memory without saving it. -/
inductive Mark where
  | contact (peer : BodyId) (progress : Progress)
  | unsaved (id : String) (error : ClixError)
  | recoveryFailed (error : ClixError)

def Mark.apply (s : Store) : Mark → Store
  | .contact peer progress => History.setProgress s peer progress
  | .unsaved id e => Exec.setStatus s id (Exec.unsavedStatus e)
  | .recoveryFailed e => s.recoveryFailed e

abbrev Edit := Store → Result (Store × Unit)

inductive Change where
  | update (epochId : Result String) (edit : Edit)
  | mark (mark : Mark)
  | read
  | name (hostname : String)
  | key (seed : Bytes)

/-- The state a change makes of another. -/
def Change.apply (c : Crypto) (s : Store) : Change → Option Store
  | .update epochId edit => ((Store.stage c epochId s edit).map (·.1)).toOption
  | .mark m => some (m.apply s)
  | .read => some s.reloaded
  | .name hostname => some { s with bodyName := Pair.sanitizeName hostname }
  | .key seed => some { s with ownerSk := seed }

/-- A state with the changes that made it. -/
structure Version where
  store : Store
  lineage : List Change

def Version.after (v : Version) (store : Store) (change : Change) : Version := ⟨store, v.lineage ++ [change]⟩

/-- What the lineage makes of the installed state. -/
def replay (c : Crypto) (installed : Store) (lineage : List Change) : Option Store :=
  lineage.foldlM (Change.apply c) installed

structure Sidecar where
  disk : Disk Version
  /-- The state in memory, while the process runs. -/
  mem : Option Version
  /-- What the last update that returned saved, or the last opening read. -/
  acked : Version
  /-- What a save since then tried to save. -/
  inFlight : Option Version

namespace Sidecar

variable (c : Crypto)

/-- A sidecar that was just installed. -/
def installed (s : Store) : Sidecar := ⟨.holding ⟨s, []⟩, none, ⟨s, []⟩, none⟩

/-- A save whose calls all succeed. -/
def saved (x : Sidecar) (next : Version) : Sidecar := ⟨x.disk.performed next 5, some next, next, none⟩

/-- A save with a failing call, which leaves `mem` in memory. -/
def unsaved (x : Sidecar) (next : Version) (fault : Fault) (mem : Option Version) : Sidecar :=
  { x with disk := (x.disk.performed next fault.step.completed).discard, mem := mem, inFlight := some next }

/-- `Store::update`, in a process with this memory. -/
def update (x : Sidecar) (mem : Version) (epochId : Result String) (edit : Edit) (fault : Option Fault) :
    Sidecar × Result Unit :=
  match Store.stage c epochId mem.store edit with
  | .error e => (x, .error e)
  | .ok (next, ()) =>
    match fault with
    | none => (x.saved (mem.after next (.update epochId edit)), .ok ())
    | some fault => (x.unsaved (mem.after next (.update epochId edit)) fault
        (some ⟨mem.store.stoppedBy (some fault), mem.lineage⟩), .error fault.error)

/-- An update during whose save the process dies, after some of its steps. -/
def crashIn (x : Sidecar) (mem : Version) (epochId : Result String) (edit : Edit) (done : ℕ) : Sidecar :=
  match Store.stage c epochId mem.store edit with
  | .error _ => { x with mem := none }
  | .ok (next, ()) =>
    let next := mem.after next (.update epochId edit)
    { x with disk := x.disk.performed next done, mem := none, inFlight := some next }

/-- What opening a state directory meets. -/
structure Opening where
  reverted : Bool
  /-- Whether what was not flushed is cut. -/
  cut : Bool
  hostname : String
  seed : Bytes
  nameFault : Option Fault
  seedFault : Option Fault

/-- A save of what opening completes. The process ends when it fails. -/
def complete (x : Sidecar) (needed : Store → Bool) (f : Store → Store) (change : Change) (fault : Option Fault) :
    Sidecar :=
  match x.mem with
  | none => x
  | some mem =>
    if needed mem.store = false then x
    else
      match fault with
      | none => x.saved (mem.after (f mem.store) change)
      | some fault => x.unsaved (mem.after (f mem.store) change) fault none

/-- `Store::open`. A file that cannot be read is left alone. -/
def «open» (x : Sidecar) (o : Opening) : Sidecar :=
  let disk := x.disk.crash o.reverted o.cut
  match disk.file.content with
  | none => { x with disk := disk }
  | some v =>
    let x : Sidecar := ⟨disk, none, v, none⟩
    if Storage.stateBytes < Json.size v.store ∨ Store.formatVersionNow < v.store.formatVersion then x
    else
      let x := { x with mem := some (v.after v.store.reloaded .read) }
      let x := x.complete Daemon.isUnnamed (fun s => { s with bodyName := Pair.sanitizeName o.hostname })
        (.name o.hostname) o.nameFault
      x.complete (fun s => s.ownerSk.isEmpty) (fun s => { s with ownerSk := o.seed }) (.key o.seed) o.seedFault

inductive Move where
  | update (epochId : Result String) (edit : Edit) (fault : Option Fault)
  | crashIn (epochId : Result String) (edit : Edit) (done : ℕ)
  | mark (mark : Mark)
  | crash
  | open (opening : Opening)

def step (x : Sidecar) (move : Move) : Sidecar :=
  match move, x.mem with
  | .update epochId edit fault, some mem => (x.update c mem epochId edit fault).1
  | .crashIn epochId edit done, some mem => x.crashIn c mem epochId edit done
  | .mark m, some mem => { x with mem := some (mem.after (m.apply mem.store) (.mark m)) }
  | .crash, _ => { x with mem := none }
  | .open opening, none => x.open opening
  | _, _ => x

def run (x : Sidecar) (moves : List Move) : Sidecar := moves.foldl (step c) x

end Sidecar

end Clix
