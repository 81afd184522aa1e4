import Clix.Model.PinTree

/-! # Walking the tree

A scan goes down from the root and takes every directory in the order in which it lists its names. The
manifest and the number of the entries so far are handed from one entry to the next.
-/

namespace Clix.Pin

open Except

/-- The order in which each directory of a tree lists its names. Dots and the recovery directory may be
listed with the live nodes. -/
structure Lists (live : Live) (listing : List String → List String) : Prop where
  nodup : ∀ dir, (listing dir).Nodup
  complete : ∀ dir name, live.node? (dir ++ [name]) ≠ none → name ∈ listing dir
  sound : ∀ dir, ∀ name ∈ listing dir,
    live.node? (dir ++ [name]) ≠ none ∨ name = "." ∨ name = ".." ∨ (dir = [] ∧ name = recovery)

def unsupported (path : List String) : ClixError :=
  .protocol ("unsupported pin entry (symlink or special file): " ++ join path)

/-- What a walk does with one name of a directory, given how it goes on below. -/
def scanEntry (c : Crypto) (live : Live) (descend : List String → Manifest × ℕ → Result (Manifest × ℕ))
    (dir : List String) (out : Manifest × ℕ) (name : String) : Result (Manifest × ℕ) :=
  if name = "." ∨ name = ".." ∨ (dir = [] ∧ name = recovery) then .ok out
  else do
    refuseIf (maxPinEntries < out.2 + 1 ∨ (dir ≠ [] ∧ maxDepth ≤ dir.length))
      (.usage "pin tree exceeds 4096 entries or 64 directories of depth")
    -- An excluded path never enters the manifest, and what is below it is not visited.
    if excluded (join (dir ++ [name])) = true then return (out.1, out.2 + 1)
    else match live.node? (dir ++ [name]) with
      | some .dir => do
        openRel live (join (dir ++ [name]))
        descend (dir ++ [name]) (out.1, out.2 + 1)
      | some (.file _) => do
        match ← read live (join (dir ++ [name])) with
        | none => .error (changed (join (dir ++ [name])))
        | some f => return (out.1.insert (join (dir ++ [name])) (f.fingerprint c), out.2 + 1)
      | _ => .error (unsupported (dir ++ [name]))

/-- Walk a directory. The limit on the depth refuses every entry of a directory before the walk could go
deeper than its fuel, see `scanDir_eq`. -/
def scanDir (c : Crypto) (live : Live) (listing : List String → List String) :
    ℕ → List String → Manifest × ℕ → Result (Manifest × ℕ)
  | 0, dir, _ => .error (unsupported dir)
  | fuel + 1, dir, out => (listing dir).foldlM (scanEntry c live (scanDir c live listing fuel) dir) out

/-- The scan of a tree, entry by entry. -/
def scanTree (c : Crypto) (listing : List String → List String) (t : Tree) : Result Manifest := do
  openTree t.live
  checkRecoveryExcept c t.saved []
  let (out, _) ← scanDir c t.live listing (maxDepth + 1) [] (∅, 0)
  return out

/-- The names of the nodes in a directory, in order. -/
def Live.listing (live : Live) (dir : List String) : List String :=
  live.nodes.keys.filterMap (fun path => if path.dropLast = dir then path.getLast? else none)

end Clix.Pin
