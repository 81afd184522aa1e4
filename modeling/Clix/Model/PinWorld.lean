import Clix.Model.PinTree

/-! # The file system around the tree

Paths outside the tree are resolved by the kernel's rules: links are followed wherever they lead, `..` goes
up, and a name that is missing ends the resolution. A granted binary is the program its path resolves to when
it is executed.
-/

namespace Clix

namespace Pin

/-- The machine's file system but for the live tree. -/
structure World where
  /-- The canonical pin root. -/
  root : List String
  cwd : List String
  /-- What can be reached outside the live tree. -/
  outside : List String → Option Node

/-- The node at a place of the tree, if every directory above it can be searched. -/
def Live.found? (live : Live) (path : List String) : Option Node :=
  if live.searched path = true then live.node? path else none

/-- The node at a canonical path: in the live tree, above it, or elsewhere. -/
def World.node? (w : World) (live : Live) (path : List String) : Option Node :=
  if path.isPrefixOf w.root then some .dir
  else if w.root.isPrefixOf path ∧ path[w.root.length]? ≠ some recovery then live.found? (path.drop w.root.length)
  else w.outside path

/-- How far a path leads without following a link. -/
inductive Advance where
  | reached (path : List String)
  | missing
  | linked (dir : List String) (target : String) (rest : List String)
  deriving DecidableEq

def advance (node? : List String → Option Node) (here : List String) : List String → Advance
  | [] => .reached here
  | part :: rest =>
    if part = "" ∨ part = "." then advance node? here rest
    else if part = ".." then advance node? here.dropLast rest
    else match node? (here ++ [part]) with
      | none => .missing
      | some .dir => advance node? (here ++ [part]) rest
      | some (.link target) => .linked here target rest
      | some (.file _) => if rest = [] then .reached (here ++ [part]) else .missing
      | some .special => if rest = [] then .reached (here ++ [part]) else .missing

def isAbsolute (path : String) : Bool := path.toList.head? == some '/'

/-- Resolve a path, following at most so many links. -/
def resolve (node? : List String → Option Node) : ℕ → List String → List String → Option (List String)
  | 0, _, _ => none
  | links + 1, here, todo =>
    match advance node? here todo with
    | .reached path => some path
    | .missing => none
    | .linked dir target rest =>
      resolve node? links (if isAbsolute target then [] else dir) (parts target ++ rest)

/-- The canonical path of what a path leads to. The kernel follows forty links. -/
def resolved (w : World) (node? : List String → Option Node) (path : String) : Option (List String) :=
  if path = "" then none else resolve node? 41 (if isAbsolute path then [] else w.cwd) (parts path)

/-- The program that a path runs. -/
def program (w : World) (node? : List String → Option Node) (path : String) : Option (List String × File) :=
  match resolved w node? path with
  | none => none
  | some target =>
    match node? target with
    | some (.file f) => some (target, f)
    | _ => none

/-- The absolute form of a path by its text: dots are dropped, `..` stays. -/
def absolute (w : World) (path : String) : Result (List String) :=
  if path = "" then .error (.io "cannot make an empty path absolute")
  else .ok ((if isAbsolute path then [] else w.cwd) ++ place path)

/-- The recovery directory is there: it is locked before the guard looks at a grant. -/
def World.host (w : World) : Host where
  root := w.root
  canonicalize live path := resolved w (w.node? live) path
  absolute := absolute w
  hasRecovery := true

end Pin

end Clix
