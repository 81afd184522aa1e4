import Clix.Model.PinWorld
import Clix.Proofs.PinApply

/-! # Granted binaries

A change is refused when its destination is the canonical path of a granted binary, or, for a binary that does
not exist, the absolute form of its path. This keeps every grant whose binary exists; a grant whose path does
not resolve yet is kept exactly if no change can make it resolve by another way than its text.
-/

namespace Clix.Pin

open Except

variable {c : Crypto} {w : World} {s : Store} {live live' middle : Live} {t t' t₁ : Tree} {ch : Change}
  {bytes : Option Bytes} {ignored : List String} {ids : Ids} {steps : ℕ} {rel binary receipt : String}
  {entry entry' : List String → Option Node} {destination here todo path : List String} {links : ℕ}
  {node : Option Node} {grant : Grant} {content : Bytes}

/-! ## Resolution -/

/-- The file system with a file at a place, or none, and the directories that lead there. -/
def placed (entry : List String → Option Node) (destination : List String) (node : Option Node) :
    List String → Option Node := fun path =>
  if path = destination then node
  else if path.isPrefixOf destination = true ∧ entry path = none then some .dir
  else entry path

/-- What a granted path must come to: the destination of a change, or a file that is there. -/
def Lands (entry : List String → Option Node) (destination path : List String) : Prop :=
  path = destination ∨ ∃ f, entry path = some (.file f)

/-- A path leads to a file, in the file system before a change, if the missing directories above the destination
are taken as made and the destination as a file. It is bent if it goes through a link or up. -/
inductive Leads (entry : List String → Option Node) (destination : List String) :
    ℕ → Bool → List String → List String → Prop
  | ends {links : ℕ} {here : List String} (lands : Lands entry destination here) :
    Leads entry destination (links + 1) false here []
  | stays {links : ℕ} {bent : Bool} {here : List String} {part : String} {rest : List String}
    (dot : part = "" ∨ part = ".") (further : Leads entry destination (links + 1) bent here rest) :
    Leads entry destination (links + 1) bent here (part :: rest)
  | up {links : ℕ} {bent : Bool} {here rest : List String}
    (further : Leads entry destination (links + 1) bent here.dropLast rest) :
    Leads entry destination (links + 1) true here (".." :: rest)
  | enters {links : ℕ} {bent : Bool} {here : List String} {part : String} {rest : List String}
    (named : part ≠ "" ∧ part ≠ "." ∧ part ≠ "..") (there : entry (here ++ [part]) = some .dir)
    (further : Leads entry destination (links + 1) bent (here ++ [part]) rest) :
    Leads entry destination (links + 1) bent here (part :: rest)
  | made {links : ℕ} {bent : Bool} {here : List String} {part : String} {rest : List String}
    (named : part ≠ "" ∧ part ≠ "." ∧ part ≠ "..") (missing : entry (here ++ [part]) = none)
    (above : (here ++ [part]).isPrefixOf destination = true) (differs : here ++ [part] ≠ destination)
    (further : Leads entry destination (links + 1) bent (here ++ [part]) rest) :
    Leads entry destination (links + 1) bent here (part :: rest)
  | last {links : ℕ} {here : List String} {part : String} (named : part ≠ "" ∧ part ≠ "." ∧ part ≠ "..")
    (lands : Lands entry destination (here ++ [part])) : Leads entry destination (links + 1) false here [part]
  | follows {links : ℕ} {bent : Bool} {here : List String} {part target : String} {rest : List String}
    (named : part ≠ "" ∧ part ≠ "." ∧ part ≠ "..") (there : entry (here ++ [part]) = some (.link target))
    (further : Leads entry destination links bent (if isAbsolute target then [] else here) (parts target ++ rest)) :
    Leads entry destination (links + 1) true here (part :: rest)

/-- Where a path starts. -/
def World.start (w : World) (path : String) : List String := if isAbsolute path then [] else w.cwd

/-- A path that is bent leads to a file. -/
def Bends (w : World) (entry : List String → Option Node) (destination : List String) (path : String) : Prop :=
  path ≠ "" ∧ Leads entry destination 41 true (w.start path) (parts path)

section Layouts

variable {part target : String} {rest : List String} {f g : File} {bent : Bool}

end Layouts

namespace GrantExample

/-- A granted program is a link into the pin tree, to a file that is not there yet. -/
def world : World where
  root := ["home", "alice", "src"]
  cwd := []
  outside path := if path = ["home", "alice", "bin"] then some .dir
    else if path = ["home", "alice", "bin", "tool"] then some (.link "/home/alice/src/tool") else none

def grantedTool : Grant := ⟨"tool", "/home/alice/bin/tool", none, false, none, none, none, none⟩

def alice : Store :=
  { Store.first Crypto.transparent "epoch" "alice" (List.replicate 32 1) with grants := [grantedTool] }

def planted : File := ⟨[104], 0o755⟩

def creation : Change := ⟨"tool", none, some (planted.fingerprint Crypto.transparent), false⟩

def emptyTree : Tree := ⟨Live.empty, ∅⟩

def drawn : Ids := ⟨"v1", "t1", "t2"⟩

/-- The grant leads to the missing file through its link. -/
theorem grantedTool_bends : Bends world (world.node? emptyTree.live) (world.root ++ place creation.path)
    grantedTool.binary := by
  refine ⟨by decide, ?_⟩
  have path : parts grantedTool.binary = ["", "home", "alice", "bin", "tool"] := by decide
  have target : parts "/home/alice/src/tool" ++ [] = ["", "home", "alice", "src", "tool"] := by decide
  have link : world.node? emptyTree.live ["home", "alice", "bin", "tool"] = some (.link "/home/alice/src/tool") := by
    decide
  have straight : Leads (world.node? emptyTree.live) (world.root ++ place creation.path) 40 false []
      (parts "/home/alice/src/tool" ++ []) := by
    rw [target]
    exact .stays (.inl rfl) (.enters (by decide) (by decide) (.enters (by decide) (by decide)
      (.enters (by decide) (by decide) (.last (by decide) (.inl (by decide))))))
  rw [path]
  exact .stays (.inl rfl) (.enters (by decide) (by decide) (.enters (by decide) (by decide)
    (.enters (by decide) (by decide) (.follows (by decide) link straight))))

/-- A grant that names the missing file itself, beside the one that is a link to it. -/
def direct : Store :=
  { alice with grants := [grantedTool, ⟨"tool", "/home/alice/src/tool", none, false, none, none, none, none⟩] }

end GrantExample

end Clix.Pin
