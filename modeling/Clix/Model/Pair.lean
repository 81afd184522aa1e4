import Clix.Model.Store

/-! # Names and paired identities -/

namespace Clix.Pair

open Except

def isAlphanumeric (ch : Char) : Bool :=
  (48 ≤ ch.toNat && ch.toNat ≤ 57) || (65 ≤ ch.toNat && ch.toNat ≤ 90) ||
    (97 ≤ ch.toNat && ch.toNat ≤ 122)

def isNameChar (ch : Char) : Bool := isAlphanumeric ch || ch.toNat == 45 || ch.toNat == 95

def isName (name : String) : Bool :=
  name.toList.head?.any isAlphanumeric && decide (name.utf8ByteSize ≤ 63) &&
    name.toList.all isNameChar

def validateName (name : String) : Result Unit :=
  refuseIf (isName name = false) (.usage "machine name must start with a letter or digit and contain 1–63 letters, digits, hyphens or underscores")

/-- The first DNS label of a hostname, without disallowed characters. -/
def cleanLabel (raw : String) : List Char :=
  ((raw.toList.takeWhile (fun ch => ch.toNat != 46)).filter isNameChar).dropWhile
    (fun ch => !isAlphanumeric ch)

/-- Turn an arbitrary hostname into a valid name. -/
def sanitizeName (raw : String) : String :=
  match (cleanLabel raw).take 63 with
  | [] => "clix"
  | capped => String.ofList capped

/-- Every owner command name and alias. -/
def ownerCommandNames : List String :=
  ["add", "pair", "hands", "grants", "remove", "log", "job", "storage", "pin", "pending", "allow",
    "deny", "request", "daemon", "install", "status"]

def refuseCommandName (name whose : String) : Result Unit :=
  refuseIf (name ∈ ownerCommandNames) (.usage (whose ++ " is named '" ++ name ++
    "', which matches a Clix command; choose another name with clix pair --name"))

def ownerPk (c : Crypto) (sk : Bytes) : Result Bytes := do
  refuseIf (sk.length ≠ 32) (.io "owner key is not a valid ed25519 secret")
  return c.verifyingKey sk

/-- Check the peers in order against the names and keys already seen. -/
def validatePeers (c : Crypto) (bodyName : String) (localPk : Bytes) (names : List BodyId)
    (keys : List Bytes) : List Peer → Result Unit
  | [] => .ok ()
  | p :: rest => do
    validateName p.name.name
    refuseIf (p.ownerPk.length ≠ 32 ∨ c.validKey p.ownerPk = false) (.usage "invalid paired identity")
    refuseIf (c.weakKey p.ownerPk = true ∨ p.name.name = bodyName ∨ p.ownerPk = localPk ∨
        p.name ∈ names ∨ p.ownerPk ∈ keys)
      (.usage "ambiguous paired names or identities; owner must resolve pairing state")
    validatePeers c bodyName localPk (p.name :: names) (p.ownerPk :: keys) rest

def validateStore (c : Crypto) (s : Store) : Result Unit := do
  validateName s.bodyName
  let localPk ← ownerPk c s.ownerSk
  validatePeers c s.bodyName localPk [] [] s.peers

/-- Add a peer, or refresh the address of the same one. -/
def updatePeer (c : Crypto) (s : Store) (peer : Peer) : Result Store := do
  let same := fun p : Peer => p.name == peer.name || p.ownerPk == peer.ownerPk
  let next ← match s.peers.find? same with
    | some existing => do
      refuseIf (existing.name ≠ peer.name ∨ existing.ownerPk ≠ peer.ownerPk)
        (.usage "that name or identity is already paired; refusing to replace it")
      pure { s with peers := s.peers.modifyFirst same (fun p => { p with addr := peer.addr }) }
    | none => pure { s with peers := s.peers ++ [peer] }
  validateStore c next
  return next

private theorem isNameChar_of_mem_cleanLabel {raw : String} {ch : Char}
    (member : ch ∈ cleanLabel raw) : isNameChar ch = true := by
  have kept := (List.dropWhile_suffix _).subset member
  exact (List.mem_filter.mp kept).2

private theorem utf8Size_of_isNameChar {ch : Char} (named : isNameChar ch = true) :
    ch.utf8Size = 1 := by
  rw [Char.utf8Size_eq_one_iff, UInt32.le_iff_toNat_le]
  simp only [isNameChar, isAlphanumeric, Char.toNat, Bool.or_eq_true, Bool.and_eq_true,
    decide_eq_true_eq, beq_iff_eq] at named
  have bound : (127 : UInt32).toNat = 127 := rfl
  omega

/-- A nonempty list of at most 63 name characters that starts well spells a name. -/
private theorem isName_ofList {chars : List Char} (starts : chars.head?.any isAlphanumeric = true)
    (short : chars.length ≤ 63) (named : ∀ ch ∈ chars, isNameChar ch = true) :
    isName (String.ofList chars) = true := by
  have bytes : (String.ofList chars).utf8ByteSize = chars.length := by
    rw [Json.utf8ByteSize_eq_sum, String.toList_ofList,
      List.map_congr_left (fun ch member => utf8Size_of_isNameChar (named ch member))]
    simp
  rw [isName, String.toList_ofList, bytes, starts, decide_eq_true short]
  simpa using named

theorem isName_sanitizeName (raw : String) : isName (sanitizeName raw) = true := by
  unfold sanitizeName
  split
  · decide
  · next nonempty =>
    apply isName_ofList
    · have head := List.head?_dropWhile_not (fun ch => !isAlphanumeric ch)
        ((raw.toList.takeWhile (fun ch => ch.toNat != 46)).filter isNameChar)
      cases label : cleanLabel raw with
      | nil => simp [label] at nonempty
      | cons first rest =>
        rw [cleanLabel] at label
        rw [label] at head
        simpa using head
    · simp
    · intro ch member
      exact isNameChar_of_mem_cleanLabel (List.mem_of_mem_take member)

end Clix.Pair
