import Clix.ToMathlib.Json

/-! # Digests and signatures

SHA-256 and strict Ed25519 verification are taken as parameters with the properties the program
relies on: fixed lengths, and that a signature made with a seed verifies under that seed's public
key. Nothing here says that a digest is injective or that a signature cannot be forged.
-/

namespace Clix

structure Crypto where
  sha256 : Bytes → Bytes
  /-- The public key of a 32-byte seed. -/
  verifyingKey : Bytes → Bytes
  /-- Whether 32 bytes decode to a public key. -/
  validKey : Bytes → Bool
  weakKey : Bytes → Bool
  sign : Bytes → Bytes → Bytes
  /-- Public key, message, signature. -/
  verifyStrict : Bytes → Bytes → Bytes → Bool
  length_sha256 : ∀ message, (sha256 message).length = 32
  length_verifyingKey : ∀ seed, (verifyingKey seed).length = 32
  length_sign : ∀ seed message, (sign seed message).length = 64
  valid_verifyingKey : ∀ seed, validKey (verifyingKey seed) = true
  verify_sign : ∀ seed message, verifyStrict (verifyingKey seed) message (sign seed message) = true

namespace Crypto

def hexChar (n : ℕ) : Char := Char.ofNat (if n < 10 then 48 + n else 87 + n)

/-- Lowercase hexadecimal text. -/
def hex (bytes : Bytes) : String :=
  String.ofList (bytes.flatMap (fun b => [hexChar (b.toNat / 16), hexChar (b.toNat % 16)]))

/-- The lowercase hexadecimal SHA-256 digest. -/
def hash (c : Crypto) (bytes : Bytes) : String := hex (c.sha256 bytes)

def isHexDigit (b : UInt8) : Bool :=
  (48 ≤ b && b ≤ 57) || (97 ≤ b && b ≤ 102) || (65 ≤ b && b ≤ 70)

/-- Sixty-four hexadecimal digits. -/
def isDigest (s : String) : Bool := s.utf8ByteSize == 64 && (Json.utf8 s).all isHexDigit

private theorem hexChar_spec : ∀ n < 16, String.utf8EncodeChar (hexChar n) = [(hexChar n).toNat.toUInt8] ∧
    isHexDigit (hexChar n).toNat.toUInt8 = true := by decide

private theorem hexChars_spec (bytes : Bytes) :
    let text := (bytes.flatMap (fun b => [hexChar (b.toNat / 16), hexChar (b.toNat % 16)])).flatMap
      String.utf8EncodeChar
    text.all isHexDigit = true ∧ text.length = 2 * bytes.length := by
  induction bytes with
  | nil => exact ⟨rfl, rfl⟩
  | cons b rest ih =>
    have bound := b.toNat_lt
    obtain ⟨high, highDigit⟩ := hexChar_spec (b.toNat / 16) (by omega)
    obtain ⟨low, lowDigit⟩ := hexChar_spec (b.toNat % 16) (by omega)
    dsimp only at ih ⊢
    rw [List.flatMap_cons, List.flatMap_append, List.flatMap_cons, List.flatMap_singleton, high, low,
      List.all_append, List.length_append, ih.1, ih.2]
    constructor
    · simp [highDigit, lowDigit]
    · simp only [List.cons_append, List.nil_append, List.length_cons, List.length_nil]
      omega

theorem utf8ByteSize_hex (bytes : Bytes) : (hex bytes).utf8ByteSize = 2 * bytes.length := by
  rw [← Json.length_utf8, Json.utf8_eq_flatMap, hex, String.toList_ofList, (hexChars_spec bytes).2]

theorem utf8ByteSize_hash (c : Crypto) (bytes : Bytes) : (c.hash bytes).utf8ByteSize = 64 := by
  rw [← Json.length_utf8, Json.utf8_eq_flatMap, hash, hex, String.toList_ofList,
    (hexChars_spec (c.sha256 bytes)).2, c.length_sha256]

/-- The first `n` bytes, padded with zeros. -/
def fit (n : ℕ) (bytes : Bytes) : Bytes := (bytes ++ List.replicate n 0).take n

theorem length_fit (n : ℕ) (bytes : Bytes) : (fit n bytes).length = n := by
  simp [fit]

/-- A polynomial checksum in place of a digest. -/
def checksum (message : Bytes) : Bytes :=
  let value := message.foldl (fun acc b => (acc * 257 + b.toNat + 1) % 2 ^ 256) 0
  (List.range 32).map (fun i => (value / 256 ^ i).toUInt8)

/-- A small concrete instance, in which a seed is its own public key, for running the model. -/
def transparent : Crypto where
  sha256 := checksum
  verifyingKey := fit 32
  validKey _ := true
  weakKey _ := false
  sign seed message := fit 64 (fit 32 seed ++ checksum message)
  verifyStrict key message signature := signature == fit 64 (key ++ checksum message)
  length_sha256 _ := by simp [checksum]
  length_verifyingKey _ := length_fit 32 _
  length_sign _ _ := length_fit 64 _
  valid_verifyingKey _ := rfl
  verify_sign _ _ := beq_self_eq_true _

end Crypto

end Clix
