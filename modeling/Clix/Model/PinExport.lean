import Clix.Model.PinOwner

/-! # Exporting an inspected version

An export hands out a version in chunks. Files and directories may change at any moment; each time they are
looked at is a moment of its own. The owner RPC sends one line of JSON for each chunk, and the client writes
what it reads until the chunk that ends the stream.
-/

namespace Clix.Pin

open Except

inductive RecoveryRead where
  | receipt
  | live
  | retained
  deriving DecidableEq, Repr

structure RecoveryChunk where
  offset : ℕ
  totalBytes : ℕ
  bytes : Bytes
  eof : Bool
  deriving DecidableEq, Repr

/-! ## The world around an export -/

/-- The metadata of a directory. -/
structure DirectoryStat where
  stamp : Stamp
  size : ℕ
  mode : UInt32
  deriving DecidableEq, Repr

/-- What can be observed at a moment. A path that does not lead to a regular file is an error. -/
structure Scene where
  /-- The device and inode of the directory at the path of the pin root. -/
  root : Option (UInt64 × UInt64)
  openedRoot : UInt64 × UInt64
  recovery : Result (Option DirectoryStat)
  openedRecovery : DirectoryStat
  source : File × Stamp
  receipt : Result (Option (File × Stamp))
  live : Result (Option (File × Stamp))
  retained : Result (Option (File × Stamp))

structure RecoveryExport where
  expected : RecoveryVersion
  view : RecoveryInspection
  receipt : Option RecoveryVersion
  recoveryMetadata : DirectoryStat
  offset : ℕ
  hashed : Bytes
  complete : Bool
  failed : Bool
  deriving DecidableEq

namespace RecoveryExport

def checkSeen (wanted : Bool) (seen : Result (Option (File × Stamp))) (expected : Option RecoveryVersion) :
    Result Unit :=
  if wanted = true then seen >>= (fun f => checkOptionalFile f expected) else .ok ()

/-- The looks of a check are at successive moments. -/
def checkVersions (world : ℕ → Scene) (now : ℕ) (x : RecoveryExport) : Result Unit := do
  refuseIf ((world now).root ≠ some (world (now + 1)).openedRoot) (changed "pin root moved during recovery export")
  match ← (world (now + 2)).recovery with
  | none => .error (changed "recovery directory disappeared during export")
  | some dir => do
    refuseIf (dir ≠ x.recoveryMetadata ∨ (world (now + 3)).openedRecovery ≠ x.recoveryMetadata ∨
        matchesVersion (world (now + 4)).source.1 (world (now + 4)).source.2 x.expected = false)
      (changed "recovery version changed during export")
    checkSeen x.view.recorded (world (now + 5)).receipt x.receipt
    checkSeen (x.view.receipt.path != "") (world (now + 6)).live x.view.live
    checkSeen true (world (now + 7)).retained x.view.retained

/-- Read exactly some bytes of the source. -/
def readExact (world : ℕ → Scene) (now offset count : ℕ) : Result Bytes := do
  refuseIf (((world now).source.1.bytes.drop offset).length < count) (.io "failed to fill whole buffer")
  return ((world now).source.1.bytes.drop offset).take count

/-- The bytes of the next chunk, between two checks. -/
def nextBytes (world : ℕ → Scene) (now length : ℕ) (x : RecoveryExport) : Result Bytes := do
  refuseIf (length = 0 ∨ 65536 < length ∨ x.complete = true)
    (.usage "recovery chunks require 1 through 65536 bytes and an unfinished export")
  checkVersions world now x
  let bytes ← readExact world (now + 8) x.offset (min (x.expected.bytes - x.offset) length)
  checkVersions world (now + 9) x
  return bytes

/-- What the last chunk has to pass. -/
def checkComplete (c : Crypto) (world : ℕ → Scene) (now : ℕ) (x : RecoveryExport) : Result Unit := do
  refuseIf (c.hash x.hashed ≠ x.expected.fingerprint.hash)
    (changed "exported content did not match the inspected hash")
  checkVersions world now x

def readChunkChecked (c : Crypto) (world : ℕ → Scene) (now length : ℕ) (x : RecoveryExport) :
    Result RecoveryChunk × RecoveryExport :=
  match nextBytes world now length x with
  | .error e => (.error e, x)
  | .ok bytes =>
    let next := { x with hashed := x.hashed ++ bytes, offset := x.offset + bytes.length }
    let eof := decide (next.offset = x.expected.bytes)
    match (if eof = true then checkComplete c world (now + 17) next else .ok () : Result Unit) with
    | .error e => (.error e, next)
    | .ok () => (.ok ⟨x.offset, x.expected.bytes, bytes, eof⟩, { next with complete := eof })

def readChunk (c : Crypto) (world : ℕ → Scene) (now length : ℕ) (x : RecoveryExport) :
    Result RecoveryChunk × RecoveryExport :=
  if x.failed = true then (.error (changed "recovery export already failed; inspect again"), x)
  else match readChunkChecked c world now length x with
    | (.error e, x) => (.error e, { x with failed := true })
    | (.ok chunk, x) => (.ok chunk, x)

def finish (world : ℕ → Scene) (now : ℕ) (x : RecoveryExport) : Result Unit × RecoveryExport :=
  if x.failed = true ∨ x.complete = false then (.error (changed "recovery export is incomplete or failed"), x)
  else match checkVersions world now x with
    | .error e => (.error e, { x with failed := true })
    | .ok () => (.ok (), x)

end RecoveryExport

/-- The file and version that an export is about. -/
def exportSource (d : Disk) (view : RecoveryInspection) (receipt : Option RecoveryVersion) :
    RecoveryRead → Result RecoveryVersion
  | .receipt => match receipt with
    | none => .error (.usage "recovery receipt is absent")
    | some v => .ok v
  | .retained => do
    match ← openInternal d.tree.saved view.receipt.version, view.retained with
    | some _, some v => return v
    | _, _ => .error (.usage "retained version is absent")
  | .live => do
    match ← openLive d.tree.live view.receipt.path, view.live with
    | some _, some v => return v
    | _, _ => .error (.usage "live version is absent")

/-- The version of the receipt itself, which an export keeps under watch. -/
def receiptVersion (c : Crypto) (d : Disk) (id : String) (view : RecoveryInspection) :
    Result (Option RecoveryVersion) :=
  if view.recorded = true then snapshotInternal c d id else .ok none

/-- Open an export of what an inspection showed. -/
def openRecoveryExport (c : Crypto) (d : Disk) (world : ℕ → Scene) (id : String) (which : RecoveryRead)
    (token : String) : Result RecoveryExport := do
  let view ← inspection c d id
  refuseIf (view.token ≠ token) staleInspection
  refuseIf (view.recorded = false ∧ which ≠ .retained) (.usage "unreferenced data has only a retained version")
  let receipt ← receiptVersion c d id view
  let expected ← exportSource d view receipt which
  let x : RecoveryExport := ⟨expected, view, receipt, (world 0).openedRecovery, 0, [], false, false⟩
  RecoveryExport.checkVersions world 0 x
  return x

/-! ## The connection -/

/-- A response of the owner RPC: a chunk, or the text of an error. -/
inductive Response where
  | chunk (chunk : RecoveryChunk)
  | refused (text : String)
  deriving DecidableEq, Repr

instance : Json.Serialize RecoveryChunk where
  toVec x := Json.object [Json.field "bytes" (Json.toVec x.bytes), Json.field "eof" (Json.toVec x.eof),
    Json.field "offset" (Json.toVec x.offset), Json.field "total_bytes" (Json.toVec x.totalBytes)]

/-- A response as it is sent, without the end of its line. -/
def Response.text : Response → Bytes
  | chunk x => Json.object [Json.field "chunk" (Json.toVec x), Json.field "ok" (Json.toVec true)]
  | refused text => Json.object [Json.field "error" (Json.toVec text), Json.field "ok" (Json.toVec false)]

def Response.line (r : Response) : Bytes := r.text ++ [10]

/-- The responses to one export, for as many chunks as there is fuel. Each chunk takes its own stretch of
moments. -/
def serveExport (c : Crypto) (world : ℕ → Scene) : ℕ → ℕ → RecoveryExport → List Response
  | 0, _, _ => []
  | fuel + 1, now, x =>
    match x.readChunk c world now 65536 with
    | (.error e, _) => [.refused e.text]
    | (.ok chunk, x) =>
      if chunk.eof = true then
        match x.finish world (now + 25) with
        | (.error e, _) => [.refused e.text]
        | (.ok (), _) => [.chunk chunk]
      else .chunk chunk :: serveExport c world fuel (now + 33) x

def maxLine : ℕ := 512 * 1024

/-- Read up to the end of a line, or as much as a line may have and one byte more. -/
def readUntil (input : Bytes) : Bytes × Bytes :=
  let line := (input.take (maxLine + 1)).takeWhile (· ≠ 10) ++ ((input.take (maxLine + 1)).dropWhile (· ≠ 10)).take 1
  (line, input.drop line.length)

/-- The client reads responses from what arrives until the stream has ended; `decode` is the JSON parser. -/
def clientLoop (decode : Bytes → Option Response) :
    ℕ → ℕ → Option ℕ → Bytes → Bytes → Result Bytes
  | 0, _, _, _, _ => .error (.protocol "pin export ended without a verified complete stream")
  | fuel + 1, offset, total, output, input => do
    let (line, rest) := readUntil input
    refuseIf (maxLine < line.length ∨ line.getLast? ≠ some 10)
      (.protocol "pin export ended without a verified complete stream")
    match decode line with
    | none => .error (.json "invalid response")
    | some (.refused text) => .error (.io text)
    | some (.chunk chunk) => do
      refuseIf (chunk.offset ≠ offset ∨ 65536 < chunk.bytes.length ∨ total.any (fun n => n != chunk.totalBytes) = true)
        (.protocol "pin export stream boundary changed")
      let offset := offset + chunk.bytes.length
      refuseIf (2 ^ 64 ≤ offset) (.protocol "pin export size overflow")
      refuseIf (chunk.totalBytes < offset ∨ (chunk.eof = true ∧ offset ≠ chunk.totalBytes) ∨
          (chunk.eof = false ∧ chunk.bytes = []))
        (.protocol "pin export stream length is inconsistent")
      if chunk.eof = true then return output ++ chunk.bytes
      else clientLoop decode fuel offset (some chunk.totalBytes) (output ++ chunk.bytes) rest

/-- Every line read takes at least one byte, so the input bounds the number of lines. -/
def clientExport (decode : Bytes → Option Response) (input : Bytes) : Result Bytes :=
  clientLoop decode (input.length + 1) 0 none [] input

end Clix.Pin
