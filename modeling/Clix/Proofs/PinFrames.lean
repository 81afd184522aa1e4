import Clix.Model.PinLink
import Clix.Proofs.PinRecovery

/-! # Messages within a frame

The content of a file that can be pinned always fits in a frame, with its path and fingerprints. A listing may not:
paths are written with up to six bytes for one, and a listing holds two manifests.
-/

namespace Clix

/-- Hexadecimal text is written as it is. -/
theorem Crypto.size_hex (bytes : Bytes) : Json.size (Crypto.hex bytes) = 2 * bytes.length + 2 := by
  have digit : ∀ n < 16, ((String.utf8EncodeChar (hexChar n)).flatMap Json.escape).length = 1 := by decide
  rw [Crypto.hex, Json.size_ofList (fun ch member => ?_), List.length_flatMap]
  · simp only [List.length_cons, List.length_nil, List.map_const', List.sum_replicate_nat]
    omega
  · obtain ⟨b, -, pair⟩ := List.mem_flatMap.mp member
    have bound := b.toNat_lt
    simp only [List.mem_cons, List.not_mem_nil, or_false] at pair
    rcases pair with rfl | rfl
    · exact digit _ (by omega)
    · exact digit _ (by omega)

namespace Pin

variable {ch : Change} {data : Option File} {path : String} {fp : Fingerprint} {bytes : Bytes} {files : Manifest}

namespace Request

theorem list_short : Request.list.text.length ≤ Limits.meshFrameBytes := by decide

/-- A change of a file is sent with its content. -/
theorem put_short (named : ch.path.utf8ByteSize < 4096)
    (expected : ∀ fp, ch.expected = some fp → fp.hash.utf8ByteSize = 64)
    (new : ∀ fp, ch.new = some fp → fp.hash.utf8ByteSize = 64)
    (small : ∀ f, data = some f → f.bytes.length ≤ maxFile) :
    (Request.put (putRequest ch data)).text.length ≤ Limits.meshFrameBytes := by
  have content : (Json.toVec (data.map (fun f => Crypto.hex f.bytes))).length ≤ 2 * maxFile + 4 := by
    cases data with
    | none => decide
    | some f =>
      have text := Crypto.size_hex f.bytes
      have bound := small f rfl
      change Json.size (Crypto.hex f.bytes) ≤ _
      omega
  have name := Json.length_string_le ch.path
  have left : (Json.toVec ch.expected).length ≤ 500 := size_fingerprint_le expected
  have right : (Json.toVec ch.new).length ≤ 500 := size_fingerprint_le new
  have keys : (Json.string "content").length ≤ 20 ∧ (Json.string "expected").length ≤ 20 ∧
      (Json.string "new").length ≤ 20 ∧ (Json.string "op").length ≤ 20 ∧ (Json.string "pin_put").length ≤ 20 ∧
      (Json.string "path").length ≤ 20 := by decide
  have frame : 2 * maxFile + 100000 ≤ Limits.meshFrameBytes := by decide
  change (Json.object [Json.field "content" (Json.toVec (data.map (fun f => Crypto.hex f.bytes))),
    Json.field "expected" (Json.toVec ch.expected), Json.field "new" (Json.toVec ch.new),
    Json.field "op" (Json.string "pin_put"), Json.field "path" (Json.string ch.path)]).length ≤ _
  rw [Json.length_object]
  simp only [List.map_cons, List.map_nil, List.sum_cons, List.sum_nil, Json.length_field]
  omega

theorem get_short (named : path.utf8ByteSize < 4096) (digest : fp.hash.utf8ByteSize = 64) :
    (Request.get path fp).text.length ≤ Limits.meshFrameBytes := by
  have name := Json.length_string_le path
  have expected : (Json.toVec (some fp)).length ≤ 500 := size_fingerprint_le (by rintro f ⟨⟩; exact digest)
  change (Json.toVec fp).length ≤ 500 at expected
  have keys : (Json.string "expected").length ≤ 20 ∧ (Json.string "op").length ≤ 20 ∧
      (Json.string "pin_get").length ≤ 20 ∧ (Json.string "path").length ≤ 20 := by decide
  have frame : 100000 ≤ Limits.meshFrameBytes := by decide
  rw [Request.text, Json.length_object]
  simp only [List.map_cons, List.map_nil, List.sum_cons, List.sum_nil, Json.length_field]
  omega

/-- Where a manifest can be listed twice over, it can be committed. -/
theorem commit_short (listed : (Answer.listing (.ok ⟨files, files⟩)).text.length ≤ Limits.meshFrameBytes) :
    (Request.commit files).text.length ≤ Limits.meshFrameBytes := by
  have keys : (Json.string "baseline").length = 10 ∧ (Json.string "files").length = 7 ∧
      (Json.string "manifest").length = 10 ∧ (Json.string "op").length = 4 ∧
      (Json.string "pin_commit").length = 12 := by decide
  have frame : 1000 ≤ Limits.meshFrameBytes := by decide
  rw [Answer.text, Json.length_object] at listed
  rw [Request.text, Json.length_object]
  simp only [List.map_cons, List.map_nil, List.sum_cons, List.sum_nil, Json.length_field] at listed ⊢
  omega

end Request

namespace Answer

theorem done_short : (Answer.done (.ok ())).text.length ≤ Limits.meshFrameBytes := by decide

theorem content_short (small : bytes.length ≤ maxFile) :
    (Answer.content (.ok (Crypto.hex bytes))).text.length ≤ Limits.meshFrameBytes := by
  have text : (Json.string (Crypto.hex bytes)).length = 2 * bytes.length + 2 := Crypto.size_hex bytes
  have key : (Json.string "content").length ≤ 20 := by decide
  have frame : 2 * maxFile + 100000 ≤ Limits.meshFrameBytes := by decide
  rw [Answer.text, Json.length_object]
  simp only [List.map_cons, List.map_nil, List.sum_cons, List.sum_nil, Json.length_field]
  omega

end Answer

end Pin

end Clix
