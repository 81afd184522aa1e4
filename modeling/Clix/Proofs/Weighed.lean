import Clix.Proofs.Decoded
import Clix.Proofs.Charge

/-! # How long a message is

Every certificate, fact and record takes as many bytes in a message as in the saved state. The answer about a job has the row
and its record, so the output of the job is in it twice.
-/

namespace Clix

open Json

instance : Weighed BodyId := ⟨fun b => congrArg List.length (text_toValue b)⟩

instance : Weighed Role := ⟨fun r => by cases r <;> exact congrArg List.length (Value.text.eq_def (.string _))⟩

/-- A variant is as long in a message as what it carries makes it. -/
theorem length_variantValue {name key : String} {v : Value} {text : Bytes} (same : v.text.length = text.length) :
    (variantValue name key v).text.length = (variant name key text).length := by
  rw [text_variantValue, variant, variant, length_object, length_object]
  simp only [List.map_cons, List.map_nil, length_field, length_object, same]

instance : Weighed JobStatus where
  length_text s := by
    cases s with
    | done exit => exact length_variantValue (length_text exit)
    | denied reason => exact length_variantValue (length_text reason)
    | failed reason => exact length_variantValue (length_text reason)
    | uncertain reason => exact length_variantValue (length_text reason)
    | _ => exact congrArg List.length (Value.text.eq_def (.string _))

instance : Weighed OutputRef where
  length_text o := length_record (by decide) rfl (.cons (length_text o.bytes) (.cons (length_text o.sha256) .nil))

instance : Weighed Fact where
  length_text f := length_record (by decide) rfl <| .cons (length_text f.invocation) <| .cons (length_text f.role) <|
    .cons (length_text f.revision) <| .cons (length_text f.status) <| .cons (length_text f.stdout) <|
    .cons (length_text f.stderr) .nil

instance : Weighed Invocation where
  length_text i := length_record (by decide) rfl <| .cons (length_text i.id) <| .cons (length_text i.origin) <|
    .cons (length_text i.originKey) <| .cons (length_text i.body) <| .cons (length_text i.runnerKey) <|
    .cons (length_text i.argv) <| .cons (length_text i.retryOf) <| .cons (length_text i.legacyObserver) .nil

instance : Weighed Certificate where
  length_text c := length_record (by decide) rfl (.cons (length_text c.invocation) (.cons (length_text c.signature) .nil))

instance : Weighed SignedFact where
  length_text f := length_record (by decide) rfl (.cons (length_text f.fact) (.cons (length_text f.signature) .nil))

instance : Weighed Record where
  length_text r := length_record (by decide) rfl <| .cons (length_text r.certificate) <| .cons (length_text r.origin) <|
    .cons (length_text r.runner) .nil

instance : Weighed CapturedOutput where
  length_text o := length_record (by decide) rfl (.cons (length_text o.stdout) (.cons (length_text o.stderr) .nil))

instance : Weighed Published where
  length_text p := length_record (by decide) rfl <| .cons (length_text p.record) <| .cons (length_text p.output) <|
    .cons (length_text p.change) .nil

instance : Weighed Job where
  length_text j := length_record (by decide) rfl <| .cons (length_text j.id) <| .cons (length_text j.body) <|
    .cons (length_text j.argv) <| .cons (length_text j.origin) <| .cons (length_text j.status) <|
    .cons (length_text j.stdout) <| .cons (length_text j.stderr) .nil

/-- The answer about a job is as long as its row and its record, and the names of the two. -/
theorem Mesh.length_certifiedReply (job : Job) (history : Published) :
    (certifiedReply job history).text.length = Json.size job + Json.size history + 19 := by
  have names : ["job", "history"].Nodup := by decide
  have text : (certifiedReply job history).text.length = (object [field "job" (toVec job),
      field "history" (toVec history)]).length :=
    length_record names rfl (.cons (length_text job) (.cons (length_text history) .nil))
  have job' : (string "job").length = 5 := rfl
  have history' : (string "history").length = 9 := rfl
  rw [text, length_object]
  simp only [List.map_cons, List.map_nil, List.sum_cons, List.sum_nil, length_field, job', history']
  unfold Json.size
  omega

namespace Storage

/-- A byte of three digits takes four characters with its comma. -/
theorem payloadJsonBytes_replicate {b : UInt8} (wide : 100 ≤ b) (n : ℕ) :
    payloadJsonBytes (List.replicate n b) = 4 * n - 1 := by
  cases n with
  | zero => rfl
  | succ n =>
    rw [payloadJsonBytes, if_neg (by simp), List.map_replicate, List.sum_replicate, List.length_replicate, if_pos wide,
      Nat.nsmul_eq_mul]
    omega

/-- The bytes of the two streams are written as lists of numbers. -/
theorem size_capturedOutput (o : CapturedOutput) :
    Json.size o = payloadJsonBytes o.stdout + payloadJsonBytes o.stderr + 25 := by
  have out := size_bytes o.stdout
  have err := size_bytes o.stderr
  have stdout : (string "stdout").length = 8 := rfl
  have stderr : (string "stderr").length = 8 := rfl
  change (object _).length = _
  rw [length_object]
  simp only [List.map_cons, List.map_nil, List.sum_cons, List.sum_nil, length_field, stdout, stderr]
  unfold Json.size at out err
  omega

/-- A record goes out with its output and its change. -/
theorem size_published (p : Published) :
    Json.size p = Json.size p.record + Json.size p.output + Json.size p.change + 31 := by
  have record : (string "record").length = 8 := rfl
  have output : (string "output").length = 8 := rfl
  have change : (string "change").length = 8 := rfl
  change (object _).length = _
  rw [length_object]
  simp only [List.map_cons, List.map_nil, List.sum_cons, List.sum_nil, length_field, record, output, change]
  unfold Json.size
  omega

end Storage

end Clix
