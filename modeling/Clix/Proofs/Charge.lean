import Clix.Proofs.Removal

/-! # What one removal does to the capacity charge

The text of a state is that of its skeleton and of the five parts that pruning writes. Each part pays for its own growth:
payload bytes are not charged, a receipt was reserved with its comma, and a sequence number with its full width.
-/

namespace Clix

open Json

/-- The state without the parts that pruning writes. -/
def Store.skeleton (s : Store) : Store :=
  { s with
    jobs := []
    outputPruned := ∅
    historyPruned := ∅
    history := { s.history with clock := 0, entries := ∅ } }

theorem History.size_skeleton (h : History) :
    Json.size h + 3 = Json.size ({ h with clock := 0, entries := ∅ } : History) + Json.size h.clock +
      Json.size h.entries := by
  change (object _).length + 3 = (object _).length + (toVec h.clock).length + (toVec h.entries).length
  have clock : (toVec (0 : UInt64)).length = 1 := rfl
  have entries : (toVec (∅ : OrdMap String Entry)).length = 2 := rfl
  rw [length_object, length_object]
  simp only [List.map_cons, List.map_nil, List.sum_cons, List.sum_nil, length_field, clock, entries]
  omega

/-- The text of a state is its skeleton's and that of the parts that pruning writes. -/
theorem Store.size_skeleton (s : Store) :
    Json.size s + 9 = Json.size s.skeleton + Json.size s.jobs + Json.size s.history.clock +
      Json.size s.history.entries + Json.size s.outputPruned + Json.size s.historyPruned := by
  have history : (toVec s.history).length + 3 = (toVec s.skeleton.history).length + (toVec s.history.clock).length +
      (toVec s.history.entries).length := History.size_skeleton s.history
  change (object _).length + 9 = (object _).length + (toVec s.jobs).length + (toVec s.history.clock).length +
    (toVec s.history.entries).length + (toVec s.outputPruned).length + (toVec s.historyPruned).length
  have jobs : (toVec s.skeleton.jobs).length = 2 := rfl
  have outputs : (toVec s.skeleton.outputPruned).length = 2 := rfl
  have histories : (toVec s.skeleton.historyPruned).length = 2 := rfl
  rw [length_object, length_object]
  simp only [List.map_cons, List.map_nil, List.sum_cons, List.sum_nil, length_field, jobs, outputs, histories]
  simp only [Store.skeleton] at history ⊢
  omega

namespace Storage

variable {s t : Store}

/-- The text of a payload is its brackets and its bytes. -/
theorem size_bytes (bytes : Bytes) : Json.size bytes = payloadJsonBytes bytes + 2 := by
  have width (b : UInt8) : Json.size b = if 100 ≤ b then 3 else if 10 ≤ b then 2 else 1 := length_digits_uInt8 b
  rw [size_list, payloadJsonBytes]
  split_ifs with blank
  · rw [blank]
    rfl
  · rw [List.sum_map_add, funext width, List.map_const', List.sum_replicate, Nat.nsmul_eq_mul, mul_one]

/-- A counter and the digits it may still gain take twenty bytes. -/
theorem size_sequence (n : UInt64) : Json.size n + sequenceHeadroom n = 20 := by
  have bound : Json.size n ≤ 20 := length_digits_uInt64 n
  have width : Json.size n = Nat.log 10 n.toNat + 1 := length_digits_eq_log n.toNat
  unfold sequenceHeadroom
  split_ifs with zero
  · subst zero
    rfl
  · omega

theorem size_emptied (job : Job) : Json.size (emptied job) + jobPayload job = Json.size job := by
  have out := size_bytes job.stdout
  have err := size_bytes job.stderr
  have brackets : (toVec ([] : Bytes)).length = 2 := rfl
  change (object _).length + jobPayload job = (object _).length
  rw [length_object, length_object]
  simp only [List.map_cons, List.map_nil, List.sum_cons, List.sum_nil, length_field, emptied, brackets, jobPayload]
  unfold Json.size at out err
  omega

/-- The text of a replica is never shorter than its bytes and the text of none. -/
theorem size_output (output : Option CapturedOutput) :
    4 + output.elim 0 (fun o => payloadJsonBytes o.stdout + payloadJsonBytes o.stderr) ≤ Json.size output := by
  cases output with
  | none => exact le_of_eq rfl
  | some o =>
    have out := size_bytes o.stdout
    have err := size_bytes o.stderr
    change 4 + (payloadJsonBytes o.stdout + payloadJsonBytes o.stderr) ≤ (object _).length
    rw [length_object]
    simp only [List.map_cons, List.map_nil, List.sum_cons, List.sum_nil, length_field]
    unfold Json.size at out err
    omega

/-- A restamped entry is no larger than the reserve of its sequence number allows. -/
theorem size_restamped_le (change : UInt64) (e : Entry) :
    Json.size (restamped change e) + sequenceHeadroom change + replicaPayload e ≤
      Json.size e + sequenceHeadroom e.change := by
  have before := size_sequence e.change
  have after := size_sequence change
  have null : (toVec (none : Option CapturedOutput)).length = 4 := rfl
  have output : 4 + replicaPayload e ≤ (toVec e.output).length := size_output e.output
  change (object _).length + _ + _ ≤ (object _).length + _
  rw [length_object, length_object]
  simp only [List.map_cons, List.map_nil, List.sum_cons, List.sum_nil, length_field, restamped, null]
  unfold Json.size at before after
  omega

/-- Clearing a row shortens the rows by its payload. -/
theorem size_rows (payload : Payload) (jobs : List Job) :
    Json.size (payload.rows jobs) + (jobs.map jobPayload).sum =
      Json.size jobs + ((payload.rows jobs).map jobPayload).sum := by
  cases payload with
  | replica key => rfl
  | «local» id =>
    by_cases blank : jobs = []
    · rw [blank]
      rfl
    · have kept : (Payload.local id).rows jobs ≠ [] := by
        intro gone
        have lengths := congrArg List.length gone
        rw [Payload.rows, List.length_modifyFirst] at lengths
        exact blank (List.length_eq_zero_iff.mp lengths)
      have together : ∀ j, (Json.size (emptied j) + 1) + jobPayload j = (Json.size j + 1) + jobPayload (emptied j) := by
        intro j
        have shorter := size_emptied j
        have none : jobPayload (emptied j) = 0 := rfl
        omega
      have moved : (((Payload.local id).rows jobs).map (fun j => Json.size j + 1)).sum + (jobs.map jobPayload).sum =
          (jobs.map (fun j => Json.size j + 1)).sum + (((Payload.local id).rows jobs).map jobPayload).sum :=
        List.sum_modifyFirst _ _ together jobs
      rw [size_list_of_ne_nil kept, size_list_of_ne_nil blank]
      omega

/-- Restamping an entry is paid for by its payload and its sequence reserve. -/
theorem size_adjust_le {entries : OrdMap String Entry} {key : String} {e : Entry} (found : entries.get? key = some e)
    (change : UInt64) :
    Json.size (entries.adjust key (restamped change)) +
        ((entries.adjust key (restamped change)).values.map (fun e => sequenceHeadroom e.change)).sum +
        (entries.values.map replicaPayload).sum ≤
      Json.size entries + (entries.values.map (fun e => sequenceHeadroom e.change)).sum +
        ((entries.adjust key (restamped change)).values.map replicaPayload).sum := by
  have text := OrdMap.sum_insert_of_some (fun e => (string e.1).length + 1 + Json.size e.2 + 1)
    (restamped change e) found
  have digits := OrdMap.sum_insert_of_some (fun e => sequenceHeadroom e.2.change) (restamped change e) found
  have bytes := OrdMap.sum_insert_of_some (fun e => replicaPayload e.2) (restamped change e) found
  have smaller := size_restamped_le change e
  have none : replicaPayload (restamped change e) = 0 := rfl
  rw [OrdMap.adjust_of_some _ found, size_map_of_mem found, size_map_of_mem (OrdMap.get?_insert_self _ _ _)]
  simp only [OrdMap.values, List.map_map, Function.comp_def]
  dsimp only [restamped] at *
  omega

private theorem sum_payload_le {α : Type} {text payload : α → ℕ} (shorter : ∀ a, payload a < text a) (l : List α) :
    (l.map payload).sum ≤ (l.map text).sum - 1 := by
  cases l with
  | nil => exact le_rfl
  | cons a rest =>
    have first := shorter a
    have others : (rest.map payload).sum ≤ (rest.map text).sum := List.sum_le_sum (fun b _ => (shorter b).le)
    simp only [List.map_cons, List.sum_cons]
    omega

/-- The text of the rows is longer than their payloads. -/
theorem payload_rows_le (jobs : List Job) : (jobs.map jobPayload).sum + 2 ≤ Json.size jobs := by
  rw [size_list]
  refine Nat.add_le_add_right (sum_payload_le (fun job => ?_) jobs) 2
  have shorter := size_emptied job
  omega

/-- The text of the entries is longer than their replicas. -/
theorem payload_entries_le (entries : OrdMap String Entry) :
    (entries.values.map replicaPayload).sum + 2 ≤ Json.size entries := by
  rw [size_map, OrdMap.values, List.map_map]
  refine Nat.add_le_add_right (sum_payload_le (fun e => ?_) entries.entries) 2
  have shorter := size_restamped_le e.2.change e.2
  dsimp only [Function.comp]
  omega

/-- Payloads are part of the text of the state. -/
theorem payloadBytes_le (s : Store) : payloadBytes s ≤ Json.size s := by
  have parts := Store.size_skeleton s
  have rows := payload_rows_le s.jobs
  have entries := payload_entries_le s.history.entries
  have clock : 1 ≤ Json.size s.history.clock := length_digits_pos _
  have outputs := size_set s.outputPruned
  have histories := size_set s.historyPruned
  unfold payloadBytes
  omega

/-- The reserve for the receipts of some labels. -/
def receiptsFor (labels : List String) (pruned : OrdSet String) : ℕ :=
  ((labels.filter (fun label => !pruned.contains label)).map receiptBytes).sum

theorem pruneReceipts_eq (s : Store) : pruneReceipts s =
    receiptsFor (s.jobs.map (·.id)) s.outputPruned + receiptsFor s.history.entries.keys s.historyPruned := by
  rw [pruneReceipts, receiptsFor, receiptsFor, List.filter_map, List.map_map]
  rfl

/-- A receipt was reserved before it is left. -/
theorem receipts_insert_le {labels : List String} {label : String} (member : label ∈ labels)
    (pruned : OrdSet String) :
    Json.size (pruned.insert label ()) + receiptsFor labels (pruned.insert label ()) ≤
      Json.size pruned + receiptsFor labels pruned := by
  by_cases there : pruned.contains label = true
  · rw [OrdMap.insert_of_contains there]
  · have absent : pruned.get? label = none := by simpa [OrdMap.contains] using there
    have grown := size_set_insert_le absent
    have freed := @List.sum_filter_add_le _ (fun l => !pruned.contains l)
      (fun l => !(pruned.insert label ()).contains l) receiptBytes labels label
      (fun other kept => by simp_all [OrdMap.contains_insert]) member (by simpa using there)
      (by simp [OrdMap.contains_insert])
    unfold receiptsFor
    have receipt : receiptBytes label = (string label).length + 1 := rfl
    omega

theorem pending_eq (s : Store) :
    pending s = ((s.jobs.map (·.status)).filter (fun status => !status.isTerminal)).length := by
  rw [pending, List.filter_map, List.length_map]
  rfl

/-- The parts of the charge, with the text of the skeleton. -/
theorem completionCharge_eq (s : Store) : completionCharge s (Json.size s) + payloadBytes s + 9 =
    Json.size s.skeleton + Json.size s.jobs + Json.size s.history.clock + Json.size s.history.entries +
      Json.size s.outputPruned + Json.size s.historyPruned + pruneReceipts s + sequences s + outputBudget * 4 +
      pending s * completionReserve := by
  have parts := Store.size_skeleton s
  have payload := payloadBytes_le s
  unfold completionCharge
  omega

/-- Removing a payload never raises the charge. -/
theorem completionCharge_removedFrom_le {payload : Payload} {key : String} {e : Entry} (present : payload.Present s)
    (found : s.history.entries.get? key = some e) :
    completionCharge (payload.removedFrom s key) (Json.size (payload.removedFrom s key)) ≤
      completionCharge s (Json.size s) := by
  have before := completionCharge_eq s
  have after := completionCharge_eq (payload.removedFrom s key)
  have skeleton : (payload.removedFrom s key).skeleton = s.skeleton := rfl
  have rows := size_rows payload s.jobs
  have entries := size_adjust_le found (s.history.clock + 1)
  have clockBefore := size_sequence s.history.clock
  have clockAfter := size_sequence (s.history.clock + 1)
  have keys : (s.history.entries.adjust key (restamped (s.history.clock + 1))).keys = s.history.entries.keys :=
    OrdMap.keys_adjust _ _ _
  have histories := receipts_insert_le (OrdMap.mem_keys_iff.mpr (OrdMap.contains_eq_true_iff.mpr ⟨e, found⟩))
    s.historyPruned
  have labels : (payload.rows s.jobs).map (·.id) = s.jobs.map (·.id) := Payload.map_rows payload s.jobs (fun _ => rfl)
  have outputs : Json.size (payload.receipts s.outputPruned) +
      receiptsFor (s.jobs.map (·.id)) (payload.receipts s.outputPruned) ≤
      Json.size s.outputPruned + receiptsFor (s.jobs.map (·.id)) s.outputPruned := by
    cases payload with
    | replica key => exact le_rfl
    | «local» id =>
      obtain ⟨job, here⟩ := Option.isSome_iff_exists.mp present
      have labelled : id ∈ s.jobs.map (·.id) :=
        List.mem_map.mpr ⟨job, List.mem_of_find?_eq_some here, by simpa using List.find?_some here⟩
      exact receipts_insert_le labelled s.outputPruned
  have waiting : pending (payload.removedFrom s key) = pending s := by
    rw [pending_eq, pending_eq]
    exact congrArg _ (congrArg _ (Payload.map_rows payload s.jobs (fun _ => rfl)))
  rw [skeleton, waiting, pruneReceipts_eq] at after
  rw [pruneReceipts_eq] at before
  simp only [payloadBytes, sequences, Payload.removedFrom, keys, labels] at before after ⊢
  omega

/-- The charge of a state by its own text. -/
def charge (s : Store) : ℕ := completionCharge s (Json.size s)

/-- Removing payloads of recorded keys never raises the charge. -/
theorem removeAll_charge_le {gone : List Candidate} (recorded : ∀ candidate ∈ gone, candidate ∈ candidates s)
    (success : removeAll s gone = .ok t) : charge t ≤ charge s := by
  refine (List.foldlM_except_inv
    (P := fun u => u.jobCertificates = s.jobCertificates ∧ u.history.entries.keys = s.history.entries.keys ∧
      charge u ≤ charge s) (fun candidate member u v kept removed => ?_) ⟨rfl, rfl, le_rfl⟩ success).2.2
  obtain ⟨bindings, keys, below⟩ := kept
  obtain ⟨key, there⟩ := mem_candidates_iff.mp (recorded candidate member)
  obtain ⟨entry, found, -⟩ := Option.bind_eq_some_iff.mp there
  have listed : key ∈ u.history.entries.keys := by
    rw [keys]
    exact OrdMap.mem_keys_iff.mpr (OrdMap.contains_eq_true_iff.mpr ⟨entry, found⟩)
  obtain ⟨e, here⟩ := OrdMap.contains_eq_true_iff.mp (OrdMap.mem_keys_iff.mp listed)
  obtain ⟨other, bound, present, -, rfl⟩ := removePayload_eq_ok_iff.mp removed
  have same : other = key := by
    have before := key?_of_candidate there
    cases kind : candidate.payload with
    | «local» id =>
      rw [kind, Payload.key?] at bound before
      rw [bindings, before] at bound
      exact (Option.some.inj bound).symm
    | replica key =>
      rw [kind, Payload.key?] at bound before
      exact (Option.some.inj bound).symm.trans (Option.some.inj before)
  subst same
  exact ⟨bindings, (OrdMap.keys_adjust _ _ _).trans keys, (completionCharge_removedFrom_le present here).trans below⟩

/-- A payload byte takes at most four bytes of text. -/
theorem payloadJsonBytes_le (bytes : Bytes) : payloadJsonBytes bytes ≤ 4 * bytes.length := by
  unfold payloadJsonBytes
  split_ifs with blank
  · exact Nat.zero_le _
  · have each := List.sum_le_card_nsmul (bytes.map (fun b : UInt8 => if 100 ≤ b then 3 else if 10 ≤ b then 2 else 1)) 3
      (by
        intro n member
        obtain ⟨b, -, rfl⟩ := List.mem_map.mp member
        split_ifs <;> omega)
    rw [List.length_map, Nat.nsmul_eq_mul] at each
    omega

theorem payloadBytes_le_outputBytes (s : Store) : payloadBytes s ≤ 4 * outputBytes s := by
  have rows : (s.jobs.map jobPayload).sum ≤ 4 * (s.jobs.map jobBytes).sum := by
    rw [← List.sum_map_mul_left]
    refine List.sum_le_sum (fun j _ => ?_)
    have out := payloadJsonBytes_le j.stdout
    have err := payloadJsonBytes_le j.stderr
    unfold jobPayload jobBytes
    omega
  have entries : (s.history.entries.values.map replicaPayload).sum ≤
      4 * (s.history.entries.values.map replicaBytes).sum := by
    rw [← List.sum_map_mul_left]
    refine List.sum_le_sum (fun e _ => ?_)
    unfold replicaPayload replicaBytes
    cases e.output with
    | none => exact le_rfl
    | some o =>
      have out := payloadJsonBytes_le o.stdout
      have err := payloadJsonBytes_le o.stderr
      change payloadJsonBytes o.stdout + payloadJsonBytes o.stderr ≤ 4 * (o.stdout.length + o.stderr.length)
      omega
  unfold payloadBytes outputBytes
  omega

/-- The charge covers the text of a state whose payloads fit the budget. -/
theorem size_le_charge (fits : outputBytes s ≤ outputBudget) : Json.size s ≤ charge s := by
  have payload := payloadBytes_le_outputBytes s
  unfold charge completionCharge
  omega

theorem reserveCompletion_eq_ok_iff {old : Store} {encoded : ℕ} : reserveCompletion s old encoded = .ok () ↔
    completionCharge s encoded ≤ stateBytes ∨
      (Json.size old ≤ stateBytes ∧ completionCharge s encoded ≤ charge old) := by
  unfold reserveCompletion
  split_ifs with small
  · exact ⟨fun _ => .inl small, fun _ => rfl⟩
  · rw [Except.bind_eq_ok]
    constructor
    · rintro ⟨text, encoded, accepted⟩
      rw [encode, Except.refuseIf_bind_eq_ok] at encoded
      obtain ⟨fits, written⟩ := encoded
      cases written
      exact .inr ⟨not_lt.mp fits, not_lt.mp (Except.refuseIf_eq_ok.mp accepted)⟩
    · rintro (charged | ⟨fits, charged⟩)
      · exact absurd charged small
      · refine ⟨toVec old, ?_, Except.refuseIf_eq_ok.mpr (not_lt.mpr charged)⟩
        rw [encode, Except.refuseIf_bind_eq_ok]
        exact ⟨not_lt.mpr fits, rfl⟩

end Storage

end Clix
