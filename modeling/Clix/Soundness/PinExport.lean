import Clix.Proofs.PinExport
import Mathlib.Data.List.TakeWhile

/-! # A successful export is exact

If an export finishes, its chunks are the inspected version, whatever happens to the files meanwhile, and what
the client wrote is the version if it succeeds, wherever the connection breaks. A failure ends an export, but to
ask for its end too early does not.
-/

namespace Clix.Pin

open Except

/-! ## Runs of calls -/

inductive ExportCall where
  | read (length : ℕ)
  | finish
  deriving DecidableEq, Repr

inductive ExportAnswer where
  | chunk (result : Result RecoveryChunk)
  | finished (result : Result Unit)

namespace ExportAnswer

def isOk : ExportAnswer → Bool
  | chunk result => result.isOk
  | finished result => result.isOk

def chunk? : ExportAnswer → Option RecoveryChunk
  | .chunk (.ok x) => some x
  | _ => none

end ExportAnswer

def answer (c : Crypto) (world : ℕ → Scene) (now : ℕ) (x : RecoveryExport) : ExportCall → ExportAnswer × RecoveryExport
  | .read length => (.chunk (x.readChunk c world now length).1, (x.readChunk c world now length).2)
  | .finish => (.finished (x.finish world now).1, (x.finish world now).2)

/-- Calls one after another, each with its own stretch of moments. -/
def run (c : Crypto) (world : ℕ → Scene) : ℕ → RecoveryExport → List ExportCall → List ExportAnswer × RecoveryExport
  | _, x, [] => ([], x)
  | now, x, call :: rest =>
    ((answer c world now x call).1 :: (run c world (now + 25) (answer c world now x call).2 rest).1,
      (run c world (now + 25) (answer c world now x call).2 rest).2)

/-- The chunks that were returned. -/
def chunksOf (answers : List ExportAnswer) : List RecoveryChunk := answers.filterMap ExportAnswer.chunk?

variable {c : Crypto} {d : Disk} {world : ℕ → Scene} {now now' length : ℕ} {x x' : RecoveryExport}
  {chunks : List RecoveryChunk} {content : Bytes} {expected : RecoveryVersion} {id token : String}
  {which : RecoveryRead} {view : RecoveryInspection} {f : File} {call : ExportCall} {calls rest : List ExportCall}
  {retained live : Option RecoveryVersion} {v : RecoveryVersion}

theorem finish_eq_ok (success : x.finish world now = (.ok (), x')) :
    x' = x ∧ x.failed = false ∧ x.complete = true := by
  unfold RecoveryExport.finish at success
  split_ifs at success with early
  · cases success
  · rw [not_or, Bool.not_eq_true, Bool.not_eq_false] at early
    split at success
    · cases success
    · cases success
      exact ⟨rfl, early⟩

/-- One call keeps what is true of an export that has not failed. -/
theorem Streamed.answer (streamed : x.failed = false → Streamed c world expected content x chunks) (call : ExportCall)
    (sound : (answer c world now x call).2.failed = false) : Streamed c world expected content
      (answer c world now x call).2 (chunks ++ (answer c world now x call).1.chunk?.toList) := by
  cases call with
  | read length =>
    cases ran : x.readChunk c world now length with
    | mk result y =>
      simp only [Pin.answer, ran] at sound ⊢
      cases result with
      | error e => rw [RecoveryExport.failed_of_readChunk ran] at sound; cases sound
      | ok chunk =>
        exact ((streamed (RecoveryExport.readChunk_eq_ok ran).1).readChunk ran).2
  | finish =>
    have kept : (x.finish world now).2 = x ∨ (x.finish world now).2.failed = true := by
      unfold RecoveryExport.finish
      split_ifs
      · exact .inl rfl
      · split
        · exact .inr rfl
        · exact .inl rfl
    simp only [Pin.answer, ExportAnswer.chunk?, Option.toList_none, List.append_nil] at sound ⊢
    rcases kept with same | failed
    · rw [same] at sound ⊢
      exact streamed sound
    · rw [failed] at sound
      cases sound

/-- So does a run, by induction on its calls. -/
theorem Streamed.run (streamed : x.failed = false → Streamed c world expected content x chunks) (calls : List ExportCall)
    (sound : (run c world now x calls).2.failed = false) : Streamed c world expected content
      (run c world now x calls).2 (chunks ++ chunksOf (run c world now x calls).1) := by
  induction calls generalizing now x chunks with
  | nil =>
    rw [Pin.run, chunksOf, List.filterMap_nil, List.append_nil]
    exact streamed sound
  | cons call rest ih =>
    have both := ih (Streamed.answer streamed call) sound
    rw [Pin.run]
    dsimp only
    rw [chunksOf, List.filterMap_cons]
    cases taken : (Pin.answer c world now x call).1.chunk? with
    | none => simpa [taken, chunksOf] using both
    | some chunk => simpa [taken, chunksOf] using both

/-! ## After a failure -/

theorem answer_of_failed (failed : x.failed = true) (call : ExportCall) :
    (answer c world now x call).1.isOk = false ∧ (answer c world now x call).2.failed = true := by
  cases call with
  | read length =>
    have ran : x.readChunk c world now length =
        (.error (changed "recovery export already failed; inspect again"), x) := by
      unfold RecoveryExport.readChunk
      rw [if_pos failed]
    simp only [answer, ran]
    exact ⟨rfl, failed⟩
  | finish =>
    have ran : x.finish world now = (.error (changed "recovery export is incomplete or failed"), x) := by
      unfold RecoveryExport.finish
      rw [if_pos (.inl failed)]
    simp only [answer, ran]
    exact ⟨rfl, failed⟩

theorem run_of_failed (failed : x.failed = true) : ∀ a ∈ (run c world now x calls).1, a.isOk = false := by
  induction calls generalizing now x with
  | nil => exact List.forall_mem_nil _
  | cons call rest ih =>
    obtain ⟨bad, still⟩ : (answer c world now x call).1.isOk = false ∧ _ := answer_of_failed failed call
    exact List.forall_mem_cons.mpr ⟨bad, ih still⟩

/-- A call that fails ends the export, unless it asks for the end of an export that goes on. -/
theorem failed_of_answer (bad : (answer c world now x call).1.isOk = false)
    (ends : call = .finish → x.failed = true ∨ x.complete = true) : (answer c world now x call).2.failed = true := by
  cases call with
  | read length =>
    cases ran : x.readChunk c world now length with
    | mk result y =>
      simp only [answer, ran] at bad ⊢
      cases result with
      | error e => exact RecoveryExport.failed_of_readChunk ran
      | ok chunk => cases bad
  | finish =>
    have ended := ends rfl
    simp only [answer, ExportAnswer.isOk] at bad ⊢
    unfold RecoveryExport.finish at bad ⊢
    split_ifs at bad ⊢ with early
    · rcases early with failed | goesOn
      · exact failed
      · exact ended.resolve_right (by rw [goesOn]; simp)
    · split at bad
      · rfl
      · cases bad

/-- To ask too early for the end leaves the export as it was. -/
theorem answer_early (goesOn : x.complete = false) :
    (answer c world now x .finish).1.isOk = false ∧ (answer c world now x .finish).2 = x := by
  have ran : x.finish world now = (.error (changed "recovery export is incomplete or failed"), x) := by
    unfold RecoveryExport.finish
    rw [if_pos (.inr goesOn)]
  simp only [answer, ran]
  exact ⟨rfl, trivial⟩

/-! ## After the last chunk -/

theorem answer_of_complete (complete : x.complete = true) (call : ExportCall) :
    (answer c world now x call).1.chunk? = none ∧ (answer c world now x call).2.complete = true := by
  cases call with
  | read length =>
    cases ran : x.readChunk c world now length with
    | mk result y =>
      simp only [answer, ran]
      cases result with
      | ok chunk =>
        obtain ⟨-, bytes, read, -⟩ := RecoveryExport.readChunk_eq_ok ran
        exact absurd (read.unfinished.symm.trans complete) (by simp)
      | error e => exact ⟨rfl, RecoveryExport.complete_of_readChunk complete ran⟩
  | finish =>
    refine ⟨rfl, ?_⟩
    simp only [answer]
    unfold RecoveryExport.finish
    split_ifs
    · exact complete
    · split <;> exact complete

theorem chunksOf_run_of_complete (complete : x.complete = true) : chunksOf (run c world now x calls).1 = [] := by
  induction calls generalizing now x with
  | nil => rfl
  | cons call rest ih =>
    obtain ⟨silent, still⟩ : (answer c world now x call).1.chunk? = none ∧ _ := answer_of_complete complete call
    rw [run, chunksOf, List.filterMap_cons_none silent]
    exact ih still

/-- Once an end was confirmed, the chunks of the run are those of a complete export. -/
theorem streamed_finished (streamed : x.failed = false → Streamed c world expected content x chunks)
    (ended : .finished (.ok ()) ∈ (run c world now x calls).1) : ∃ y, y.complete = true ∧
      Streamed c world expected content y (chunks ++ chunksOf (run c world now x calls).1) := by
  induction calls generalizing now x chunks with
  | nil => cases ended
  | cons call rest ih =>
    have joined : chunks ++ chunksOf (run c world now x (call :: rest)).1 =
        (chunks ++ (answer c world now x call).1.chunk?.toList) ++
          chunksOf (run c world (now + 25) (answer c world now x call).2 rest).1 := by
      rw [run, chunksOf, List.filterMap_cons, List.append_assoc]
      cases (answer c world now x call).1.chunk? <;> rfl
    rw [joined]
    rcases List.mem_cons.mp ended with first | later
    · cases call with
      | read length => cases first
      | finish =>
        have success : x.finish world now = (.ok (), (x.finish world now).2) := by
          rw [ExportAnswer.finished.inj first]
        obtain ⟨-, sound, complete⟩ := finish_eq_ok success
        refine ⟨x, complete, ?_⟩
        rw [chunksOf_run_of_complete (answer_of_complete complete _).2, List.append_nil]
        exact (List.append_nil chunks).symm ▸ streamed sound
    · exact ih (Streamed.answer streamed call) later

/-! ## Opening -/

/-- The file an export is about. -/
def Selected (d : Disk) (id : String) (view : RecoveryInspection) (f : File) : RecoveryRead → Prop
  | .receipt => (d.tree.saved.get? id).bind (·.file?) = some f
  | .retained => (d.tree.saved.get? view.receipt.version).bind (·.file?) = some f
  | .live => d.tree.live.file? (place view.receipt.path) = some f

/-- The version that an inspection showed of the file; of a receipt it showed what it says. -/
def Displayed (view : RecoveryInspection) (v : RecoveryVersion) : RecoveryRead → Prop
  | .receipt => True
  | .retained => view.retained = some v
  | .live => view.live = some v

theorem file_of_snapshotInternal {name : String} (success : snapshotInternal c d name = .ok (some v)) :
    ∃ f, (d.tree.saved.get? name).bind (·.file?) = some f ∧ v = snapshotFile c f (d.stats.saved name) := by
  obtain ⟨-, -, same⟩ := snapshotInternal_eq_ok.mp success
  obtain ⟨f, found, rfl⟩ := Option.map_eq_some_iff.mp same.symm
  exact ⟨f, found, rfl⟩

theorem file_of_snapshotLive {path : String} (success : snapshotLive c d path = .ok (some v)) :
    ∃ f, d.tree.live.file? (place path) = some f ∧ v = snapshotFile c f (d.stats.live (place path)) := by
  rw [snapshotLive, openLive, bind_eq_ok] at success
  obtain ⟨opened, walked, success⟩ := success
  rw [bind_eq_ok] at walked
  obtain ⟨⟨⟩, -, walked⟩ := walked
  have ends := walk_eq_ok Live.node?_nil (openat2_eq_ok.mp walked).2.2.1
  rw [List.nil_append] at ends
  change opened = (d.tree.live.node? (place path)).map (fun node => (place path, node)) at ends
  cases there : d.tree.live.node? (place path) with
  | none =>
    rw [there] at ends
    subst ends
    cases success
  | some node =>
    rw [there] at ends
    subst ends
    cases node with
    | file f =>
      cases success
      exact ⟨f, Live.file?_eq_some.mpr there, rfl⟩
    | dir => cases success
    | link target => cases success
    | special => cases success

/-- What an inspection shows of the version and of the live file. -/
theorem inspection_versions (success : inspection c d id = .ok view) :
    snapshotInternal c d view.receipt.version = .ok view.retained ∧
      (view.live = none ∨ snapshotLive c d view.receipt.path = .ok view.live) := by
  cases recorded : view.recorded with
  | true =>
    obtain ⟨-, r, -, ran⟩ := inspection_recorded success recorded
    obtain ⟨live, retained, destination, version, rfl⟩ := inspectReceipt_eq_ok.mp ran
    refine ⟨version, ?_⟩
    rw [snapshotDestination] at destination
    split_ifs at destination
    · cases destination
      exact .inl rfl
    · exact .inr destination
  | false =>
    have artifact {explanation : String} (ran : artifactInspection c d id explanation = .ok view) :
        snapshotInternal c d view.receipt.version = .ok view.retained ∧
          (view.live = none ∨ snapshotLive c d view.receipt.path = .ok view.live) := by
      rw [artifactInspection, bind_eq_ok] at ran
      obtain ⟨⟨⟩, -, ran⟩ := ran
      rw [bind_eq_ok] at ran
      obtain ⟨kept, version, ran⟩ := ran
      cases kept with
      | none => cases ran
      | some kept =>
        cases ran
        exact ⟨version, .inl rfl⟩
    rw [inspection, bind_eq_ok] at success
    obtain ⟨⟨⟩, -, success⟩ := success
    split_ifs at success
    · exact artifact success
    · rw [bind_eq_ok] at success
      obtain ⟨opened, -, success⟩ := success
      cases opened with
      | none => cases success
      | some f =>
        dsimp only at success
        split_ifs at success
        · exact artifact success
        · cases read : readAndParse d.tree.saved id with
          | error e =>
            rw [read] at success
            exact artifact success
          | ok r =>
            rw [read] at success
            obtain ⟨live, retained, -, -, rfl⟩ := inspectReceipt_eq_ok.mp success
            cases recorded

/-- An export that opens is about the file that the inspection showed. -/
theorem openRecoveryExport_eq_ok (success : openRecoveryExport c d world id which token = .ok x) :
    inspection c d id = .ok x.view ∧ x.view.token = token ∧ x.failed = false ∧ x.complete = false ∧ x.hashed = [] ∧
      x.offset = 0 ∧ Displayed x.view x.expected which ∧
      ∃ f stamp, Selected d id x.view f which ∧ x.expected = snapshotFile c f stamp := by
  rw [openRecoveryExport, bind_eq_ok] at success
  obtain ⟨view, inspected, success⟩ := success
  rw [refuseIf_bind_eq_ok, refuseIf_bind_eq_ok, not_not] at success
  obtain ⟨same, -, success⟩ := success
  rw [bind_eq_ok] at success
  obtain ⟨receipt, version, success⟩ := success
  rw [bind_eq_ok] at success
  obtain ⟨expected, source, success⟩ := success
  rw [bind_eq_ok] at success
  obtain ⟨⟨⟩, -, success⟩ := success
  cases success
  refine ⟨inspected, same, rfl, rfl, rfl, rfl, ?_⟩
  obtain ⟨retained, live⟩ := inspection_versions inspected
  dsimp only
  cases which with
  | receipt =>
    cases receipt with
    | none => cases source
    | some v =>
      cases source
      rw [receiptVersion] at version
      split_ifs at version
      · obtain ⟨f, there, rfl⟩ := file_of_snapshotInternal version
        exact ⟨trivial, f, _, there, rfl⟩
      · cases version
  | retained =>
    rw [exportSource, bind_eq_ok] at source
    obtain ⟨opened, -, source⟩ := source
    split at source
    · next kept =>
      cases source
      rw [kept] at retained
      obtain ⟨f, there, rfl⟩ := file_of_snapshotInternal retained
      exact ⟨kept, f, _, there, rfl⟩
    · cases source
  | live =>
    rw [exportSource, bind_eq_ok] at source
    obtain ⟨opened, -, source⟩ := source
    split at source
    · next kept =>
      cases source
      rw [kept] at live
      rcases live with absent | live
      · cases absent
      · obtain ⟨f, there, rfl⟩ := file_of_snapshotLive live
        exact ⟨kept, f, _, there, rfl⟩
    · cases source

/-- An export that opens has streamed nothing yet. -/
theorem streamed_open (success : openRecoveryExport c d world id which token = .ok x) (content : Bytes) :
    Streamed c world x.expected content x [] := by
  obtain ⟨-, -, -, unfinished, hashed, offset, -⟩ := openRecoveryExport_eq_ok success
  refine ⟨rfl, hashed, by rw [offset, hashed]; rfl, by rw [offset]; exact Nat.zero_le _, trivial,
    List.forall_mem_nil _, fun _ => List.forall_mem_nil _, fun complete => ?_, fun _ => ?_⟩
  · rw [unfinished] at complete
    cases complete
  · rw [hashed, offset, List.take_zero]

/-- A complete export has the content of the version. -/
theorem Streamed.whole (streamed : Streamed c world expected content x chunks) (complete : x.complete = true)
    (visible : Visible world expected content) (length : content.length = expected.bytes) :
    chunks.flatMap (·.bytes) = content := by
  have total := (streamed.finished complete).length
  rw [← streamed.hashed] at total ⊢
  have taken := streamed.exact visible
  rw [taken, List.take_of_length_le]
  rw [streamed.offset, total, length]

/-! ## What the owner RPC sends -/

theorem not_refused_eq {text : String} {pre : List Response} {chunk : RecoveryChunk} {post : List Response} :
    [Response.refused text] ≠ pre ++ .chunk chunk :: post := by
  intro same
  cases pre with
  | nil => cases same
  | cons a pre => exact absurd (List.cons.inj same).2.symm (by simp)

/-- A chunk that ends the stream was sent after the whole version. -/
theorem serveExport_eof {fuel : ℕ} {pre : List Response} {chunk : RecoveryChunk} {post : List Response}
    (sound : x.failed = false) (streamed : Streamed c world expected content x chunks)
    (sent : serveExport c world fuel now x = pre ++ .chunk chunk :: post) (eof : chunk.eof = true) :
    ∃ earlier : List RecoveryChunk, pre = earlier.map .chunk ∧ Exported c expected (chunks ++ earlier ++ [chunk]) ∧
      (Visible world expected content → content.length = expected.bytes →
        (chunks ++ earlier ++ [chunk]).flatMap (·.bytes) = content) := by
  induction fuel generalizing now x chunks pre with
  | zero => exact absurd sent.symm (by simp [serveExport])
  | succ fuel ih =>
    rw [serveExport] at sent
    cases ran : x.readChunk c world now 65536 with
    | mk result y =>
      rw [ran] at sent
      cases result with
      | error e => exact absurd sent not_refused_eq
      | ok next =>
        obtain ⟨sound', streamed'⟩ := streamed.readChunk ran
        obtain ⟨-, _, -, -, moved, -⟩ := RecoveryExport.readChunk_eq_ok ran
        dsimp only at sent
        split_ifs at sent with ends
        · split at sent
          · exact absurd sent not_refused_eq
          · cases pre with
            | cons a pre => exact absurd (List.cons.inj sent).2.symm (by simp)
            | nil =>
              cases sent
              have complete : y.complete = true := by rw [moved]; exact ends
              refine ⟨[], rfl, ?_, fun visible length => ?_⟩
              · rw [List.append_nil]
                exact streamed'.finished complete
              · rw [List.append_nil]
                exact streamed'.whole complete visible length
        · cases pre with
          | nil =>
            cases sent
            exact absurd eof ends
          | cons a pre =>
            obtain ⟨rfl, later⟩ := List.cons.inj sent
            obtain ⟨earlier, rfl, exported, whole⟩ := ih sound' streamed' later
            refine ⟨next :: earlier, rfl, ?_, ?_⟩ <;> rw [List.append_cons chunks next earlier]
            · exact exported
            · exact whole

/-! ## What arrives at the client -/

/-- What arrives of some responses. The connection or the server may stop at any byte, and the server may try to
send an error after a response that it could not send whole. -/
inductive Wire (text : String) : List Response → Bytes → Prop
  | sent {r : Response} {rest : List Response} {w : Bytes} (later : Wire text rest w) :
      Wire text (r :: rest) (r.line ++ w)
  | cut {r : Response} {rest : List Response} {w : Bytes} (m : ℕ) (short : m < r.line.length)
      (part : w <+: r.line.take m ++ (Response.refused text).line) : Wire text (r :: rest) w
  | ended {w : Bytes} (part : w <+: (Response.refused text).line) : Wire text [] w

/-- The JSON parser reads whole responses back, and refuses a text after which another one starts. -/
structure Parses (decode : Bytes → Option Response) (text : String) (responses : List Response) : Prop where
  whole : ∀ r ∈ responses, decode r.line = some r
  refused : decode (Response.refused text).line = some (.refused text)
  broken : ∀ r ∈ responses, ∀ m, 0 < m → m < r.line.length →
    decode (r.line.take m ++ (Response.refused text).line) = none

theorem newline_not_mem_text (r : Response) : Json.newline ∉ r.text := by
  cases r with
  | refused text =>
    refine Json.newline_not_mem_object ?_
    simp only [List.mem_cons, List.not_mem_nil, or_false, forall_eq_or_imp, forall_eq]
    exact ⟨Json.newline_not_mem_field (Json.newline_not_mem_string _),
      Json.newline_not_mem_field (Json.newline_not_mem_bool _)⟩
  | chunk chunk =>
    refine Json.newline_not_mem_object ?_
    simp only [List.mem_cons, List.not_mem_nil, or_false, forall_eq_or_imp, forall_eq]
    refine ⟨Json.newline_not_mem_field (Json.newline_not_mem_object ?_),
      Json.newline_not_mem_field (Json.newline_not_mem_bool _)⟩
    simp only [List.mem_cons, List.not_mem_nil, or_false, forall_eq_or_imp, forall_eq]
    refine ⟨Json.newline_not_mem_field (Json.newline_not_mem_array ?_),
      Json.newline_not_mem_field (Json.newline_not_mem_bool _),
      Json.newline_not_mem_field (Json.newline_not_mem_digits _),
      Json.newline_not_mem_field (Json.newline_not_mem_digits _)⟩
    intro item listed
    obtain ⟨b, -, rfl⟩ := List.mem_map.mp listed
    exact Json.newline_not_mem_digits _

/-- A line that is read whole is the first line of the input. -/
theorem readUntil_line {input : Bytes} (whole : (readUntil input).1.getLast? = some 10) : ∃ text,
    Json.newline ∉ text ∧ (readUntil input).1 = text ++ [10] ∧ input = text ++ 10 :: (readUntil input).2 := by
  have before : Json.newline ∉ (input.take (maxLine + 1)).takeWhile (· ≠ 10) := fun inside =>
    absurd (List.mem_takeWhile_imp inside) (by decide)
  have split := List.takeWhile_append_dropWhile (p := (· ≠ 10)) (l := input.take (maxLine + 1))
  cases after : (input.take (maxLine + 1)).dropWhile (· ≠ 10) with
  | nil =>
    have line : (readUntil input).1 = (input.take (maxLine + 1)).takeWhile (· ≠ 10) := by
      rw [readUntil, after, List.take_nil, List.append_nil]
    rw [line] at whole
    exact absurd (List.mem_of_getLast? whole) before
  | cons b tail =>
    have stop : b = 10 := by
      have head := List.head?_dropWhile_not (fun b : UInt8 => decide (b ≠ 10)) (input.take (maxLine + 1))
      rw [after] at head
      simpa using head
    subst stop
    have line : (readUntil input).1 = (input.take (maxLine + 1)).takeWhile (· ≠ 10) ++ [10] := by
      rw [readUntil, after]
      rfl
    refine ⟨_, before, line, ?_⟩
    rw [after] at split
    have start : (readUntil input).1 <+: input := by
      refine List.IsPrefix.trans ⟨tail, ?_⟩ (List.take_prefix (maxLine + 1) input)
      rw [line, List.append_assoc]
      exact split
    obtain ⟨rest, joined⟩ := start
    have later : input.drop (readUntil input).1.length = rest :=
      (congrArg (List.drop (readUntil input).1.length) joined).symm.trans List.drop_left
    change input = _ ++ 10 :: input.drop (readUntil input).1.length
    rw [later]
    refine joined.symm.trans ?_
    rw [line, List.append_assoc, List.singleton_append]

theorem Parses.tail {decode : Bytes → Option Response} {text : String} {r : Response} {later : List Response}
    (parses : Parses decode text (r :: later)) : Parses decode text later :=
  ⟨fun s listed => parses.whole s (List.mem_cons_of_mem r listed), parses.refused,
    fun s listed => parses.broken s (List.mem_cons_of_mem r listed)⟩

/-- The first whole line of what arrives is a response, or it is refused. -/
theorem Wire.line {decode : Bytes → Option Response} {text : String} {responses : List Response}
    {line input : Bytes} (parses : Parses decode text responses) (wire : Wire text responses (line ++ 10 :: input))
    (clear : Json.newline ∉ line) :
    (∃ r later, responses = r :: later ∧ decode (line ++ [10]) = some r ∧ Wire text later input) ∨
      decode (line ++ [10]) = none ∨ decode (line ++ [10]) = some (.refused text) := by
  have only {t : Bytes} (free : Json.newline ∉ t) (part : line ++ 10 :: input <+: t ++ [10]) : line = t := by
    obtain ⟨more, joined⟩ := part
    rw [List.append_assoc, List.cons_append] at joined
    exact (List.line_inj clear free joined).1
  generalize arrived : line ++ 10 :: input = w at wire
  cases wire with
  | @sent r rest w later =>
    rw [Response.line, List.append_assoc, List.singleton_append] at arrived
    obtain ⟨rfl, rfl⟩ := List.line_inj clear (newline_not_mem_text r) arrived
    exact .inl ⟨r, rest, rfl, parses.whole r List.mem_cons_self, later⟩
  | @cut r rest _ m short part =>
    have within : m ≤ r.text.length := by
      rw [Response.line, List.length_append, List.length_singleton] at short
      omega
    have taken : r.line.take m = r.text.take m := by rw [Response.line, List.take_append_of_le_length within]
    have line_eq : r.line.take m ++ (Response.refused text).line =
        (r.line.take m ++ (Response.refused text).text) ++ [10] := (List.append_assoc _ _ _).symm
    rw [← arrived, line_eq] at part
    have free : Json.newline ∉ r.line.take m ++ (Response.refused text).text := by
      rw [List.mem_append, not_or, taken]
      exact ⟨fun inside => newline_not_mem_text r (List.mem_of_mem_take inside), newline_not_mem_text _⟩
    rw [only free part, ← line_eq]
    rcases Nat.eq_zero_or_pos m with rfl | positive
    · exact .inr (.inr parses.refused)
    · exact .inr (.inl (parses.broken r List.mem_cons_self m positive short))
  | ended part =>
    rw [← arrived] at part
    rw [only (newline_not_mem_text _) part]
    exact .inr (.inr parses.refused)

/-- A client that succeeds has read responses up to a chunk that ends the stream. -/
theorem clientLoop_eq_ok {decode : Bytes → Option Response} {text : String} {responses : List Response}
    {fuel offset : ℕ} {total : Option ℕ} {output input out : Bytes} (parses : Parses decode text responses)
    (wire : Wire text responses input)
    (success : clientLoop decode fuel offset total output input = .ok out) :
    ∃ earlier chunk post, responses = earlier.map .chunk ++ .chunk chunk :: post ∧ chunk.eof = true ∧
      out = output ++ (earlier ++ [chunk]).flatMap (·.bytes) := by
  induction fuel generalizing responses offset total output input with
  | zero => cases success
  | succ fuel ih =>
    rw [clientLoop] at success
    dsimp only at success
    rw [refuseIf_bind_eq_ok, not_or, not_not] at success
    obtain ⟨⟨-, whole⟩, success⟩ := success
    obtain ⟨line, clear, read, joined⟩ := readUntil_line whole
    rw [joined] at wire
    rw [read] at success
    rcases Wire.line parses wire clear with ⟨r, later, rfl, decoded, more⟩ | refused | refused
    · rw [decoded] at success
      cases r with
      | refused text => cases success
      | chunk chunk =>
        dsimp only at success
        rw [refuseIf_bind_eq_ok, refuseIf_bind_eq_ok, refuseIf_bind_eq_ok] at success
        obtain ⟨-, -, -, success⟩ := success
        split_ifs at success with eof
        · cases success
          exact ⟨[], chunk, later, rfl, eof, by simp⟩
        · obtain ⟨earlier, final, post, rfl, ends, rfl⟩ := ih parses.tail more success
          exact ⟨chunk :: earlier, final, post, rfl, ends, by simp⟩
    · rw [refused] at success
      cases success
    · rw [refused] at success
      cases success

/-! ## Every export -/

/-- Whatever changes around an export that opened: if its end is confirmed, the chunks are the version that the
inspection showed; a failure ends it, unless the end was asked for too early, which changes nothing; and a client
that succeeds wrote that version, wherever the server or the connection stops. -/
theorem export_exact (opened : openRecoveryExport c d world id which token = .ok x) :
    inspection c d id = .ok x.view ∧ x.view.token = token ∧ Displayed x.view x.expected which ∧
      ∃ f stamp, Selected d id x.view f which ∧ x.expected = snapshotFile c f stamp ∧
        (∀ now calls, .finished (.ok ()) ∈ (run c world now x calls).1 →
          Exported c x.expected (chunksOf (run c world now x calls).1) ∧
            (Visible world x.expected f.bytes →
              (chunksOf (run c world now x calls).1).flatMap (·.bytes) = f.bytes)) ∧
        (∀ (y : RecoveryExport) now call, (answer c world now y call).1.isOk = false →
          if call = .finish ∧ y.failed = false ∧ y.complete = false then (answer c world now y call).2 = y
          else ∀ later calls, ∀ a ∈ (run c world later (answer c world now y call).2 calls).1, a.isOk = false) ∧
        ∀ fuel now decode text w out, Parses decode text (serveExport c world fuel now x) →
          Wire text (serveExport c world fuel now x) w → clientExport decode w = .ok out →
            out.length = x.expected.bytes ∧ c.hash out = x.expected.fingerprint.hash ∧
              (Visible world x.expected f.bytes → out = f.bytes) := by
  obtain ⟨inspected, same, sound, -, -, -, displayed, f, stamp, selected, version⟩ := openRecoveryExport_eq_ok opened
  have length : f.bytes.length = x.expected.bytes := by rw [version]; rfl
  have started := streamed_open opened f.bytes
  refine ⟨inspected, same, displayed, f, stamp, selected, version, fun now calls ended => ?_,
    fun y now call bad => ?_, fun fuel now decode text w out parses wire success => ?_⟩
  · obtain ⟨y, complete, streamed⟩ := streamed_finished (fun _ => started) ended
    rw [List.nil_append] at streamed
    exact ⟨streamed.finished complete, fun visible => streamed.whole complete visible length⟩
  · split_ifs with early
    · rw [early.1]
      exact (answer_early early.2.2).2
    · refine fun later calls => run_of_failed (failed_of_answer bad fun asked => ?_)
      by_contra neither
      rw [not_or, Bool.not_eq_true, Bool.not_eq_true] at neither
      exact early ⟨asked, neither⟩
  · obtain ⟨earlier, chunk, post, responses, eof, rfl⟩ := clientLoop_eq_ok parses wire success
    obtain ⟨served, same, exported, whole⟩ := serveExport_eof sound started responses eof
    have injective : Function.Injective Response.chunk := fun a b eq => Response.chunk.inj eq
    obtain rfl := List.map_injective_iff.mpr injective same
    rw [List.nil_append] at exported whole ⊢
    exact ⟨exported.length, exported.hash, fun visible => whole visible length⟩

/-! A saved file that is exported over a socket, and an end that is asked for too early. -/

namespace ExportExample

def saved : File := ⟨[104, 105], 0o600⟩

def stamp : Stamp := ⟨1, 2, 3, 4, 5, 6⟩

def disk : Disk := ⟨⟨Live.empty, (∅ : OrdMap String Artifact).insert "saved" (.file saved)⟩,
  ⟨fun _ => stamp, fun _ => stamp⟩⟩

def directory : DirectoryStat := ⟨⟨1, 7, 3, 4, 5, 6⟩, 4096, 0o40700⟩

/-- Nothing changes. -/
def scene (_ : ℕ) : Scene := ⟨some (1, 8), (1, 8), .ok (some directory), directory, (saved, stamp), .ok none,
  .ok none, .ok (some (saved, stamp))⟩

def version : RecoveryVersion := snapshotFile Crypto.transparent saved stamp

def inspected : RecoveryInspection where
  id := "saved"
  recorded := false
  receipt := ⟨"", some version.fingerprint, none, "saved", .resolved, none, none⟩
  live := none
  retained := some version
  token := Crypto.transparent.hash (Json.array [Json.toVec "saved", Json.toVec version])
  explanation := "unreferenced saved or staged data; no original path is inferred" ++
    "; export retained bytes or explicitly discard only this artifact"

def opened : RecoveryExport := ⟨version, inspected, none, directory, 0, [], false, false⟩

theorem inspected_ok : inspection Crypto.transparent disk "saved" = .ok inspected := by
  have named : validRecoveryName "saved" = .ok () := by decide
  rw [inspection, named]
  rfl

theorem opened_ok :
    openRecoveryExport Crypto.transparent disk scene "saved" .retained inspected.token = .ok opened := by
  refine bind_eq_ok.mpr ⟨inspected, inspected_ok, refuseIf_bind_eq_ok.mpr ⟨not_not.mpr rfl, ?_⟩⟩
  rfl

/-- The response that carries the whole file. -/
def response : Response := .chunk ⟨0, 2, [104, 105], true⟩

def problem : String := "broken pipe"

/-- Reads the texts that can arrive here. -/
def decode (line : Bytes) : Option Response :=
  if line = response.line then some response
  else if line = (Response.refused problem).line then some (.refused problem)
  else none

theorem served : serveExport Crypto.transparent scene 1 0 opened = [response] := by
  rfl

theorem response_parses : Parses decode problem [response] := by
  refine ⟨fun r listed => ?_, by decide, fun r listed m positive _ => ?_⟩
  · rw [List.mem_singleton.mp listed, decode, if_pos rfl]
  · have longer : r.line.take m ++ (Response.refused problem).line ≠ (Response.refused problem).line := by
      intro same
      have nothing := List.self_eq_append_left.mp same.symm
      rw [List.take_eq_nil_iff] at nothing
      rcases nothing with zero | empty
      · omega
      · simp [Response.line] at empty
    have other : r.line.take m ++ (Response.refused problem).line ≠ response.line := fun same =>
      absurd (same ▸ List.suffix_append _ _ : (Response.refused problem).line <:+ response.line) (by decide)
    rw [decode, if_neg other, if_neg longer]

/-- A client that gets the response whole writes the file. -/
theorem saved_exported : clientExport decode response.line = .ok saved.bytes ∧
    saved.bytes.length = opened.expected.bytes ∧
    Crypto.transparent.hash saved.bytes = opened.expected.fingerprint.hash := by
  have written : clientExport decode response.line = .ok saved.bytes := by decide
  obtain ⟨-, -, -, f, _, -, -, -, -, client⟩ := export_exact opened_ok
  have parses : Parses decode problem (serveExport Crypto.transparent scene 1 0 opened) := served ▸ response_parses
  have arrives : Wire problem (serveExport Crypto.transparent scene 1 0 opened) response.line :=
    served ▸ .sent (.ended List.nil_prefix)
  obtain ⟨length, hash, -⟩ := client 1 0 decode problem response.line saved.bytes parses arrives written
  exact ⟨written, length, hash⟩

/-- An end that is asked for before the last chunk fails, and the export goes on to succeed. -/
theorem early_end_recovers : openRecoveryExport Crypto.transparent disk scene "saved" .retained inspected.token =
    .ok opened ∧ (run Crypto.transparent scene 0 opened [.finish, .read 65536, .finish]).1.map ExportAnswer.isOk =
      [false, true, true] :=
  ⟨opened_ok, rfl⟩

end ExportExample

end Clix.Pin
