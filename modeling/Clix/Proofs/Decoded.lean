import Clix.Model.Decode

/-! # What comes back from a message

Every certificate, fact and record is written as its JSON value is, and is what is read from that value, whatever the
order of the fields. The size of an output is the only number that a machine may not hold.
-/

namespace Clix

open Json

/-! ## What is written -/

section Written

/-- A variant is written as its value is. -/
theorem text_variantValue (name key : String) (v : Value) :
    (variantValue name key v).text = variant name key v.text := by
  rw [variantValue, Value.text]
  simp only [List.map_cons, List.map_nil]
  rw [Value.text]
  rfl

instance : LawfulValue BodyId := ⟨fun b => Value.text.eq_def (.string b.name)⟩

instance : LawfulValue Role := ⟨fun r => by cases r <;> exact Value.text.eq_def (.string _)⟩

instance : LawfulValue JobStatus where
  text_toValue s := by
    cases s with
    | done exit => exact (text_variantValue _ _ _).trans (congrArg (variant _ _) (text_toValue exit))
    | denied reason => exact (text_variantValue _ _ _).trans (congrArg (variant _ _) (text_toValue reason))
    | failed reason => exact (text_variantValue _ _ _).trans (congrArg (variant _ _) (text_toValue reason))
    | uncertain reason => exact (text_variantValue _ _ _).trans (congrArg (variant _ _) (text_toValue reason))
    | _ => exact Value.text.eq_def (.string _)

instance : LawfulValue OutputRef where
  text_toValue o := by
    refine (text_record OutputRef.names _).trans ?_
    simp only [OutputRef.names, OutputRef.values, List.zip_cons_cons, List.zip_nil_right, List.map_cons,
      List.map_nil,
      text_toValue]
    rfl

instance : LawfulValue Fact where
  text_toValue f := by
    refine (text_record Fact.names _).trans ?_
    simp only [Fact.names, Fact.values, List.zip_cons_cons, List.zip_nil_right, List.map_cons, List.map_nil,
      text_toValue]
    rfl

instance : LawfulValue Invocation where
  text_toValue i := by
    refine (text_record Invocation.names _).trans ?_
    simp only [Invocation.names, Invocation.values, List.zip_cons_cons, List.zip_nil_right, List.map_cons,
      List.map_nil,
      text_toValue]
    rfl

end Written

/-! ## What is carried -/

/-- The size of an output is one that a machine can hold. -/
def OutputRef.Sized (word : ℕ) (o : OutputRef) : Prop := o.bytes < word

/-- Both streams of a fact are of such sizes. -/
def Fact.Sized (word : ℕ) (f : Fact) : Prop := f.stdout.Sized word ∧ f.stderr.Sized word

/-- So are those of every fact of a record. -/
def Record.Sized (word : ℕ) (r : Record) : Prop :=
  (∀ signed, r.origin = some signed → signed.fact.Sized word) ∧
    ∀ signed, r.runner = some signed → signed.fact.Sized word

/-- So are those of every record of a page. -/
def Page.Sized (word : ℕ) (p : Page) : Prop := ∀ e ∈ p.entries, e.record.Sized word

section Carried

variable {word depth : ℕ}

/-- A machine is read back by its name. -/
theorem carries_bodyId (b : BodyId) : Carries word depth b :=
  have name : Carries word depth b.name := carries_string _
  ⟨name.fits, fun _ => rfl⟩

theorem carries_role (r : Role) : Carries word depth r := by
  refine ⟨fun keeps => ?_, fun keeps => ?_⟩
  · cases r <;> cases depth <;> trivial
  · cases r <;> rfl

/-- A status with a reason or a code is an object of one field. -/
theorem carries_status (s : JobStatus) : Carries word (depth + 2) s := by
  have text (reason : String) : Carries word depth reason := carries_string _
  have number (exit : Int32) : Carries word depth exit := carries_int32 _
  refine ⟨fun keeps => ?_, fun {order} keeps => ?_⟩
  · cases s with
    | done exit => exact keeps.fits_variant ((number exit).fits keeps)
    | denied reason => exact keeps.fits_variant ((text reason).fits keeps)
    | failed reason => exact keeps.fits_variant ((text reason).fits keeps)
    | uncertain reason => exact keeps.fits_variant ((text reason).fits keeps)
    | _ => trivial
  · cases s with
    | done exit =>
      change ((fromValue word (toValue order exit)).map JobStatus.done : Option JobStatus) = _
      rw [(number exit).back keeps, Option.map_some]
    | _ => rfl

/-- An output is read back as long as the machine can hold its size. -/
theorem carries_outputRef {o : OutputRef} (sized : o.Sized word) : Carries word (depth + 1) o := by
  have bytes : Carries word depth o.bytes := carries_nat sized
  have sha256 : Carries word depth o.sha256 := carries_string _
  refine ⟨fun keeps => keeps.fits_record ?_, fun {order} keeps => ?_⟩
  · simp only [OutputRef.values, List.forall_mem_cons]
    exact ⟨bytes.fits keeps, sha256.fits keeps, List.forall_mem_nil _⟩
  · change fromValue word (Json.record order OutputRef.names (o.values order)) = some o
    simp only [fromValue, Value.fields, Json.record, Option.bind_eq_bind, Option.bind_some,
      keeps.fieldOf_record (show OutputRef.names.Nodup by decide) (o.values order) rfl]
    simp [fieldOf, OutputRef.names, OutputRef.values, OrdMap.lookupEntry, bytes.back keeps, sha256.back keeps]

/-- So is a fact, whose outputs are the only part with a size. -/
theorem carries_fact {f : Fact} (sized : f.Sized word) : Carries word (depth + 3) f := by
  have invocation : Carries word (depth + 2) f.invocation := carries_string _
  have role : Carries word (depth + 2) f.role := carries_role _
  have revision : Carries word (depth + 2) f.revision := carries_uInt64 _
  have status : Carries word (depth + 2) f.status := carries_status _
  have stdout : Carries word (depth + 2) f.stdout := carries_outputRef sized.1
  have stderr : Carries word (depth + 2) f.stderr := carries_outputRef sized.2
  refine ⟨fun keeps => keeps.fits_record ?_, fun {order} keeps => ?_⟩
  · simp only [Fact.values, List.forall_mem_cons]
    exact ⟨invocation.fits keeps, role.fits keeps, revision.fits keeps, status.fits keeps, stdout.fits keeps,
      stderr.fits keeps, List.forall_mem_nil _⟩
  · change fromValue word (Json.record order Fact.names (f.values order)) = some f
    simp only [fromValue, Value.fields, Json.record, Option.bind_eq_bind, Option.bind_some,
      keeps.fieldOf_record (show Fact.names.Nodup by decide) (f.values order) rfl]
    simp [fieldOf, Fact.names, Fact.values, OrdMap.lookupEntry, invocation.back keeps, role.back keeps,
      revision.back keeps,
      status.back keeps, stdout.back keeps, stderr.back keeps]

/-- An invocation is read back with what is absent from it. -/
theorem carries_invocation (i : Invocation) : Carries word (depth + 2) i := by
  have id : Carries word (depth + 1) i.id := carries_string _
  have origin : Carries word (depth + 1) i.origin := carries_bodyId _
  have originKey : Carries word (depth + 1) i.originKey := carries_list (fun b _ => carries_uInt8 b)
  have body : Carries word (depth + 1) i.body := carries_bodyId _
  have runnerKey : Carries word (depth + 1) i.runnerKey := carries_list (fun b _ => carries_uInt8 b)
  have argv : Carries word (depth + 1) i.argv := carries_list (fun s _ => carries_string s)
  have retryOf : Carries word (depth + 1) i.retryOf :=
    carries_option (fun s _ => carries_string s) (fun _ _ => nofun)
  have legacyObserver : Carries word (depth + 1) i.legacyObserver :=
    carries_option (fun b _ => carries_bodyId b) (fun _ _ => nofun)
  refine ⟨fun keeps => keeps.fits_record ?_, fun {order} keeps => ?_⟩
  · simp only [Invocation.values, List.forall_mem_cons]
    exact ⟨id.fits keeps, origin.fits keeps, originKey.fits keeps, body.fits keeps, runnerKey.fits keeps,
      argv.fits keeps, retryOf.fits keeps, legacyObserver.fits keeps, List.forall_mem_nil _⟩
  · change fromValue word (Json.record order Invocation.names (i.values order)) = some i
    simp only [fromValue, Value.fields, Json.record, Option.bind_eq_bind, Option.bind_some,
      keeps.fieldOf_record (show Invocation.names.Nodup by decide) (i.values order) rfl]
    simp [fieldOf, Invocation.names, Invocation.values, OrdMap.lookupEntry, id.back keeps, origin.back keeps,
      originKey.back keeps, body.back keeps, runnerKey.back keeps, argv.back keeps, retryOf.back keeps,
      legacyObserver.back keeps]

/-- A certificate is read back with its signature. -/
theorem carries_certificate (cert : Certificate) : Carries word (depth + 3) cert := by
  have invocation : Carries word (depth + 2) cert.invocation := carries_invocation _
  have signature : Carries word (depth + 2) cert.signature := carries_list (fun b _ => carries_uInt8 b)
  refine ⟨fun keeps => keeps.fits_record ?_, fun {order} keeps => ?_⟩
  · simp only [Certificate.values, List.forall_mem_cons]
    exact ⟨invocation.fits keeps, signature.fits keeps, List.forall_mem_nil _⟩
  · change fromValue word (Json.record order Certificate.names (cert.values order)) = some cert
    simp only [fromValue, Value.fields, Json.record, Option.bind_eq_bind, Option.bind_some,
      keeps.fieldOf_record (show Certificate.names.Nodup by decide) (cert.values order) rfl]
    simp [fieldOf, Certificate.names, Certificate.values, OrdMap.lookupEntry, invocation.back keeps,
      signature.back keeps]

theorem carries_signedFact {signed : SignedFact} (sized : signed.fact.Sized word) :
    Carries word (depth + 4) signed := by
  have fact : Carries word (depth + 3) signed.fact := carries_fact sized
  have signature : Carries word (depth + 3) signed.signature := carries_list (fun b _ => carries_uInt8 b)
  refine ⟨fun keeps => keeps.fits_record ?_, fun {order} keeps => ?_⟩
  · simp only [SignedFact.values, List.forall_mem_cons]
    exact ⟨fact.fits keeps, signature.fits keeps, List.forall_mem_nil _⟩
  · change fromValue word (Json.record order SignedFact.names (signed.values order)) = some signed
    simp only [fromValue, Value.fields, Json.record, Option.bind_eq_bind, Option.bind_some,
      keeps.fieldOf_record (show SignedFact.names.Nodup by decide) (signed.values order) rfl]
    simp [fieldOf, SignedFact.names, SignedFact.values, OrdMap.lookupEntry, fact.back keeps, signature.back keeps]

/-- A record is read back with the facts it has. -/
theorem carries_record {r : Record} (sized : r.Sized word) : Carries word (depth + 5) r := by
  have certificate : Carries word (depth + 4) r.certificate := carries_certificate _
  have origin : Carries word (depth + 4) r.origin :=
    carries_option (fun signed same => carries_signedFact (sized.1 signed same)) (fun _ _ => nofun)
  have runner : Carries word (depth + 4) r.runner :=
    carries_option (fun signed same => carries_signedFact (sized.2 signed same)) (fun _ _ => nofun)
  refine ⟨fun keeps => keeps.fits_record ?_, fun {order} keeps => ?_⟩
  · simp only [Record.values, List.forall_mem_cons]
    exact ⟨certificate.fits keeps, origin.fits keeps, runner.fits keeps, List.forall_mem_nil _⟩
  · change fromValue word (Json.record order Record.names (r.values order)) = some r
    simp only [fromValue, Value.fields, Json.record, Option.bind_eq_bind, Option.bind_some,
      keeps.fieldOf_record (show Record.names.Nodup by decide) (r.values order) rfl]
    simp [fieldOf, Record.names, Record.values, OrdMap.lookupEntry, certificate.back keeps, origin.back keeps,
      runner.back keeps]

theorem carries_capturedOutput (o : CapturedOutput) : Carries word (depth + 2) o := by
  have stdout : Carries word (depth + 1) o.stdout := carries_list (fun b _ => carries_uInt8 b)
  have stderr : Carries word (depth + 1) o.stderr := carries_list (fun b _ => carries_uInt8 b)
  refine ⟨fun keeps => keeps.fits_record ?_, fun {order} keeps => ?_⟩
  · simp only [CapturedOutput.values, List.forall_mem_cons]
    exact ⟨stdout.fits keeps, stderr.fits keeps, List.forall_mem_nil _⟩
  · change fromValue word (Json.record order CapturedOutput.names (o.values order)) = some o
    simp only [fromValue, Value.fields, Json.record, Option.bind_eq_bind, Option.bind_some,
      keeps.fieldOf_record (show CapturedOutput.names.Nodup by decide) (o.values order) rfl]
    simp [fieldOf, CapturedOutput.names, CapturedOutput.values, OrdMap.lookupEntry, stdout.back keeps,
      stderr.back keeps]

/-- A row of a page is read back with its output, if there is any. -/
theorem carries_published {p : Published} (sized : p.record.Sized word) : Carries word (depth + 6) p := by
  have record : Carries word (depth + 5) p.record := carries_record sized
  have output : Carries word (depth + 5) p.output :=
    carries_option (fun o _ => carries_capturedOutput o) (fun _ _ => nofun)
  have change : Carries word (depth + 5) p.change := carries_uInt64 _
  refine ⟨fun keeps => keeps.fits_record ?_, fun {order} keeps => ?_⟩
  · simp only [Published.values, List.forall_mem_cons]
    exact ⟨record.fits keeps, output.fits keeps, change.fits keeps, List.forall_mem_nil _⟩
  · change fromValue word (Json.record order Published.names (p.values order)) = some p
    simp only [fromValue, Value.fields, Json.record, Option.bind_eq_bind, Option.bind_some,
      keeps.fieldOf_record (show Published.names.Nodup by decide) (p.values order) rfl]
    simp [fieldOf, Published.names, Published.values, OrdMap.lookupEntry, record.back keeps, output.back keeps,
      change.back keeps]

/-- A page is read back row by row. -/
theorem carries_page {p : Page} (sized : p.Sized word) : Carries word (depth + 8) p := by
  have epoch : Carries word (depth + 7) p.epoch := carries_string _
  have reset : Carries word (depth + 7) p.reset := carries_bool _
  have high : Carries word (depth + 7) p.high := carries_uInt64 _
  have next : Carries word (depth + 7) p.next := carries_uInt64 _
  have complete : Carries word (depth + 7) p.complete := carries_bool _
  have entries : Carries word (depth + 7) p.entries :=
    carries_list (fun p listed => carries_published (sized p listed))
  refine ⟨fun keeps => keeps.fits_record ?_, fun {order} keeps => ?_⟩
  · simp only [Page.values, List.forall_mem_cons]
    exact ⟨epoch.fits keeps, reset.fits keeps, high.fits keeps, next.fits keeps, complete.fits keeps,
      entries.fits keeps, List.forall_mem_nil _⟩
  · change fromValue word (Json.record order Page.names (p.values order)) = some p
    simp only [fromValue, Value.fields, Json.record, Option.bind_eq_bind, Option.bind_some,
      keeps.fieldOf_record (show Page.names.Nodup by decide) (p.values order) rfl]
    simp [fieldOf, Page.names, Page.values, OrdMap.lookupEntry, epoch.back keeps, reset.back keeps, high.back keeps,
      next.back keeps, complete.back keeps, entries.back keeps]

end Carried

/-! ## Messages -/

namespace Mesh

variable {word : ℕ} {v : Value}

/-- A message arrives as it was sent, unless it is longer than a frame. -/
theorem deliver_eq (fits : Fits inOrder maxDepth v) :
    deliver v = if Limits.meshFrameBytes < v.text.length then none else some v := by
  rw [deliver, fromSlice_text fits]

/-- A runner reads the certificate that was sent, or nothing of a request that is too long. -/
theorem carryCertificate_eq (word : ℕ) (op : String) (cert : Certificate) : carryCertificate word op cert =
    if Limits.meshFrameBytes < (certifiedRequest op cert).text.length then none else some cert := by
  have name : Carries word 126 op := carries_string op
  have carried : Carries word 126 cert := carries_certificate cert
  have fits : Fits inOrder maxDepth (certifiedRequest op cert) := by
    refine keeps_inOrder.fits_record ?_
    simp only [List.forall_mem_cons]
    exact ⟨name.fits keeps_inOrder, carried.fits keeps_inOrder, List.forall_mem_nil _⟩
  have found : (certifiedRequest op cert).get "invocation" = some (toValue inOrder cert) := by
    rw [certifiedRequest, keeps_inOrder.get_record (by decide) _ rfl]
    rfl
  rw [carryCertificate, deliver_eq fits]
  split_ifs with long
  · rfl
  · simp only [Option.bind_eq_bind, Option.bind_some]
    rw [found, Option.getD_some, carried.back keeps_inOrder]

/-- A row is within the depth that a reader goes down to. -/
theorem fits_job {order : Fields → Fields} {depth : ℕ} (keeps : Keeps order) (job : Job) :
    Fits order (depth + 3) (toValue order job) := by
  have text (s : String) : Carries 0 (depth + 2) s := carries_string s
  have name (b : BodyId) : Carries 0 (depth + 2) b := carries_bodyId b
  have argv : Carries 0 (depth + 2) job.argv := carries_list (fun s _ => carries_string s)
  have status : Carries 0 (depth + 2) job.status := carries_status _
  have output (bytes : Bytes) : Carries 0 (depth + 2) bytes := carries_list (fun b _ => carries_uInt8 b)
  refine keeps.fits_record ?_
  simp only [Job.values, List.forall_mem_cons]
  exact ⟨(text _).fits keeps, (name _).fits keeps, argv.fits keeps, (name _).fits keeps, status.fits keeps,
    (output _).fits keeps, (output _).fits keeps, List.forall_mem_nil _⟩

/-- An origin reads the record that was sent, or nothing of an answer that is too long. -/
theorem carryReply_eq (job : Job) {history : Published} (sized : history.record.Sized word) :
    carryReply word job history =
      if Limits.meshFrameBytes < (certifiedReply job history).text.length then none else some history := by
  have carried : Carries word 126 history := carries_published sized
  have fits : Fits inOrder maxDepth (certifiedReply job history) := by
    refine keeps_inOrder.fits_record ?_
    simp only [List.forall_mem_cons]
    exact ⟨fits_job keeps_inOrder job, carried.fits keeps_inOrder, List.forall_mem_nil _⟩
  have found : (certifiedReply job history).get "history" = some (toValue inOrder history) := by
    rw [certifiedReply, keeps_inOrder.get_record (by decide) _ rfl]
    rfl
  have told : response (certifiedReply job history) = some (certifiedReply job history) := by
    rw [response, certifiedReply, keeps_inOrder.get_record (by decide) _ rfl]
    rfl
  rw [carryReply, deliver_eq fits]
  split_ifs with long
  · rfl
  · simp only [Option.bind_eq_bind, Option.bind_some]
    rw [told]
    simp only [Option.bind_some]
    rw [found]
    simp only [Option.bind_some]
    exact carried.back keeps_inOrder

/-- A page has no field that a refusal has. -/
theorem response_page (page : Page) : response (toValue inOrder page) = some (toValue inOrder page) := by
  have absent : OrdMap.lookupEntry "ok" (Page.names.zip (page.values inOrder)) = none := by
    simp [Page.names, Page.values, OrdMap.lookupEntry]
  change response (record inOrder Page.names (page.values inOrder)) = _
  rw [response, keeps_inOrder.get_record (by decide) _ rfl, absent]
  rfl

/-- A peer reads the page that was served, or nothing of one that is too long. -/
theorem carryPage_eq {page : Page} (sized : page.Sized word) : carryPage word page =
    if Limits.meshFrameBytes < (toValue inOrder page).text.length then none else some page := by
  have carried : Carries word maxDepth page := carries_page sized
  rw [carryPage, deliver_eq (carried.fits keeps_inOrder)]
  split_ifs with long
  · rfl
  · rw [Option.bind_eq_bind, Option.bind_some, response_page, Option.bind_some]
    exact carried.back keeps_inOrder

end Mesh

end Clix
