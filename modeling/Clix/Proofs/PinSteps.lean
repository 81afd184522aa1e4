import Clix.Proofs.PinStops

/-! # What owner actions leave of the recovery directory

An owner action writes a receipt that can be read back, and takes away nothing that another receipt tells of. So the
directory is recoverable after every action, wherever it stops.
-/

namespace Clix.Pin

open Except

variable {c : Crypto} {host : Host} {s : Store} {ids : Ids} {stats later : Stats} {draft : Draft} {d : Disk}
  {t u : Tree} {id fresh token name : String} {r : RecoveryReceipt} {steps : ℕ} {ops : List Op}
  {choice : RecoveryChoice} {before after view : RecoveryInspection} {live retained : Option RecoveryVersion}

theorem performThen_cases {α : Type} {next : ℕ → Tree → Option (Result α) × Tree} {outcome : Option (Result α)}
    (ran : performThen ops steps t next = (outcome, u)) :
    (∃ stopped, perform ops steps t = (stopped, u) ∧ ∀ a, outcome ≠ some (.ok a)) ∨
    ∃ middle, perform ops steps t = (some (.ok ()), middle) ∧ next (steps - ops.length) middle = (outcome, u) := by
  rw [performThen] at ran
  cases performed : perform ops steps t with
  | mk stopped middle =>
    rw [performed] at ran
    rcases stopped with _ | ⟨e | ⟨⟨⟩⟩⟩
    · cases ran
      exact .inl ⟨_, rfl, by simp⟩
    · cases ran
      exact .inl ⟨_, rfl, by simp⟩
    · exact .inr ⟨middle, rfl, ran⟩

/-! ## Inspections -/

/-- A recorded inspection shows a receipt of the directory, with the token of what it shows. -/
theorem Recoverable.recorded (rec : Recoverable c d.tree) (ran : inspection c d id = .ok view)
    (recorded : view.recorded = true) : HasReceipt d.tree.saved id view.receipt ∧ ∃ live retained,
      snapshotDestination c d view.receipt = .ok live ∧ snapshotInternal c d view.receipt.version = .ok retained ∧
        view = shown c id view.receipt live retained := by
  obtain ⟨json, r, read, ran⟩ := inspection_recorded ran recorded
  obtain ⟨live, retained, destination, version, rfl⟩ := inspectReceipt_eq_ok.mp ran
  obtain ⟨text, found, -, -, -⟩ := readAndParse_eq_ok read
  obtain ⟨r', same, -⟩ := rec.receipts id _ found json
  refine ⟨⟨json, found.trans (congrArg some ?_)⟩, live, retained, destination, version, rfl⟩
  rw [Artifact.ofReceipt] at same
  cases same
  rfl

/-- What an inspection shows of data without a receipt. -/
def unrecorded (c : Crypto) (id : String) (version : RecoveryVersion) (explanation : String) :
    RecoveryInspection where
  id := id
  recorded := false
  receipt := ⟨"", some version.fingerprint, none, id, .resolved, none, none⟩
  live := none
  retained := some version
  token := c.hash (Json.array [Json.toVec id, Json.toVec (some version)])
  explanation := explanation

/-- An inspection that is not recorded shows data that no receipt tells of. -/
theorem Recoverable.unrecorded (rec : Recoverable c d.tree) (ran : inspection c d id = .ok view)
    (recorded : view.recorded = false) : isReceiptName id = false ∧ validRecoveryName id = .ok () ∧
      (∀ name r, HasReceipt d.tree.saved name r → r.version ≠ id) ∧ ∃ version explanation,
        snapshotInternal c d id = .ok (some version) ∧ view = Pin.unrecorded c id version explanation := by
  rw [inspection, bind_eq_ok] at ran
  obtain ⟨⟨⟩, valid, ran⟩ := ran
  split_ifs at ran with data
  · rw [artifactInspection, bind_eq_ok] at ran
    obtain ⟨⟨⟩, unowned, ran⟩ := ran
    rw [bind_eq_ok] at ran
    obtain ⟨retained, kept, ran⟩ := ran
    cases retained with
    | none => cases ran
    | some version =>
      cases ran
      refine ⟨data, valid, fun name r has same => ?_, _, _, kept, rfl⟩
      have each := List.forM_except_eq_ok.mp unowned name (mem_keys_iff_ne_none.mpr (by rw [has.2]; simp))
      have differs : name ≠ id := by
        rintro rfl
        rw [has.1] at data
        cases data
      rw [checkUnowned, rec.named name _ has.2, ok_bind, if_pos ⟨differs, has.1⟩, rec.read has] at each
      exact (refuseIf_eq_ok.mp each) same
  · -- A receipt of a recoverable directory is inspected as one.
    rw [Bool.not_eq_false] at data
    rw [bind_eq_ok] at ran
    obtain ⟨opened, found, ran⟩ := ran
    cases there : d.tree.saved.get? id with
    | none =>
      rw [(openInternal_eq_ok.mp found).2.2, there] at ran
      cases ran
    | some a =>
      obtain ⟨r, rfl, -⟩ := rec.receipts id a there data
      have read := rec.read ⟨data, there⟩
      have small := (rec.written ⟨data, there⟩).small
      rw [openInternal_receipt there valid] at found
      cases found
      dsimp only at ran
      rw [if_neg (not_lt.mpr small), read] at ran
      dsimp only at ran
      obtain ⟨live, retained, -, -, rfl⟩ := inspectReceipt_eq_ok.mp ran
      cases recorded

/-! ## What is written -/

/-- The review of a receipt may be written. -/
theorem Written.reviewed (written : Written c t r) (kept : r.state ≠ .discarding)
    (expected : ∀ v, retained = some v → v.fingerprint.hash.utf8ByteSize = 64)
    (replacement : ∀ v, live = some v → v.fingerprint.hash.utf8ByteSize = 64) :
    Written c t (Pin.reviewed r (live.map (·.fingerprint)) (retained.map (·.fingerprint))) where
  path := written.path.imp_left (fun none => absurd none.2 kept)
  version := written.version
  data := written.data
  temporary tmp := absurd (written.temporary tmp) kept
  expected fp same := by
    obtain ⟨v, found, rfl⟩ := Option.map_eq_some_iff.mp same
    exact expected v found
  replacement fp same := by
    obtain ⟨v, found, rfl⟩ := Option.map_eq_some_iff.mp same
    exact replacement v found
  source := written.source
  token token same := absurd (written.token token same).2 kept
  begun isDiscarding := by cases isDiscarding

theorem snapshotInternal_hash {v : RecoveryVersion} (kept : snapshotInternal c d name = .ok (some v)) :
    v.fingerprint.hash.utf8ByteSize = 64 := by
  rw [snapshotInternal, bind_eq_ok] at kept
  obtain ⟨f, -, kept⟩ := kept
  cases f with
  | none => cases kept
  | some f =>
    cases kept
    exact Crypto.utf8ByteSize_hash c f.bytes

theorem snapshotDestination_hash {v : RecoveryVersion} (kept : snapshotDestination c d r = .ok (some v)) :
    v.fingerprint.hash.utf8ByteSize = 64 := by
  rw [snapshotDestination] at kept
  split_ifs at kept with none
  · cases kept
  have same := snapshotLive_fingerprint kept
  obtain ⟨f, -, found⟩ := Option.map_eq_some_iff.mp same.symm
  dsimp only at found
  rw [← found]
  exact Crypto.utf8ByteSize_hash c f.bytes

/-- What a discard writes of what it is to take away. -/
structure Discarded (c : Crypto) (d : Disk) (id token : String) (view : RecoveryInspection) : Prop where
  version : snapshotInternal c d view.receipt.version = .ok view.retained
  written : Written c d.tree (discarding view token)
  own : ∀ name r, HasReceipt d.tree.saved name r → (view.recorded = true → name ≠ id) →
    r.version ≠ view.receipt.version
  receipt : view.recorded = true → HasReceipt d.tree.saved id view.receipt
  artifact : view.recorded = false → view.receipt.version = id ∧ isReceiptName id = false

theorem discardStart_eq_ok (start : discardStart c s id token d = .ok view) :
    openTree d.tree.live = .ok () ∧ inspection c d id = .ok view ∧
      (view.token = token ∨ view.receipt.state = .discarding ∧ view.receipt.discardToken = some token) := by
  rw [discardStart, bind_eq_ok] at start
  obtain ⟨⟨⟩, -, start⟩ := start
  rw [bind_eq_ok] at start
  obtain ⟨⟨⟩, tree, start⟩ := start
  rw [bind_eq_ok] at start
  obtain ⟨view', ran, start⟩ := start
  dsimp only at start
  rw [refuseIf_bind_eq_ok, refuseIf_bind_eq_ok, refuseIf_bind_eq_ok] at start
  obtain ⟨current, -, -, start⟩ := start
  cases start
  refine ⟨tree, ran, ?_⟩
  by_cases same : view.token = token
  · exact .inl same
  · rw [not_and, Bool.not_eq_false] at current
    exact .inr (of_decide_eq_true (current same))

theorem Recoverable.discarded (rec : Recoverable c d.tree) (start : discardStart c s id token d = .ok view) :
    Discarded c d id token view := by
  obtain ⟨-, ran, current⟩ := discardStart_eq_ok start
  have begun {r : RecoveryReceipt} {retained : Option RecoveryVersion}
      (version : snapshotInternal c d r.version = .ok retained) (a : Artifact)
      (there : d.tree.saved.get? r.version = some a) :
      a.file?.map (·.fingerprint c) = retained.map (·.fingerprint) := by
    rw [version_fingerprint version, there, Option.bind_some]
  cases recorded : view.recorded with
  | true =>
    obtain ⟨has, live, retained, -, version, same⟩ := rec.recorded ran recorded
    have written := rec.written has
    have digest : ∀ v, retained = some v → v.fingerprint.hash.utf8ByteSize = 64 := by
      rintro v rfl
      exact snapshotInternal_hash version
    have kept : view.retained = retained := by rw [same]; rfl
    refine ⟨kept ▸ version, ?_, fun name r other differs equal => ?_, fun _ => has, fun none => ?_⟩
    · refine ⟨written.path.imp_left (fun none => ⟨none.1, rfl⟩), written.version, written.data, fun _ => rfl,
        fun fp some => ?_, written.replacement, written.source, fun token' some => ⟨?_, rfl⟩,
        fun _ => ⟨by simp [discarding], fun a there => ?_⟩⟩
      · obtain ⟨v, found, rfl⟩ := Option.map_eq_some_iff.mp some
        exact digest v (kept ▸ found)
      · cases some
        rcases current with rfl | ⟨-, again⟩
        · rw [same]
          exact Crypto.utf8ByteSize_hash c _
        · exact (written.token token again).1
      · change _ = view.retained.map _
        rw [kept]
        exact begun version a there
    · exact differs recorded (rec.unique name id r _ other has equal)
    · rw [recorded] at none
      cases none
  | false =>
    obtain ⟨data, valid, unowned, version, explanation, kept, rfl⟩ := rec.unrecorded ran recorded
    refine ⟨kept, ?_, fun name r other _ => unowned name r other, (fun h => by cases h), fun _ => ⟨rfl, data⟩⟩
    refine ⟨.inl ⟨rfl, rfl⟩, valid, data, fun _ => rfl, fun fp some => ?_, (fun fp some => by cases some),
      (fun id some => by cases some), fun token' some => ⟨?_, rfl⟩, fun _ => ⟨by simp [discarding], fun a there => ?_⟩⟩
    · cases some
      exact snapshotInternal_hash kept
    · cases some
      rcases current with rfl | ⟨isDiscarding, -⟩
      · exact Crypto.utf8ByteSize_hash c _
      · cases isDiscarding
    · exact begun (r := (Pin.unrecorded c id version explanation).receipt) kept a there

/-! ## One action -/

theorem mayRead_of_snapshot {v : RecoveryVersion} (kept : snapshotInternal c d name = .ok (some v)) :
    mayRead v.fingerprint.mode = true := by
  obtain ⟨-, readable, same⟩ := snapshotInternal_eq_ok.mp kept
  obtain ⟨f, found, rfl⟩ := Option.map_eq_some_iff.mp same.symm
  obtain ⟨a, there, isFile⟩ := Option.bind_eq_some_iff.mp found
  obtain ⟨g, same, mode⟩ := readable a there
  rw [isFile] at same
  cases same
  exact (mayRead_permissions f.mode).trans mode

/-- Where a restoration of a receipt may write, no directory is to be made at the path of another one. -/
theorem Recoverable.spares (rec : Recoverable c t) (has : HasReceipt t.saved id r) (kept : r.state ≠ .discarding)
    {ch : Change} (path : ch.path = r.path) (readable : ∀ new, ch.new = some new → mayRead new.mode = true) :
    Spares t ch := by
  have anchored : Anchored t.live r.path :=
    (rec.written has).path.resolve_left (fun none => kept none.2)
  refine ⟨path ▸ anchored.named, readable, fun name r' _ absent inside => ?_⟩
  have isDir := anchored.parent
  rw [path] at inside
  obtain ⟨rest, same⟩ := inside
  by_cases whole : rest = []
  · rw [whole, List.append_nil] at same
    rw [← same, absent] at isDir
    cases isDir
  · rw [← same] at isDir
    rw [Live.dir_above whole isDir] at absent
    cases absent

/-- An application of which the condition holds keeps the directory recoverable, wherever it stops. -/
theorem Recoverable.applyLocked {ch : Change} {bytes : Option Bytes} (rec : Recoverable c t)
    (unused : ids.Unused t.saved) (spares : applyChecks c host s t ch bytes [] = .ok true → Spares t ch) :
    Recoverable c (Pin.applyLocked c host s ch bytes [] ids none steps t).2 := by
  rw [Pin.applyLocked]
  cases checked : applyChecks c host s t ch bytes [] with
  | error e => exact rec
  | ok due =>
    obtain ⟨current, admitted, ⟨rfl, -⟩ | ⟨rfl, differs, expected, -, -⟩⟩ := applyChecks_eq_ok.mp checked
    · exact rec
    · exact rec.applying unused (fun _ member => absurd member List.not_mem_nil) admitted expected
        (fun same => differs (expected.trans same)) (spares checked) rfl

theorem resolveStart_eq_ok (start : resolveStart c s id token d = .ok before) :
    openTree d.tree.live = .ok () ∧ inspection c d id = .ok before ∧
      before.recorded = true ∧ before.receipt.state ≠ .discarding ∧ before.token = token := by
  rw [resolveStart, bind_eq_ok] at start
  obtain ⟨⟨⟩, -, start⟩ := start
  rw [bind_eq_ok] at start
  obtain ⟨⟨⟩, tree, start⟩ := start
  rw [bind_eq_ok] at start
  obtain ⟨view, ran, start⟩ := start
  rw [refuseIf_bind_eq_ok, refuseIf_bind_eq_ok, refuseIf_bind_eq_ok, not_not, Bool.not_eq_false] at start
  obtain ⟨current, recorded, kept, start⟩ := start
  cases start
  exact ⟨tree, ran, recorded, kept, current⟩

/-- The change that puts a retained version back. -/
def restoring (before : RecoveryInspection) (source : RecoveryVersion) : Change :=
  ⟨before.receipt.path, before.live.map (·.fingerprint), some source.fingerprint, false⟩

/-- A restoration is nothing, or an application that leaves a receipt alone. -/
theorem restorationOps_eq_ok (success : restorationOps c host s ids id token before d = .ok ops) :
    ∃ source f, before.retained = some source ∧ openInternal d.tree.saved before.receipt.version = .ok (some f) ∧
      f.bytes.length ≤ maxFile ∧ fingerprint c f.bytes source.fingerprint.mode = source.fingerprint ∧
      ∃ due, applyChecks c host s d.tree (restoring before source) (some f.bytes) [id] = .ok due ∧
        ops = if due then journalOps ids (restoring before source) f.bytes [id] ++
          publishOp ids (restoring before source) :: settleOps c ids (restoring before source) [id] else [] := by
  rw [restorationOps] at success
  cases kept : before.retained with
  | none =>
    rw [kept] at success
    cases success
  | some source =>
    rw [kept, bind_eq_ok] at success
    obtain ⟨opened, there, success⟩ := success
    cases opened with
    | none => cases success
    | some f =>
      dsimp only at success
      rw [refuseIf_bind_eq_ok, refuseIf_bind_eq_ok, not_or, not_not, not_lt] at success
      obtain ⟨small, ⟨same, -⟩, success⟩ := success
      rw [bind_eq_ok] at success
      obtain ⟨due, checked, success⟩ := success
      cases success
      exact ⟨source, f, rfl, there, small, same, due, checked, rfl⟩

/-- A restoration keeps the directory recoverable, and the receipt it starts from. -/
theorem Recoverable.restoration {outcome : Option (Result Unit)} (rec : Recoverable c d.tree)
    (unused : ids.Unused d.tree.saved) (has : HasReceipt d.tree.saved id before.receipt)
    (version : snapshotInternal c d before.receipt.version = .ok before.retained)
    (kept : before.receipt.state ≠ .discarding) (success : restorationOps c host s ids id token before d = .ok ops)
    (ran : perform ops steps d.tree = (outcome, u)) : Recoverable c u ∧
      ∀ name r, HasReceipt u.saved name r → (∃ r', HasReceipt d.tree.saved name r' ∧ r'.version = r.version) ∨
        r.version = ids.version := by
  obtain ⟨source, f, isSource, -, -, -, due, checked, rfl⟩ := restorationOps_eq_ok success
  obtain ⟨current, admitted, ⟨rfl, -⟩ | ⟨rfl, differs, expected, -, -⟩⟩ := applyChecks_eq_ok.mp checked
  · cases ran
    exact ⟨rec, fun name r has => .inl ⟨r, has, rfl⟩⟩
  · have listed : ∀ other ∈ [id], d.tree.saved.get? other ≠ none := by
      intro other member
      rw [List.mem_singleton.mp member, has.2]
      simp
    have wanted := fun same => differs (expected.trans same)
    have readable (new : Fingerprint) (isNew : (restoring before source).new = some new) : mayRead new.mode = true := by
      cases isNew
      exact mayRead_of_snapshot (isSource ▸ version)
    refine ⟨rec.applying unused listed admitted expected wanted (rec.spares has kept rfl readable) ran,
      fun name r other => ?_⟩
    have stopped := stopped_of_perform (unused.fresh listed) admitted.readable wanted ran
    by_cases own : name = ids.receiptName
    · subst own
      obtain ⟨-, state, -, same⟩ := stopped.receipt _ other.2
      rw [ofReceipt_inj same]
      exact .inr rfl
    · have foreign {data : String} (notReceipt : isReceiptName data = false) : name ≠ data := by
        rintro rfl
        rw [other.1] at notReceipt
        cases notReceipt
      refine .inl ⟨r, ⟨other.1, ?_⟩, rfl⟩
      rw [← stopped.others name own (foreign (unused.version.isId.endsWith (by decide))) (foreign (tmp_not_receipt _))
        (foreign (tmp_not_receipt _))]
      exact other.2

theorem resolvedReceipt_eq_ok (success : resolvedReceipt c id choice before d = .ok r) : ∃ after,
    inspection c d id = .ok after ∧ after.receipt = before.receipt ∧ after.retained = before.retained ∧
      (choice = .keepLive → after.live = before.live) ∧
      r = Pin.reviewed before.receipt (after.live.map (·.fingerprint)) (after.retained.map (·.fingerprint)) := by
  rw [resolvedReceipt, bind_eq_ok] at success
  obtain ⟨after, ran, success⟩ := success
  rw [refuseIf_bind_eq_ok, refuseIf_bind_eq_ok, refuseIf_bind_eq_ok, not_not, not_not] at success
  obtain ⟨receipt, retained, live, success⟩ := success
  rw [bind_eq_ok] at success
  obtain ⟨f, -, success⟩ := success
  rw [bind_eq_ok] at success
  obtain ⟨⟨⟩, -, success⟩ := success
  cases success
  refine ⟨after, ran, receipt, retained, fun keep => ?_, rfl⟩
  by_contra differs
  exact live ⟨keep, differs⟩

theorem typedReceiptOps_eq_ok {tmp : String} (success : typedReceiptOps tmp id r = .ok ops) :
    validRecoveryName id = .ok () ∧ ops = writeReceipt tmp id r := by
  rw [typedReceiptOps, bind_eq_ok] at success
  obtain ⟨⟨⟩, valid, success⟩ := success
  cases success
  exact ⟨valid, rfl⟩

/-- The end of a resolution keeps the directory recoverable, wherever it stops. -/
theorem Recoverable.finish {outcome : Option (Result RecoveryInspection)} (rec : Recoverable c t)
    (drawn : IsId draft.tmp) (unnamed : ∀ name r, HasReceipt t.saved name r → r.version ≠ draft.tmp ++ ".tmp")
    (json : isReceiptName id = true) (kept : before.receipt.state ≠ .discarding)
    (ran : finishSteps c draft id choice before stats steps t = (outcome, u)) : Recoverable c u := by
  rw [finishSteps] at ran
  split at ran
  · cases ran
    exact rec
  · next writing success =>
    rw [bind_eq_ok] at success
    obtain ⟨r, success, written⟩ := success
    obtain ⟨after, seen, receipt, -, -, rfl⟩ := resolvedReceipt_eq_ok success
    obtain ⟨valid, rfl⟩ := typedReceiptOps_eq_ok written
    have recorded : after.recorded = true := by
      rw [← Bool.not_eq_false]
      intro none
      have data := (rec.unrecorded seen none).1
      rw [json] at data
      cases data
    obtain ⟨has, live, retained, destination, version, same⟩ := rec.recorded (d := ⟨t, stats⟩) seen recorded
    have reviewed : Written c t (Pin.reviewed before.receipt (after.live.map (·.fingerprint))
        (after.retained.map (·.fingerprint))) := by
      rw [← receipt] at kept ⊢
      refine (rec.written has).reviewed kept (fun v found => ?_) (fun v found => ?_)
      · rw [same] at found
        cases found
        exact snapshotInternal_hash version
      · rw [same] at found
        cases found
        exact snapshotDestination_hash destination
    have tree : openTree t.live = .ok () := rec.opened id (by rw [has.2]; simp)
    have own : ∀ name r', HasReceipt t.saved name r' → name ≠ id → r'.version ≠ before.receipt.version := by
      intro name r' other differs equal
      exact differs (rec.unique name id r' _ other has (equal.trans (congrArg RecoveryReceipt.version receipt.symm)))
    rcases performThen_cases ran with ⟨stopped, performed, -⟩ | ⟨middle, performed, finished⟩
    · exact (rec.writing drawn unnamed json valid reviewed own tree performed).1
    · cases finished
      exact (rec.writing drawn unnamed json valid reviewed own tree performed).1

/-- A resolution keeps the directory recoverable, wherever it stops. -/
theorem Recoverable.resolve {outcome : Option (Result RecoveryInspection)} (rec : Recoverable c t)
    (unused : ids.Unused t.saved) (drawn : Unused t.saved draft.tmp)
    (ran : resolveSteps c host s ids stats later draft id token choice steps t = (outcome, u)) : Recoverable c u := by
  rw [resolveSteps] at ran
  split at ran
  · cases ran
    exact rec
  · next before start =>
    obtain ⟨-, seen, recorded, kept, -⟩ := resolveStart_eq_ok start
    obtain ⟨has, live, retained, -, version, same⟩ := rec.recorded (d := ⟨t, stats⟩) seen recorded
    have version : snapshotInternal c ⟨t, stats⟩ before.receipt.version = .ok before.retained := by
      rw [version, same]
      rfl
    split at ran
    · cases ran
      exact rec
    · next restoration success =>
      have restored {stopped : Option (Result Unit)} {middle : Tree}
          (performed : perform restoration steps t = (stopped, middle)) : Recoverable c middle ∧
            ∀ name r, HasReceipt middle.saved name r → r.version ≠ draft.tmp ++ ".tmp" := by
        split_ifs at success
        · cases success
          cases performed
          exact ⟨rec, fun name r other => (drawn.unnamed name _ r other.2).2⟩
        · obtain ⟨recovered, versions⟩ :=
            Recoverable.restoration (d := ⟨t, stats⟩) rec unused has version kept success performed
          refine ⟨recovered, fun name r other => ?_⟩
          rcases versions name r other with ⟨r', before, same⟩ | same
          · rw [← same]
            exact (drawn.unnamed name _ r' before.2).2
          · rw [same]
            exact unused.version.isId.ne_append (by decide)
      rcases performThen_cases ran with ⟨stopped, performed, -⟩ | ⟨middle, performed, finished⟩
      · exact (restored performed).1
      · obtain ⟨recovered, unnamed⟩ := restored performed
        exact recovered.finish drawn.isId unnamed has.1 kept finished

/-! ## Taking away -/

section Removing

variable {names : List String} {journal : String} {outcome : Option (Result Unit)}

/-- Taking names away takes away nothing else. -/
theorem perform_unlinks (ran : perform (names.map unlinkSaved) steps t = (outcome, u)) : u.live = t.live ∧
    (∀ name, u.saved.get? name = t.saved.get? name ∨ name ∈ names ∧ u.saved.get? name = none) ∧
      (outcome = some (.ok ()) → ∀ name ∈ names, u.saved.get? name = none) := by
  induction names generalizing t steps with
  | nil =>
    cases ran
    exact ⟨rfl, fun _ => .inl rfl, fun _ _ member => absurd member List.not_mem_nil⟩
  | cons first rest ih =>
    rw [List.map_cons] at ran
    rcases perform_cons ran with ⟨rfl, unfinished⟩ | ⟨next, n, done, ran⟩
    · exact ⟨rfl, fun _ => .inl rfl, fun finished => absurd finished unfinished⟩
    · obtain ⟨live, others, gone⟩ := ih ran
      rw [unlinkSaved_eq_ok done] at live others
      have erased (name : String) : u.saved.get? name = t.saved.get? name ∨
          name ∈ first :: rest ∧ u.saved.get? name = none := by
        rcases others name with same | ⟨member, none⟩
        · rw [OrdMap.get?_erase] at same
          split_ifs at same with here
          · exact .inr ⟨here ▸ List.mem_cons_self, same⟩
          · exact .inl same
        · exact .inr ⟨List.mem_cons_of_mem _ member, none⟩
      refine ⟨live, erased, fun finished name member => ?_⟩
      rcases List.mem_cons.mp member with rfl | later
      · rcases others name with same | ⟨-, none⟩
        · rw [same, OrdMap.get?_erase, if_pos rfl]
        · exact none
      · exact gone finished name later

/-- The end of a discard refuses a version that changed, or takes it away with the journal. -/
theorem removeSteps_cases (ran : removeSteps c view journal stats steps t = (outcome, u)) :
    (u = t ∧ outcome ≠ some (.ok ())) ∨ snapshotInternal c ⟨t, stats⟩ view.receipt.version = .ok view.retained ∧
      perform (((if view.retained = none then [] else [view.receipt.version]) ++ [journal]).map unlinkSaved) steps t =
        (outcome, u) := by
  rw [removeSteps] at ran
  split at ran
  · cases ran
    exact .inl ⟨rfl, by simp⟩
  · next current found =>
    by_cases same : current = view.retained
    · subst same
      rw [if_neg (not_not.mpr rfl)] at ran
      refine .inr ⟨found, ?_⟩
      rw [← ran, List.map_append]
      congr 2
      split_ifs <;> rfl
    · rw [if_pos same] at ran
      cases ran
      exact .inl ⟨rfl, by simp⟩

theorem Recoverable.unlinks (rec : Recoverable c t) (ran : perform (names.map unlinkSaved) steps t = (outcome, u)) :
    Recoverable c u := by
  refine perform_inv (P := Recoverable c) (fun op member t t' kept done => ?_) rec ran
  obtain ⟨name, -, rfl⟩ := List.mem_map.mp member
  rw [unlinkSaved_eq_ok done]
  exact kept.erase name

/-- A discard that starts writes its journal, and then takes away what it is about. -/
theorem discardSteps_cases (ran : discardSteps c s stats draft fresh id token steps t = (outcome, u)) :
    (u = t ∧ outcome ≠ some (.ok ())) ∨ ∃ view, discardStart c s id token ⟨t, stats⟩ = .ok view ∧
      validRecoveryName (if view.recorded = true then id else fresh ++ ".json") = .ok () ∧
      ((∃ stopped, outcome ≠ some (.ok ()) ∧ perform (writeReceipt draft.tmp
        (if view.recorded = true then id else fresh ++ ".json") (discarding view token)) steps t = (stopped, u)) ∨
      ∃ middle remaining stats', perform (writeReceipt draft.tmp
        (if view.recorded = true then id else fresh ++ ".json") (discarding view token)) steps t =
          (some (.ok ()), middle) ∧
        removeSteps c view (if view.recorded = true then id else fresh ++ ".json") stats' remaining middle =
          (outcome, u)) := by
  rw [discardSteps] at ran
  split at ran
  · cases ran
    exact .inl ⟨rfl, by simp⟩
  · next view start =>
    dsimp only at ran
    split at ran
    · cases ran
      exact .inl ⟨rfl, by simp⟩
    · next writing success =>
      obtain ⟨valid, rfl⟩ := typedReceiptOps_eq_ok success
      refine .inr ⟨view, start, valid, ?_⟩
      rcases performThen_cases ran with ⟨stopped, performed, unfinished⟩ | ⟨middle, performed, finished⟩
      · exact .inl ⟨stopped, unfinished (), performed⟩
      · exact .inr ⟨middle, _, _, performed, finished⟩

/-- A discard keeps the directory recoverable, wherever it stops. -/
theorem Recoverable.discard (rec : Recoverable c t) (drawn : Unused t.saved draft.tmp)
    (ran : discardSteps c s stats draft fresh id token steps t = (outcome, u)) : Recoverable c u := by
  rcases discardSteps_cases ran with ⟨rfl, -⟩ | ⟨view, start, valid, way⟩
  · exact rec
  have tree := (discardStart_eq_ok start).1
  have discarded := Recoverable.discarded (d := ⟨t, stats⟩) rec start
  have journal : isReceiptName (if view.recorded = true then id else fresh ++ ".json") = true := by
    split_ifs with recorded
    · exact (discarded.receipt recorded).1
    · exact endsWith_append _ _
  have own : ∀ name r, HasReceipt t.saved name r → name ≠ (if view.recorded = true then id else fresh ++ ".json") →
      r.version ≠ view.receipt.version := by
    intro name r has differs
    refine discarded.own name r has (fun recorded => ?_)
    rwa [if_pos recorded] at differs
  have written {stopped : Option (Result Unit)} {middle : Tree} (performed : perform _ steps t = (stopped, middle)) :
      Recoverable c middle := (rec.writing drawn.isId (fun name r has => (drawn.unnamed name _ r has.2).2) journal valid
    discarded.written own tree performed).1
  rcases way with ⟨stopped, -, performed⟩ | ⟨middle, remaining, stats', performed, finished⟩
  · exact written performed
  · rcases removeSteps_cases finished with ⟨rfl, -⟩ | ⟨-, removed⟩
    · exact written performed
    · exact (written performed).unlinks removed

end Removing

/-! ## Runs -/

/-- The IDs an action draws are new in the recovery directory. -/
def Action.Drawn (saved : OrdMap String Artifact) : Action → Prop
  | .apply _ _ ids => ids.Unused saved
  | .resolve ids _ _ draft _ _ _ => ids.Unused saved ∧ Unused saved draft.tmp
  | .discard _ draft fresh _ _ => Unused saved draft.tmp ∧ Unused saved fresh

/-- An application that has something to do spares the paths of the receipts. -/
def Attempt.Spares (c : Crypto) (t : Tree) (a : Attempt) : Prop :=
  match a.action with
  | .apply ch bytes _ => applyChecks c a.host a.store t ch bytes [] = .ok true → Pin.Spares t ch
  | .resolve .. => True
  | .discard .. => True

/-- What holds of every attempt of a run in the tree it finds. -/
def Along (c : Crypto) (P : Tree → Attempt → Prop) : List Attempt → Tree → Prop
  | [], _ => True
  | a :: rest, t => P t a ∧ Along c P rest (a.run c t)

theorem Recoverable.attempt {a : Attempt} (rec : Recoverable c t) (drawn : a.action.Drawn t.saved)
    (spares : a.Spares c t) : Recoverable c (a.run c t) := by
  obtain ⟨host, store, action, steps⟩ := a
  cases action with
  | apply ch bytes ids => exact rec.applyLocked drawn spares
  | resolve ids stats later draft id token choice => exact rec.resolve drawn.1 drawn.2 rfl
  | discard stats draft fresh id token => exact rec.discard drawn.1 rfl

/-- The directory is recoverable after every run whose applications spare the paths of its receipts. -/
theorem Recoverable.run {attempts : List Attempt} (rec : Recoverable c t)
    (drawn : Along c (fun t a => a.action.Drawn t.saved) attempts t) (spares : Along c (Attempt.Spares c) attempts t) :
    Recoverable c (runAttempts c attempts t) := by
  induction attempts generalizing t with
  | nil => exact rec
  | cons a rest ih => exact ih (rec.attempt drawn.1 spares.1) drawn.2 spares.2

theorem recoverable_empty (live : Live) : Recoverable c ⟨live, ∅⟩ where
  named name a there := by cases there
  plain name a there := by cases there
  opened name present := absurd rfl present
  receipts name a there := by cases there
  unique name name' r r' has := by cases has.2

end Clix.Pin
