import Clix.Proofs.PinOwner

/-! # Clearing a receipt after the owner changed the tree

The owner commands look at what is live at the path of a receipt, and only a missing name counts as absent
there. Where the path leads to a directory or a link, or below a regular file, the receipt can neither be
resolved nor discarded.
-/

namespace Clix.Pin

open Except

variable {c : Crypto} {d d' : Disk} {s : Store} {host : Host} {ids : Ids} {later : Stats} {first second : Draft}
  {draft : Draft} {id token fresh : String} {r : RecoveryReceipt} {view : RecoveryInspection}
  {live retained : Option RecoveryVersion}

/-- A discard takes the receipt away and leaves the live tree. -/
def Discards (c : Crypto) (s : Store) (draft : Draft) (fresh id token : String) (d : Disk) : Prop :=
  ∃ d', recoveryDiscard c s draft fresh id token d = (.ok (), d') ∧ d'.tree.live = d.tree.live ∧
    d'.tree.saved.get? id = none

/-- The owner can inspect a receipt and clear it: keep the live version, unless a discard was begun, and then
discard. -/
def Clears (c : Crypto) (host : Host) (s : Store) (ids : Ids) (later : Stats) (first second : Draft)
    (fresh id : String) (r : RecoveryReceipt) (d : Disk) : Prop :=
  ∃ view, recoveryInspect c d id = .ok view ∧ view.recorded = true ∧ view.receipt = r ∧
    (r.state = .discarding → Discards c s second fresh id view.token d) ∧
    (r.state ≠ .discarding → ∃ view' d',
      recoveryResolve c host s ids later first id view.token .keepLive d = (.ok view', d') ∧
        view'.recorded = true ∧ view'.receipt.state = .resolved ∧ d'.tree.live = d.tree.live ∧
        Discards c s second fresh id view'.token d')

/-- The receipt of a review. -/
def reviewed (r : RecoveryReceipt) (live retained : Option Fingerprint) : RecoveryReceipt :=
  { r with expected := retained, replacement := live, state := .resolved }

/-- What the disk must be like for a receipt to be cleared. -/
structure Clearable (c : Crypto) (d : Disk) (id : String) (r : RecoveryReceipt) : Prop where
  opened : openTree d.tree.live = .ok ()
  settled : r.path ≠ "" → Settled d.tree.live r.path
  plain : ∀ a, d.tree.saved.get? r.version = some a → a.Readable
  apart : r.version ≠ id
  small : r.state ≠ .discarding → (Json.toVec (reviewed r
    ((d.tree.live.file? (place r.path)).map (·.fingerprint c))
    (((d.tree.saved.get? r.version).bind (·.file?)).map (·.fingerprint c)))).length ≤ maxReceipt

/-! ## Discarding -/

/-- The last steps of a discard, with the journal written: the version leaves, then the journal. -/
theorem discardFinish_eq_ok {journal : String} (version : snapshotInternal c d view.receipt.version = .ok view.retained)
    (there : d.tree.saved.get? journal ≠ none) (apart : view.receipt.version ≠ journal) :
    ∃ d', discardFinish c view journal d = (.ok (), d') ∧ d'.tree.live = d.tree.live ∧
      ∀ name, d'.tree.saved.get? name =
        if name = journal ∨ name = view.receipt.version then none else d.tree.saved.get? name := by
  obtain ⟨entry, there⟩ := Option.ne_none_iff_exists'.mp there
  unfold discardFinish
  rw [version]
  dsimp only
  rw [if_neg (not_not.mpr rfl)]
  cases kept : view.retained with
  | none =>
    rw [kept] at version
    rw [if_pos rfl]
    dsimp only
    rw [Disk.unlink, there]
    refine ⟨_, rfl, rfl, fun name => ?_⟩
    dsimp only
    rw [OrdMap.get?_erase]
    by_cases here : name = journal
    · rw [if_pos here, if_pos (.inl here)]
    · rw [if_neg here]
      split_ifs with gone
      · rw [gone.resolve_left here, snapshotInternal_none version]
      · rfl
  | some v =>
    rw [kept] at version
    obtain ⟨old, present⟩ := Option.ne_none_iff_exists'.mp (snapshotInternal_some version).1
    have kept' : (d.tree.saved.erase view.receipt.version).get? journal = some entry := by
      rw [OrdMap.get?_erase, if_neg apart.symm, there]
    rw [if_neg (by simp), Disk.unlink, present]
    dsimp only
    rw [Disk.unlink, kept']
    refine ⟨_, rfl, rfl, fun name => ?_⟩
    dsimp only
    rw [OrdMap.get?_erase, OrdMap.get?_erase]
    by_cases here : name = journal
    · rw [if_pos here, if_pos (.inl here)]
    · simp only [here, if_false, false_or]

/-- A receipt whose version is another file is discarded with the token of an inspection. -/
theorem discards (json : isReceiptName id = true) (writable : Store.ensureWritable s = .ok ())
    (tree : openTree d.tree.live = .ok ())
    (unused : d.tree.saved.get? (draft.tmp ++ ".tmp") = none) (read : readAndParse d.tree.saved id = .ok r)
    (ran : inspectReceipt c d id r = .ok view) (settled : r.state ≠ .pending) (apart : r.version ≠ id)
    (unforeseen : r.state = .discarding → r.discardToken ≠ some view.token) :
    Discards c s draft fresh id view.token d := by
  obtain ⟨-, -, valid, -, -⟩ := readAndParse_eq_ok read
  obtain ⟨live, retained, -, version, rfl⟩ := inspectReceipt_eq_ok.mp ran
  have notPending : (shown c id r live retained).receipt.state ≠ .pending := settled
  have start : discardStart c s id (shown c id r live retained).token d = .ok (shown c id r live retained) := by
    have noResume : decide ((shown c id r live retained).receipt.state = .discarding ∧
        (shown c id r live retained).receipt.discardToken = some (shown c id r live retained).token) = false :=
      decide_eq_false (fun ⟨isDiscarding, same⟩ => unforeseen isDiscarding same)
    rw [discardStart, writable, ok_bind, tree, ok_bind, inspection_of_parsed read json, ran, ok_bind]
    dsimp only
    rw [noResume, refuseIf_neg (by simp), ok_bind, refuseIf_neg notPending, ok_bind, refuseIf_neg (by simp)]
    rfl
  unfold Discards recoveryDiscard
  rw [start]
  dsimp only
  rw [if_pos (show (shown c id r live retained).recorded = true from rfl), writeTypedReceipt_eq_ok valid unused]
  dsimp only
  have kept : snapshotInternal c (d.write id (.ofReceipt (discarding (shown c id r live retained)
      (shown c id r live retained).token)) draft.stamp) (shown c id r live retained).receipt.version =
        .ok (shown c id r live retained).retained :=
    (snapshotInternal_congr (Disk.write_of_ne apart).1 (Disk.write_of_ne apart).2).trans version
  have present : (d.write id (.ofReceipt (discarding (shown c id r live retained) (shown c id r live retained).token))
      draft.stamp).tree.saved.get? id ≠ none := by
    rw [Disk.write, OrdMap.get?_insert_self]
    simp
  obtain ⟨d', ran, sameLive, gone⟩ := discardFinish_eq_ok kept present apart
  exact ⟨d', ran, sameLive, by rw [gone, if_pos (.inl rfl)]⟩

/-! ## Keeping the live version -/

theorem snapshotLive_fingerprint {path : String} (success : snapshotLive c d path = .ok live) :
    live.map (·.fingerprint) = (d.tree.live.file? (place path)).map (·.fingerprint c) := by
  rw [snapshotLive, openLive, bind_eq_ok] at success
  obtain ⟨opened, found, success⟩ := success
  rw [bind_eq_ok] at found
  obtain ⟨-, -, found⟩ := found
  obtain ⟨-, -, walked, -⟩ := openat2_eq_ok.mp found
  have ends := walk_eq_ok Live.node?_nil walked
  rw [List.nil_append] at ends
  change opened = (d.tree.live.node? (place path)).map (fun node => (place path, node)) at ends
  rw [Live.file?]
  cases there : d.tree.live.node? (place path) with
  | none =>
    rw [there] at ends
    subst ends
    cases success
    rfl
  | some node =>
    rw [there] at ends
    subst ends
    cases node with
    | file f =>
      cases success
      rfl
    | dir => cases success
    | link target => cases success
    | special => cases success

theorem reviewed_parsed (parsed : parseReceipt r = .ok r) (kept : r.state ≠ .discarding)
    (live retained : Option Fingerprint) : parseReceipt (reviewed r live retained) = .ok (reviewed r live retained) := by
  obtain ⟨-, path, version, data⟩ := parseReceipt_eq_ok.mp parsed
  refine parseReceipt_eq_ok.mpr ⟨rfl, ?_, version, ?_⟩
  · rw [validReceiptPath, if_pos (.inr kept)] at path
    rw [validReceiptPath, if_pos (.inr (by simp [reviewed]))]
    exact path
  · rw [not_or] at data ⊢
    constructor
    · rintro ⟨json, -⟩
      exact data.1 ⟨json, fun both => kept both.1⟩
    · rintro ⟨tmp, -⟩
      exact data.2 ⟨tmp, kept⟩

/-- Keeping the live version replaces the receipt by that of the review. -/
theorem keepLive_eq (json : isReceiptName id = true) (writable : Store.ensureWritable s = .ok ())
    (tree : openTree d.tree.live = .ok ())
    (unused : d.tree.saved.get? (draft.tmp ++ ".tmp") = none) (read : readAndParse d.tree.saved id = .ok r)
    (destination : snapshotDestination c d r = .ok live) (version : snapshotInternal c d r.version = .ok retained)
    (kept : r.state ≠ .discarding) :
    recoveryResolve c host s ids later draft id (shown c id r live retained).token .keepLive d =
      (inspection c (d.write id (.ofReceipt (reviewed r (live.map (·.fingerprint)) (retained.map (·.fingerprint))))
        draft.stamp) id,
        d.write id (.ofReceipt (reviewed r (live.map (·.fingerprint)) (retained.map (·.fingerprint)))) draft.stamp) := by
  obtain ⟨-, -, valid, -, -⟩ := readAndParse_eq_ok read
  have ran : inspection c d id = .ok (shown c id r live retained) := by
    rw [inspection_of_parsed read json]
    exact inspectReceipt_eq_ok.mpr ⟨live, retained, destination, version, rfl⟩
  have notDiscarding : (shown c id r live retained).receipt.state ≠ .discarding := kept
  have start : resolveStart c s id (shown c id r live retained).token d = .ok (shown c id r live retained) := by
    rw [resolveStart, writable, ok_bind, tree, ok_bind, ran, ok_bind, refuseIf_neg (by simp), ok_bind,
      refuseIf_neg (by simp [shown]), ok_bind, refuseIf_neg notDiscarding]
    rfl
  have checked : ∃ f, openInternal d.tree.saved r.version = .ok f ∧
      checkOptionalFile (f.map (fun f => (f, d.stats.saved r.version))) retained = .ok () := by
    rw [snapshotInternal, bind_eq_ok] at version
    obtain ⟨f, opened, version⟩ := version
    cases version
    exact ⟨f, opened, checkOptionalFile_self f _⟩
  obtain ⟨f, opened, checked⟩ := checked
  have finish : resolveFinish c draft id .keepLive (shown c id r live retained) d =
      .ok (d.write id (.ofReceipt (reviewed r (live.map (·.fingerprint)) (retained.map (·.fingerprint))))
        draft.stamp) := by
    rw [resolveFinish, ran, ok_bind, refuseIf_neg (by simp), ok_bind, refuseIf_neg (by simp), ok_bind,
      refuseIf_neg (by simp), ok_bind]
    change (openInternal d.tree.saved r.version >>= _) = _
    rw [opened, ok_bind]
    change (checkOptionalFile (f.map (fun f => (f, d.stats.saved r.version))) retained >>= _) = _
    rw [checked, ok_bind]
    exact writeTypedReceipt_eq_ok valid unused
  unfold recoveryResolve
  rw [start]
  dsimp only
  rw [finish]

/-- The inspection after a review, which changed nothing but the receipt. -/
theorem inspectReceipt_write {a : Artifact} {stamp : Stamp} {r' : RecoveryReceipt}
    (destination : snapshotDestination c d r = .ok live) (version : snapshotInternal c d r.version = .ok retained)
    (path : r'.path = r.path) (same : r'.version = r.version) (apart : r.version ≠ id) :
    inspectReceipt c (d.write id a stamp) id r' = .ok (shown c id r' live retained) := by
  refine inspectReceipt_eq_ok.mpr ⟨live, retained, ?_, ?_, rfl⟩
  · rw [← destination, snapshotDestination, snapshotDestination, path]
    rfl
  · obtain ⟨artifact, stamp⟩ := Disk.write_of_ne (d := d) apart
    rw [← version, same]
    exact snapshotInternal_congr artifact stamp

/-! ## When a receipt can be cleared -/

theorem recoveryInspect_eq_ok :
    recoveryInspect c d id = .ok view ↔ openTree d.tree.live = .ok () ∧ inspection c d id = .ok view := by
  rw [recoveryInspect, bind_eq_ok]
  constructor
  · rintro ⟨⟨⟩, opened, ran⟩
    exact ⟨opened, ran⟩
  · rintro ⟨opened, ran⟩
    exact ⟨(), opened, ran⟩

theorem destination_isOk (parsed : parseReceipt r = .ok r) :
    (∃ live, snapshotDestination c d r = .ok live) ↔ (r.path ≠ "" → Settled d.tree.live r.path) := by
  obtain ⟨-, path, -, -⟩ := parseReceipt_eq_ok.mp parsed
  rw [snapshotDestination]
  by_cases none : r.path = ""
  · rw [if_pos none]
    exact iff_of_true ⟨_, rfl⟩ (fun some => absurd none some)
  · rw [validReceiptPath, if_pos (.inl none)] at path
    rw [if_neg none, snapshotLive_isOk path]
    exact ⟨fun settled _ => settled, fun settled => settled none⟩

theorem destination_fingerprint (parsed : parseReceipt r = .ok r) (kept : r.state ≠ .discarding)
    (destination : snapshotDestination c d r = .ok live) :
    live.map (·.fingerprint) = (d.tree.live.file? (place r.path)).map (·.fingerprint c) := by
  obtain ⟨-, path, -, -⟩ := parseReceipt_eq_ok.mp parsed
  have named : r.path ≠ "" := by
    intro empty
    rw [validReceiptPath, if_pos (.inr kept), empty] at path
    cases path
  rw [snapshotDestination, if_neg named] at destination
  exact snapshotLive_fingerprint destination

theorem version_fingerprint (version : snapshotInternal c d r.version = .ok retained) :
    retained.map (·.fingerprint) = ((d.tree.saved.get? r.version).bind (·.file?)).map (·.fingerprint c) := by
  rw [(snapshotInternal_eq_ok.mp version).2.2, Option.map_map]
  rfl

theorem tmp_ne {tmp : String} (json : isReceiptName id = true) : tmp ++ ".tmp" ≠ id :=
  ne_of_endings (endsWith_append tmp ".tmp") json (by decide) (by decide) (by decide)

theorem reviewed_inspected (valid : validRecoveryName id = .ok ()) (parsed : parseReceipt r = .ok r)
    (destination : snapshotDestination c d r = .ok live) (version : snapshotInternal c d r.version = .ok retained)
    (kept : r.state ≠ .discarding) (apart : r.version ≠ id) (small : (Json.toVec (reviewed r
      (live.map (·.fingerprint)) (retained.map (·.fingerprint)))).length ≤ maxReceipt) :
    readAndParse (d.write id (.ofReceipt (reviewed r (live.map (·.fingerprint)) (retained.map (·.fingerprint))))
      first.stamp).tree.saved id = .ok (reviewed r (live.map (·.fingerprint)) (retained.map (·.fingerprint))) ∧
    inspectReceipt c (d.write id (.ofReceipt (reviewed r (live.map (·.fingerprint)) (retained.map (·.fingerprint))))
      first.stamp) id (reviewed r (live.map (·.fingerprint)) (retained.map (·.fingerprint))) =
        .ok (shown c id (reviewed r (live.map (·.fingerprint)) (retained.map (·.fingerprint))) live retained) :=
  ⟨readAndParse_of_get? (OrdMap.get?_insert_self _ _ _) valid small (reviewed_parsed parsed kept _ _),
    inspectReceipt_write destination version rfl rfl apart⟩

/-- The journal of a discard takes the place of a receipt that names itself, so the version has changed. -/
theorem not_discards_itself (json : isReceiptName id = true) (valid : validRecoveryName id = .ok ())
    (unused : d.tree.saved.get? (draft.tmp ++ ".tmp") = none) (read : readAndParse d.tree.saved id = .ok r)
    (destination : snapshotDestination c d r = .ok live) (version : snapshotInternal c d r.version = .ok retained)
    (itself : r.version = id) (replaced : draft.stamp ≠ d.stats.saved id) :
    recoveryDiscard c s draft fresh id (shown c id r live retained).token d ≠ (.ok (), d') := by
  intro ran
  unfold recoveryDiscard at ran
  cases start : discardStart c s id (shown c id r live retained).token d with
  | error e =>
    rw [start] at ran
    cases ran
  | ok view =>
    have same : view = shown c id r live retained := by
      rw [discardStart, bind_eq_ok] at start
      obtain ⟨-, -, start⟩ := start
      rw [bind_eq_ok] at start
      obtain ⟨-, -, start⟩ := start
      rw [bind_eq_ok] at start
      obtain ⟨view', seen, start⟩ := start
      rw [inspection_of_parsed read json, inspectReceipt_eq_ok.mpr ⟨live, retained, destination, version, rfl⟩] at seen
      cases seen
      simp only [refuseIf_bind_eq_ok, pure_eq_ok, Except.ok.injEq] at start
      exact start.2.2.2.symm
    subst same
    rw [start] at ran
    dsimp only at ran
    rw [if_pos (show (shown c id r live retained).recorded = true from rfl), writeTypedReceipt_eq_ok valid unused] at ran
    dsimp only at ran
    have current (a : RecoveryReceipt) : snapshotInternal c (d.write id (.ofReceipt a) draft.stamp) r.version =
        .ok (some (snapshotFile c ⟨Json.toVec a, 0o600⟩ draft.stamp)) := by
      have there : (d.write id (.ofReceipt a) draft.stamp).tree.saved.get? id = some (.ofReceipt a) :=
        OrdMap.get?_insert_self _ _ _
      have stamp : (d.write id (.ofReceipt a) draft.stamp).stats.saved id = draft.stamp := Function.update_self _ _ _
      refine itself ▸ snapshotInternal_eq_ok.mpr ⟨itself ▸ valid, fun a' found => ?_, ?_⟩ <;> rw [itself] at *
      · rw [there] at found
        cases found
        exact Artifact.readable_receipt _ _
      · rw [there, stamp]
        rfl
    have differs (f : File) :
        some (snapshotFile c f draft.stamp) ≠ (shown c id r live retained).retained := by
      intro same
      change some (snapshotFile c f draft.stamp) = retained at same
      subst same
      have was := (snapshotInternal_some version).2
      rw [itself] at was
      exact replaced was
    unfold discardFinish at ran
    rw [show (shown c id r live retained).receipt.version = r.version from rfl, current] at ran
    dsimp only at ran
    rw [if_pos (differs _)] at ran
    cases ran

/-- A recorded receipt can be cleared if and only if the tree and the directory let it be inspected, its version is
another file, and its review is not too long. -/
theorem clears_iff (json : isReceiptName id = true) (writable : Store.ensureWritable s = .ok ())
    (read : readAndParse d.tree.saved id = .ok r) (firstUnused : d.tree.saved.get? (first.tmp ++ ".tmp") = none)
    (secondUnused : d.tree.saved.get? (second.tmp ++ ".tmp") = none) (replaced : second.stamp ≠ d.stats.saved id)
    (unforeseen : ∀ live retained, r.discardToken ≠ some (shown c id r live retained).token) :
    Clears c host s ids later first second fresh id r d ↔ Clearable c d id r := by
  obtain ⟨text, found, valid, -, parsed⟩ := readAndParse_eq_ok read
  obtain ⟨-, -, versionValid, -⟩ := parseReceipt_eq_ok.mp parsed
  constructor
  · rintro ⟨view, ran, -, -, discarded, resolved⟩
    obtain ⟨tree, ran⟩ := recoveryInspect_eq_ok.mp ran
    rw [inspection_of_parsed read json] at ran
    obtain ⟨live, retained, destination, version, rfl⟩ := inspectReceipt_eq_ok.mp ran
    refine ⟨tree, (destination_isOk parsed).mp ⟨live, destination⟩, (snapshotInternal_eq_ok.mp version).2.1, ?_,
      fun kept => ?_⟩
    · -- A receipt that names itself is being discarded, and the journal of its discard takes its place.
      intro itself
      have isDiscarding : r.state = .discarding := by
        by_contra kept
        exact version_ne_of_parsed parsed json kept itself
      obtain ⟨d', ran', -⟩ := discarded isDiscarding
      exact not_discards_itself json valid secondUnused read destination version itself replaced ran'
    · obtain ⟨view', d', ran', recorded, -⟩ := resolved kept
      rw [keepLive_eq json writable tree firstUnused read destination version kept, Prod.mk.injEq] at ran'
      obtain ⟨-, r', read', -⟩ := inspection_recorded ran'.1 recorded
      obtain ⟨text', found', -, small, -⟩ := readAndParse_eq_ok read'
      rw [Disk.write, OrdMap.get?_insert_self, Artifact.ofReceipt] at found'
      cases found'
      rwa [destination_fingerprint parsed kept destination, version_fingerprint version] at small
  · rintro ⟨tree, settled, plain, apart, small⟩
    obtain ⟨live, destination⟩ := (destination_isOk (c := c) parsed).mpr settled
    obtain ⟨retained, version⟩ : ∃ retained, snapshotInternal c d r.version = .ok retained :=
      ⟨_, snapshotInternal_eq_ok.mpr ⟨versionValid, plain, rfl⟩⟩
    have ran : inspectReceipt c d id r = .ok (shown c id r live retained) :=
      inspectReceipt_eq_ok.mpr ⟨live, retained, destination, version, rfl⟩
    refine ⟨_, recoveryInspect_eq_ok.mpr ⟨tree, (inspection_of_parsed read json).trans ran⟩, rfl, rfl,
      fun isDiscarding => ?_, fun kept => ?_⟩
    · exact discards json writable tree secondUnused read ran (by rw [isDiscarding]; simp) apart (fun _ => unforeseen _ _)
    · have small := small kept
      rw [← destination_fingerprint parsed kept destination, ← version_fingerprint version] at small
      obtain ⟨read', ran'⟩ : readAndParse (d.write id _ first.stamp).tree.saved id = _ ∧ _ :=
        reviewed_inspected valid parsed destination version kept apart small
      refine ⟨_, _, (keepLive_eq json writable tree firstUnused read destination version kept).trans
        (congrArg (fun result => (result, _)) ((inspection_of_parsed read' json).trans ran')), rfl, rfl, rfl, ?_⟩
      refine discards json writable tree ?_ read' ran' (by simp [reviewed]) apart (fun isDiscarding => by cases isDiscarding)
      rw [Disk.write, OrdMap.get?_insert_of_ne _ _ (tmp_ne json)]
      exact secondUnused

namespace ReviewExample

def content : File := ⟨[104], 0o644⟩

/-- The receipt of a publication of `a/b` that was interrupted. -/
def interrupted : RecoveryReceipt := ⟨"a/b", none, some ⟨"new", 0o644⟩, "v", .pending, none, none⟩

def journal : OrdMap String Artifact := (∅ : OrdMap String Artifact).insert "v.json" (.ofReceipt interrupted)

def stats : Stats := ⟨fun _ => ⟨1, 2, 3, 4, 5, 6⟩, fun _ => ⟨1, 3, 3, 4, 5, 6⟩⟩

theorem fits_a : Live.empty.Fits [] "a" := by decide

/-- The owner put a file in the place of the directory. -/
def blocked : Disk := ⟨⟨Live.empty.put [] "a" (.file content) fits_a, journal⟩, stats⟩

theorem interrupted_read : readAndParse journal "v.json" = .ok interrupted :=
  readAndParse_of_get? (OrdMap.get?_insert_self _ _ _) (by decide) (by decide) (by decide)

theorem blocked_not_settled : ¬Settled blocked.tree.live "a/b" := by
  rintro ⟨-, -, absent | ⟨place, f, there, -⟩⟩
  · cases absent
  · cases there

/-- The receipt of a file below a path that is a file now can neither be resolved nor discarded. -/
theorem blocked_stays : readAndParse blocked.tree.saved "v.json" = .ok interrupted ∧
    ∀ (host : Host) (s : Store) (ids : Ids) (later : Stats) (first second : Draft) (fresh : String),
      ¬Clears Crypto.transparent host s ids later first second fresh "v.json" interrupted blocked := by
  refine ⟨interrupted_read, ?_⟩
  rintro host s ids later first second fresh ⟨view, ran, -⟩
  rw [recoveryInspect_eq_ok, inspection_of_parsed interrupted_read (by decide)] at ran
  obtain ⟨-, ran⟩ := ran
  obtain ⟨live, -, destination, -⟩ := inspectReceipt_eq_ok.mp ran
  exact blocked_not_settled ((destination_isOk (by decide)).mp ⟨live, destination⟩ (by decide))

/-- The owner took the directory away. -/
def emptied : Disk := ⟨⟨Live.empty, journal⟩, stats⟩

def owner : Store := Store.first Crypto.transparent "epoch" "alice" (List.replicate 32 1)

def machine : Host := ⟨["src"], fun _ _ => none, fun binary => .ok (place binary), true⟩

theorem emptied_clears : Clears Crypto.transparent machine owner ⟨"w", "x", "y"⟩ stats ⟨"t", ⟨1, 4, 3, 4, 5, 6⟩⟩
    ⟨"u", ⟨1, 5, 3, 4, 5, 6⟩⟩ "z" "v.json" interrupted emptied :=
  (clears_iff (by decide) rfl interrupted_read rfl rfl (by decide) (fun _ _ => by simp [interrupted])).mpr
    ⟨rfl, fun _ => ⟨rfl, by decide, .inl rfl⟩, fun _ found => (by cases found), by decide, fun _ => by decide⟩

end ReviewExample

end Clix.Pin
