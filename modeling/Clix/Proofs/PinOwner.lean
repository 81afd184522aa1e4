import Clix.Model.PinOwner
import Clix.Proofs.PinRecovery

/-! # Acting on a recorded receipt

A well-formed receipt can be inspected exactly when the place of its path holds nothing or a regular file, and
so does the name of its version. Then keeping the live version and discarding go through.
-/

namespace Clix.Pin

open Except

variable {c : Crypto} {d : Disk} {s : Store} {host : Host} {ids : Ids} {later : Stats} {draft : Draft}
  {id token fresh name path : String} {r : RecoveryReceipt} {view : RecoveryInspection}
  {live retained : Option RecoveryVersion} {saved : OrdMap String Artifact}

/-! ## Receipts and their names -/

theorem readAndParse_eq_ok (read : readAndParse saved id = .ok r) : ∃ text, saved.get? id = some (.receipt text r) ∧
    validRecoveryName id = .ok () ∧ text.length ≤ maxReceipt ∧ parseReceipt r = .ok r := by
  rw [readAndParse, bind_eq_ok] at read
  obtain ⟨r', readable, parsed⟩ := read
  have same := (parseReceipt_eq_ok.mp parsed).1
  subst same
  obtain ⟨text, found⟩ := readReceipt_eq_ok readable
  rw [readReceipt, bind_eq_ok] at readable
  obtain ⟨f, opened, bounded⟩ := readable
  have valid := (openInternal_eq_ok.mp opened).1
  rw [openInternal_receipt found valid] at opened
  cases opened
  dsimp only at bounded
  rw [refuseIf_bind_eq_ok] at bounded
  exact ⟨text, found, valid, not_lt.mp bounded.1, parsed⟩

theorem readAndParse_of_get? {text : Bytes} (found : saved.get? id = some (.receipt text r))
    (valid : validRecoveryName id = .ok ()) (small : text.length ≤ maxReceipt) (parsed : parseReceipt r = .ok r) :
    readAndParse saved id = .ok r := by
  rw [readAndParse, readReceipt, openInternal_receipt found valid, ok_bind, found]
  dsimp only
  rw [refuseIf_neg (not_lt.mpr small), ok_bind]
  exact parsed

theorem ne_of_endings {a b : String} {x y : String} (left : endsWith a x = true) (right : endsWith b y = true)
    (last : x.toList.getLast? ≠ y.toList.getLast?) (present : x ≠ "") (other : y ≠ "") : a ≠ b := by
  rintro rfl
  rw [endsWith, List.isSuffixOf_iff_suffix] at left right
  obtain ⟨p, left⟩ := left
  obtain ⟨q, right⟩ := right
  have nonempty {z : String} (there : z ≠ "") : z.toList ≠ [] := fun empty => there (String.toList_eq_nil_iff.mp empty)
  refine last ?_
  rw [← List.getLast?_append_of_ne_nil p (nonempty present), ← List.getLast?_append_of_ne_nil q (nonempty other), left, right]

/-- The version of a receipt that is not being discarded is data. -/
theorem version_ne_of_parsed (parsed : parseReceipt r = .ok r) (json : isReceiptName id = true)
    (kept : r.state ≠ .discarding) : r.version ≠ id := by
  have data := (parseReceipt_eq_ok.mp parsed).2.2.2
  rw [not_or, not_and] at data
  rintro rfl
  exact data.1 json (fun ⟨discarding, _⟩ => kept discarding)

/-! ## Snapshots -/

theorem snapshotInternal_eq_ok : snapshotInternal c d name = .ok retained ↔ validRecoveryName name = .ok () ∧
    (∀ a, d.tree.saved.get? name = some a → a.Readable) ∧
      retained = ((d.tree.saved.get? name).bind (·.file?)).map (fun f => snapshotFile c f (d.stats.saved name)) := by
  rw [snapshotInternal, bind_eq_ok]
  constructor
  · rintro ⟨f, opened, success⟩
    cases success
    obtain ⟨valid, readable, rfl⟩ := openInternal_eq_ok.mp opened
    exact ⟨valid, readable, rfl⟩
  · rintro ⟨valid, readable, rfl⟩
    exact ⟨_, openInternal_eq_ok.mpr ⟨valid, readable, rfl⟩, rfl⟩

theorem snapshotInternal_some {v : RecoveryVersion} (success : snapshotInternal c d name = .ok (some v)) :
    d.tree.saved.get? name ≠ none ∧ v.stamp = d.stats.saved name := by
  obtain ⟨-, -, same⟩ := snapshotInternal_eq_ok.mp success
  obtain ⟨f, found, rfl⟩ := Option.map_eq_some_iff.mp same.symm
  refine ⟨fun absent => ?_, rfl⟩
  rw [absent] at found
  cases found

theorem snapshotInternal_none (success : snapshotInternal c d name = .ok none) : d.tree.saved.get? name = none := by
  obtain ⟨-, readable, same⟩ := snapshotInternal_eq_ok.mp success
  cases found : d.tree.saved.get? name with
  | none => rfl
  | some a =>
    obtain ⟨f, isFile, -⟩ := readable a found
    rw [found, Option.bind_some, isFile] at same
    cases same

theorem snapshotInternal_congr {d' : Disk} (artifact : d'.tree.saved.get? name = d.tree.saved.get? name)
    (stamp : d'.stats.saved name = d.stats.saved name) : snapshotInternal c d' name = snapshotInternal c d name := by
  rw [snapshotInternal, snapshotInternal, openInternal_congr artifact, stamp]

/-- Nothing or a regular file that can be read is where a path leads. -/
def Settled (live : Live) (path : String) : Prop :=
  openTree live = .ok () ∧ ensurePassable path = .ok () ∧ (walk live [] (parts path) = .ok none ∨
    ∃ place f, walk live [] (parts path) = .ok (some (place, .file f)) ∧ mayRead f.mode = true)

theorem snapshotLive_isOk (valid : validPath path = .ok ()) :
    (∃ live, snapshotLive c d path = .ok live) ↔ Settled d.tree.live path := by
  rw [snapshotLive, openLive, valid, ok_bind, Settled]
  constructor
  · rintro ⟨live, success⟩
    rw [bind_eq_ok] at success
    obtain ⟨found, opened, success⟩ := success
    obtain ⟨tree, passable, walked, readable⟩ := openat2_eq_ok.mp opened
    refine ⟨tree, passable, ?_⟩
    cases found with
    | none => exact .inl walked
    | some there =>
      obtain ⟨place, node⟩ := there
      cases node with
      | file f => exact .inr ⟨place, f, walked, readable place (.file f) rfl⟩
      | dir => cases success
      | link target => cases success
      | special => cases success
  · rintro ⟨tree, passable, absent | ⟨place, f, there, readable⟩⟩
    · exact ⟨none, by rw [openat2_eq_ok.mpr ⟨tree, passable, absent, by simp⟩]; rfl⟩
    · refine ⟨some (snapshotFile c f (d.stats.live place)), ?_⟩
      have opened : openat2 d.tree.live path = .ok (some (place, .file f)) := by
        refine openat2_eq_ok.mpr ⟨tree, passable, there, fun place' node same => ?_⟩
        cases same
        exact readable
      rw [opened]
      rfl

/-! ## Inspection -/

/-- A well-formed receipt is inspected as such. -/
theorem inspection_of_parsed (read : readAndParse d.tree.saved id = .ok r) (json : isReceiptName id = true) :
    inspection c d id = inspectReceipt c d id r := by
  obtain ⟨text, found, valid, small, -⟩ := readAndParse_eq_ok read
  rw [inspection, valid, ok_bind, if_neg (by rw [json]; simp), openInternal_receipt found valid, ok_bind]
  dsimp only
  rw [if_neg (not_lt.mpr small), read]

/-- What an inspection of a receipt shows. -/
def shown (c : Crypto) (id : String) (r : RecoveryReceipt) (live retained : Option RecoveryVersion) :
    RecoveryInspection where
  id := id
  recorded := true
  receipt := r
  live := live
  retained := retained
  token := c.hash (Json.array [r.declared, Json.toVec live, Json.toVec retained, Json.toVec id])
  explanation := explain r (live.map (·.fingerprint)) (retained.map (·.fingerprint))

theorem inspectReceipt_eq_ok : inspectReceipt c d id r = .ok view ↔ ∃ live retained,
    snapshotDestination c d r = .ok live ∧ snapshotInternal c d r.version = .ok retained ∧
      view = shown c id r live retained := by
  rw [inspectReceipt, bind_eq_ok]
  refine exists_congr (fun live => ?_)
  rw [bind_eq_ok]
  constructor
  · rintro ⟨destination, retained, version, success⟩
    cases success
    exact ⟨retained, destination, version, rfl⟩
  · rintro ⟨retained, destination, version, rfl⟩
    exact ⟨destination, retained, version, rfl⟩

theorem artifactInspection_recorded {explanation : String}
    (success : artifactInspection c d id explanation = .ok view) : view.recorded = false := by
  rw [artifactInspection, bind_eq_ok] at success
  obtain ⟨⟨⟩, -, success⟩ := success
  rw [bind_eq_ok] at success
  obtain ⟨retained, -, success⟩ := success
  cases retained with
  | none => cases success
  | some retained =>
    cases success
    rfl

/-- A recorded inspection shows a well-formed receipt. -/
theorem inspection_recorded (success : inspection c d id = .ok view) (recorded : view.recorded = true) :
    isReceiptName id = true ∧ ∃ r, readAndParse d.tree.saved id = .ok r ∧ inspectReceipt c d id r = .ok view := by
  rw [inspection, bind_eq_ok] at success
  obtain ⟨⟨⟩, -, success⟩ := success
  have unrecorded {explanation : String} (ran : artifactInspection c d id explanation = .ok view) : False := by
    rw [artifactInspection_recorded ran] at recorded
    cases recorded
  split_ifs at success with plain
  · exact (unrecorded success).elim
  · rw [bind_eq_ok] at success
    obtain ⟨opened, -, success⟩ := success
    cases opened with
    | none => cases success
    | some f =>
      dsimp only at success
      split_ifs at success
      · exact (unrecorded success).elim
      · cases read : readAndParse d.tree.saved id with
        | error e =>
          rw [read] at success
          exact (unrecorded success).elim
        | ok r =>
          rw [read] at success
          exact ⟨by simpa using plain, r, rfl, success⟩

/-! ## Writing a receipt -/

theorem writeTypedReceipt_eq_ok (valid : validRecoveryName id = .ok ())
    (unused : d.tree.saved.get? (draft.tmp ++ ".tmp") = none) :
    writeTypedReceipt draft id r d = .ok (d.write id (.ofReceipt r) draft.stamp) := by
  rw [writeTypedReceipt, valid, ok_bind, unused]
  rfl

theorem Disk.write_of_ne {a : Artifact} {stamp : Stamp} (differs : name ≠ id) :
    (d.write id a stamp).tree.saved.get? name = d.tree.saved.get? name ∧
      (d.write id a stamp).stats.saved name = d.stats.saved name :=
  ⟨OrdMap.get?_insert_of_ne _ _ differs, Function.update_of_ne differs _ _⟩

theorem checkOptionalFile_self (f : Option File) (stamp : Stamp) :
    checkOptionalFile (f.map (fun f => (f, stamp))) (f.map (fun f => snapshotFile c f stamp)) = .ok () := by
  cases f with
  | none => rfl
  | some f =>
    refine refuseIf_neg ?_
    change ¬matchesVersion f stamp (snapshotFile c f stamp) = false
    simp [matchesVersion, snapshotFile, File.fingerprint, fingerprint]

end Clix.Pin
