import Clix.Proofs.PinFrames
import Clix.Proofs.PinScan
import Clix.Soundness.PinJournal
import Clix.Soundness.PinSync
import Clix.Soundness.PinGate

/-! # Two machines that can be synchronized

A pair of machines is ready for some changes when a session between them would plan exactly these, and the
destinations can apply them one after another. Once the first change is applied, the pair is ready for the rest.
It does not matter which machine starts the session.
-/

namespace Clix.Pin

open Except

variable {c : Crypto} {host hostA hostB : Host} {s : Store} {t t' after : Tree} {ch : Change} {bytes : Option Bytes}
  {ids drawn : Ids} {draw : String → Ids} {files af bf loc rem base merged own other : Manifest} {rel a b : String}
  {m m' n n' : Machine} {changes rest : List Change} {ignored : List String} {here there : Side}
  {outcome : Option (Result Unit)} {steps : ℕ}

/-! ## One change -/

/-- An application that returns leaves no pending receipt of its own. -/
theorem settle_ends {text : Bytes} {r : RecoveryReceipt}
    (ran : perform (settleOps c ids ch ignored) steps after = (some (.ok ()), t'))
    (found : t'.saved.get? ids.receiptName = some (.receipt text r)) : r.state ≠ .pending := by
  unfold settleOps at ran
  cases expected : ch.expected with
  | some fp =>
    rw [expected] at ran
    rcases perform_cons ran with ⟨-, unfinished⟩ | ⟨next, n, checked, noting⟩
    · exact absurd rfl unfinished
    · rcases perform_writeReceipt noting with ⟨unfinished, -⟩ | ⟨-, absent, saved⟩
      · exact absurd rfl unfinished
      · rw [saved, get?_noted absent, if_pos rfl] at found
        cases found
        simp [receiptOf]
  | none =>
    rw [expected] at ran
    rcases perform_append ran with ⟨-, unfinished⟩ | ⟨one, n, written, ran⟩
    · exact absurd rfl unfinished
    · rcases perform_cons ran with ⟨-, unfinished⟩ | ⟨two, n, unlinked, ran⟩
      · exact absurd rfl unfinished
      · cases ran
        rw [unlinkSaved_eq_ok unlinked, OrdMap.get?_erase, if_pos rfl] at found
        cases found

/-- An application that returned had nothing to do, or published its change and settled its receipt. -/
theorem apply_ended (ran : apply c host s ch bytes ids t = (.ok (), t')) :
    ∃ current, Admitted c host s t ch bytes [] current ∧ ((current.map (·.fingerprint c) = ch.new ∧ t' = t) ∨
      (current.map (·.fingerprint c) = ch.expected ∧
        admitRecovery t.saved (current.elim 0 (·.bytes.length) + bytes.elim 0 (·.length)) 4 = .ok () ∧
        Taken ch.path (newFile ch (bytes.getD [])) t.live t'.live ∧
        ∃ before remaining middle after,
          perform (journalOps ids ch (bytes.getD []) []) before t = (some (.ok ()), middle) ∧
          Published ids ch (bytes.getD []) current middle after ∧
          perform (settleOps c ids ch []) remaining after = (some (.ok ()), t'))) := by
  obtain ⟨steps, report, locked⟩ := applyUndisturbed_eq_applyLocked (apply_eq_ok.mp ran).2
  rw [applyLocked] at locked
  cases checked : applyChecks c host s t ch bytes [] with
  | error e =>
    rw [checked] at locked
    cases locked
  | ok due =>
    rw [checked] at locked
    obtain ⟨current, admitted, ⟨rfl, same⟩ | ⟨rfl, differs, expected, -, room⟩⟩ := applyChecks_eq_ok.mp checked
    · cases locked
      exact ⟨current, admitted, .inl ⟨same, rfl⟩⟩
    · dsimp only at locked
      generalize performed : perform _ steps t = finished at locked
      obtain ⟨result, last⟩ := finished
      obtain ⟨rfl, rfl⟩ : result = some (.ok ()) ∧ last = t' := by
        rcases result with _ | ⟨e | ⟨⟨⟩⟩⟩ <;> cases locked
        exact ⟨rfl, rfl⟩
      obtain rfl : report = some ids.receiptName := by
        cases locked
        rfl
      rcases perform_change performed with ⟨-, -, unfinished⟩ | ⟨middle, after, remaining, ready, published, settled⟩
      · exact absurd rfl unfinished
      · have effect := published_of_ready admitted.readable (fun same => differs (expected.trans same)) ready published
        refine ⟨current, admitted, .inr ⟨expected, room, ?_, _, remaining, middle, after, ready, effect, settled⟩⟩
        exact taken_of_published (perform_journal_opens ready) effect (perform_settle_live settled)

/-- What an application leaves that had something to do and returned: the change is published, and the recovery
directory is in order. -/
theorem apply_done (fresh : ids.Fresh t.saved []) (ran : apply c host s ch bytes ids t = (.ok (), t'))
    (due : (t.live.file? (place ch.path)).map (·.fingerprint c) ≠ ch.new) :
    Admitted c host s t ch bytes [] (t.live.file? (place ch.path)) ∧
      Taken ch.path (newFile ch (bytes.getD [])) t.live t'.live ∧ checkRecoveryExcept c t'.saved [] = .ok () := by
  obtain ⟨current, admitted, ⟨same, -⟩ | ⟨expected, room, taken, before, remaining, middle, after, ready, effect,
    settled⟩⟩ := apply_ended ran
  · rw [← place_of_admitted admitted] at due
    exact absurd same due
  · have small := (read_eq_ok admitted.readable).2.2.2.2
    have noCollision : NoCollision c current (current.map .file) := by
      rintro f g isFile same -
      rw [isFile] at same
      cases same
      exact List.take_of_length_le (by have := small f isFile; omega)
    refine ⟨place_of_admitted admitted ▸ admitted, taken, ?_⟩
    rcases journal_of_left fresh (List.forall_mem_nil _) admitted expected room
      (by rw [Option.isSome_map]; exact effect.known) noCollision
      (pending_of_published fresh (journalOps_saved_alone ready) effect.saved) (left_of_settle settled) with
      ⟨text, r, found, -, pending, -⟩ | complete
    · exact absurd pending (settle_ends settled found)
    · exact complete.1

/-- Settling a creation removes its receipt. -/
theorem settle_creation (creation : ch.expected = none)
    (ran : perform (settleOps c ids ch ignored) steps after = (some (.ok ()), t')) :
    ∀ name, t'.saved.get? name = if name = ids.receiptName then none else after.saved.get? name := by
  rw [settleOps, creation] at ran
  rcases perform_append ran with ⟨-, unfinished⟩ | ⟨one, n, written, ran⟩
  · exact absurd rfl unfinished
  · rcases perform_writeReceipt written with ⟨unfinished, -⟩ | ⟨-, absent, saved⟩
    · exact absurd rfl unfinished
    · rcases perform_cons ran with ⟨-, unfinished⟩ | ⟨two, n, unlinked, ran⟩
      · exact absurd rfl unfinished
      · cases ran
        intro name
        rw [unlinkSaved_eq_ok unlinked, OrdMap.get?_erase, saved, get?_noted absent]
        split_ifs <;> rfl

/-- A creation leaves the recovery directory as it was. -/
theorem apply_creation (fresh : ids.Fresh t.saved []) (ran : apply c host s ch bytes ids t = (.ok (), t'))
    (creation : ch.expected = none) : t'.saved = t.saved := by
  obtain ⟨current, -, ⟨-, rfl⟩ | ⟨-, -, -, before, remaining, middle, after, ready, effect, settled⟩⟩ :=
    apply_ended ran
  · rfl
  · have nothing : current = none := by
      rw [← Option.isNone_iff_eq_none, ← Option.isSome_eq_false_iff, effect.known, creation]
      rfl
    have pending := pending_of_published fresh (journalOps_saved_alone ready) effect.saved
    refine OrdMap.ext_get? (fun name => ?_)
    rw [settle_creation creation settled]
    split_ifs with receipt
    · rw [receipt, fresh.noReceipt]
    · by_cases version : name = ids.version
      · rw [version, pending.version, nothing, fresh.noVersion]
        rfl
      · exact pending.others name receipt version

theorem scan_depth (success : scan c t = .ok files) (present : files.get? rel ≠ none) :
    (place rel).length ≤ maxDepth := by
  obtain ⟨-, plain, kept⟩ := scan_path success present
  rw [scan_get? success plain kept] at present
  obtain ⟨f, found⟩ := Option.ne_none_iff_exists'.mp (fun absent : t.live.file? (place rel) = none =>
    present (by rw [absent, Option.map_none]))
  exact (scan_eq_ok success).2.2.1 _ (visited_of_file? found (by rw [plain, join_parts]; exact kept))

/-- A change that was applied changes the scan of its destination at its path. -/
theorem apply_scan (scanned : scan c t = .ok files) (ran : apply c host s ch bytes ids t = (.ok (), t'))
    (expected : ch.expected = files.get? ch.path) (differs : ch.expected ≠ ch.new)
    (plain : place ch.path = parts ch.path) (shallow : (place ch.path).length ≤ maxDepth)
    (small : ∀ content, bytes = some content → content.length ≤ maxFile)
    (readable : ∀ new, ch.new = some new → mayRead new.mode = true) (fresh : ids.Fresh t.saved [])
    (few : (visited t'.live).length ≤ maxPinEntries) : scan c t' = .ok (ch.applyTo files) := by
  have valid : validPath ch.path = .ok () := by
    obtain ⟨current, admitted, -⟩ := apply_ended ran
    exact (read_eq_ok admitted.readable).1
  have lookup := scan_get? scanned plain (validPath_eq_ok.mp valid).2.2
  obtain ⟨admitted, taken, reviewed⟩ := apply_done fresh ran (by rw [← lookup, ← expected]; exact differs)
  have size (f : File) (isNew : newFile ch (bytes.getD []) = some f) : f.bytes.length ≤ maxFile := by
    obtain ⟨new, -, rfl⟩ := Option.map_eq_some_iff.mp isNew
    cases bytes with
    | none => exact Nat.zero_le _
    | some content => exact small content rfl
  have mode (f : File) (isNew : newFile ch (bytes.getD []) = some f) : mayRead f.mode = true := by
    obtain ⟨new, hasNew, rfl⟩ := Option.map_eq_some_iff.mp isNew
    exact readable new hasNew
  obtain ⟨files', success, entries⟩ := scan_taken scanned taken size mode valid (read_passable admitted.readable) plain
    shallow reviewed few
  rw [success]
  refine congrArg Except.ok (OrdMap.ext_get? (fun p => ?_))
  rw [entries, get?_applyTo, newFile_fingerprint admitted.content]

/-! ## A planned change -/

/-- A tree has no more entries than a scan takes. -/
def Roomy (m : Machine) : Prop := (visited m.tree.live).length ≤ maxPinEntries

instance (m : Machine) : Decidable (Roomy m) := inferInstanceAs (Decidable (_ ≤ _))

theorem offered_eq_ok {live : Live} {data : Option File} (success : offered c live ch = .ok data) :
    read live ch.path = .ok data ∧ data.map (·.fingerprint c) = ch.new := by
  rw [offered, bind_eq_ok] at success
  obtain ⟨found, readable, success⟩ := success
  rw [refuseIf_bind_eq_ok, not_not] at success
  obtain ⟨same, success⟩ := success
  cases success
  exact ⟨readable, same⟩

theorem syncChange_pull {data : Option File} {result : Result Unit} (direction : ch.toRemote = false)
    (found : offered c n.tree.live ch = .ok data)
    (applied : apply c hostA m.store ch (data.map (·.bytes)) drawn m.tree = (result, t)) :
    syncChange c hostA hostB drawn ch m n = (result, { m with tree := t }, n) := by
  rw [syncChange, direction, if_neg Bool.false_ne_true, found]
  dsimp only
  rw [if_neg Bool.false_ne_true, applied]

/-- A change of a plan, applied between two scanned trees, changes the scan of its destination only. -/
theorem syncChange_scan (scannedA : scan c m.tree = .ok af) (scannedB : scan c n.tree = .ok bf)
    (needed : changeFor af bf base ch.path = some ch)
    (ran : syncChange c hostA hostB drawn ch m n = (.ok (), m', n'))
    (fresh : drawn.Fresh (if ch.toRemote then n else m).tree.saved []) (roomA : Roomy m') (roomB : Roomy n') :
    m'.store = m.store ∧ n'.store = n.store ∧
      scan c m'.tree = .ok (if ch.toRemote then af else ch.applyTo af) ∧
      scan c n'.tree = .ok (if ch.toRemote then ch.applyTo bf else bf) := by
  -- The path is in one of the scans, so its place is the plain one.
  have listed : place ch.path = parts ch.path ∧ (place ch.path).length ≤ maxDepth := by
    by_cases absent : af.get? ch.path = none
    · have present : bf.get? ch.path ≠ none := fun none => by
        rw [changeFor, changeAt, if_pos (absent.trans none.symm)] at needed
        cases needed
      exact ⟨(scan_path scannedB present).2.1, scan_depth scannedB present⟩
    · exact ⟨(scan_path scannedA absent).2.1, scan_depth scannedA absent⟩
  rw [syncChange] at ran
  split at ran
  · cases ran
  · next data found =>
    obtain ⟨readable, offer⟩ := offered_eq_ok found
    have mode (new : Fingerprint) (isNew : ch.new = some new) : mayRead new.mode = true :=
      mayRead_of_read readable (offer.trans isNew)
    have small (content : Bytes) (isContent : data.map (·.bytes) = some content) : content.length ≤ maxFile := by
      obtain ⟨f, isFile, rfl⟩ := Option.map_eq_some_iff.mp isContent
      exact (read_eq_ok readable).2.2.2.2 f isFile
    rw [changeFor, changeAt] at needed
    split_ifs at needed with same kept
    · have parts := Option.some.inj needed
      have direction : ch.toRemote = false := by rw [← parts]
      have expected : ch.expected = af.get? ch.path := by rw [← parts]
      have differs : ch.expected ≠ ch.new := by rw [← parts]; exact same
      rw [direction] at ran fresh ⊢
      simp only [Bool.false_eq_true, if_false] at ran fresh ⊢
      generalize applied : apply c hostA m.store ch (data.map (·.bytes)) drawn m.tree = outcome at ran
      obtain ⟨result, tree⟩ := outcome
      cases ran
      exact ⟨rfl, rfl, apply_scan scannedA applied expected differs listed.1 listed.2 small mode fresh roomA, scannedB⟩
    · have parts := Option.some.inj needed
      have direction : ch.toRemote = true := by rw [← parts]
      have expected : ch.expected = bf.get? ch.path := by rw [← parts]
      have differs : ch.expected ≠ ch.new := by rw [← parts]; exact Ne.symm same
      rw [direction] at ran fresh ⊢
      simp only [if_true] at ran fresh ⊢
      generalize applied : apply c hostB n.store ch (data.map (·.bytes)) drawn n.tree = outcome at ran
      obtain ⟨result, tree⟩ := outcome
      cases ran
      exact ⟨rfl, rfl, scannedA, apply_scan scannedB applied expected differs listed.1 listed.2 small mode fresh roomB⟩

/-! ## Plans after a change -/

theorem filterMap_rest {α β : Type} [DecidableEq α] {g h : α → Option β} {at_ : α} {x : β} {xs : List β}
    {ps : List α} (nodup : ps.Nodup) (found : ps.filterMap g = x :: xs) (first : g at_ = some x)
    (only : ∀ p, g p = some x → p = at_) (after : ∀ p, h p = if p = at_ then none else g p) :
    ps.filterMap h = xs := by
  induction ps with
  | nil => cases found
  | cons p rest ih =>
    obtain ⟨fresh, distinct⟩ := List.nodup_cons.mp nodup
    rw [List.filterMap_cons] at found ⊢
    cases here : g p with
    | none =>
      rw [here] at found
      have elsewhere : p ≠ at_ := fun same => by
        rw [same, first] at here
        cases here
      rw [after, if_neg elsewhere, here]
      exact ih distinct found
    | some y =>
      rw [here] at found
      obtain ⟨rfl, rfl⟩ := List.cons.inj found
      have same := only p here
      rw [after, if_pos same]
      refine List.filterMap_congr (fun q listed => ?_)
      rw [after, if_neg (fun again : q = at_ => fresh (by rw [same, ← again]; exact listed))]

/-- Once the first change of a plan is made, the rest is planned, with the same merge. -/
theorem plan_rest {loc' rem' : Manifest} (planned : plan loc rem base a b = .ok (ch :: rest, merged))
    (local_ : loc' = if ch.toRemote then loc else ch.applyTo loc)
    (remote : rem' = if ch.toRemote then ch.applyTo rem else rem) :
    plan loc' rem' base a b = .ok (rest, merged) := by
  have needed := (plan_mem planned).mp List.mem_cons_self
  obtain ⟨expected, new, taken, differs⟩ := plan_expected planned List.mem_cons_self
  obtain ⟨plannable, listed, lookup⟩ := plan_eq_ok.mp planned
  have agree := plan_agree planned
  -- At the path of the change both sides hold the merged value; elsewhere nothing changed.
  have left (p : String) : loc'.get? p = if p = ch.path then merged.get? p else loc.get? p := by
    rw [local_]
    split_ifs with direction here here
    · rw [here, ← taken, new, direction, if_pos rfl]
    · rfl
    · rw [get?_applyTo, if_pos here, taken, here]
    · rw [get?_applyTo, if_neg here]
  have right (p : String) : rem'.get? p = if p = ch.path then merged.get? p else rem.get? p := by
    rw [remote]
    split_ifs with direction here here
    · rw [get?_applyTo, if_pos here, taken, here]
    · rw [get?_applyTo, if_neg here]
    · rw [here, ← taken, new, if_neg direction]
    · rfl
  have agree' (p : String) : ThreeWay.Agree (loc'.get? p) (rem'.get? p) (base.get? p) ∧
      mergeFor loc' rem' base p = mergeFor loc rem base p := by
    refine ThreeWay.agree_of_taken (agree p) ?_ ?_
    · rw [left]
      split_ifs with here
      · exact .inr (lookup p)
      · exact .inl rfl
    · rw [right]
      split_ifs with here
      · exact .inr (lookup p)
      · exact .inl rfl
  have present (p : String) : p ∈ paths [loc', rem', base] ↔ p ∈ paths [loc, rem, base] := by
    simp only [mem_paths, List.mem_cons, List.not_mem_nil, or_false, exists_eq_or_imp, exists_eq_left]
    rw [left, right]
    split_ifs with here
    · rw [here]
      rw [lookup, mergeFor, ThreeWay.merge]
      have either := agree ch.path
      rw [changeFor, changeAt] at needed
      split_ifs at needed with same kept
      · rw [if_neg same, if_pos kept]
        constructor
        · tauto
        · rw [kept]
          tauto
      · rw [if_neg same, if_neg kept]
        have theirs := (either.resolve_left same).resolve_left kept
        constructor
        · tauto
        · rw [theirs]
          tauto
    · rfl
  have samePaths : paths [loc', rem', base] = paths [loc, rem, base] := by
    unfold paths
    rw [OrdMap.extend_congr (fun k => ?_)]
    have := present k
    simpa [mem_paths, List.mem_flatMap, OrdMap.mem_keys_iff, OrdMap.contains_eq_true_iff,
      ← Option.ne_none_iff_exists'] using this
  refine plan_eq_ok.mpr ⟨fun p member => ?_, ?_, fun p => by rw [lookup, (agree' p).2]⟩
  · exact ⟨(plannable p (samePaths ▸ member)).1, (agree' p).1⟩
  · rw [samePaths]
    refine (filterMap_rest (paths_nodup _) listed.symm needed (fun p found => ?_) (fun p => ?_)).symm
    · exact (changeAt_path found).symm
    · rw [changeFor, left, right]
      split_ifs with here
      · rw [changeAt, if_pos rfl]
      · rfl

/-! ## Scans and listings -/

theorem scan_valid (success : scan c t = .ok files) : Valid files :=
  fun _ present => (scan_path success present).1

theorem scanNodes_size {live : Live} {out : Manifest} {entries : List (List String × Node)}
    (success : scanNodes c live out entries = .ok files) : files.size ≤ out.size + entries.length := by
  induction entries generalizing out with
  | nil =>
    cases success
    exact le_rfl
  | cons e rest ih =>
    rw [scanNodes, bind_eq_ok] at success
    obtain ⟨found, -, success⟩ := success
    have counted := ih success
    have grown : (found.elim out (out.insert (join e.1))).size ≤ out.size + 1 := by
      cases found with
      | none => exact Nat.le_succ _
      | some fp =>
        rw [Option.elim_some]
        cases there : out.get? (join e.1) with
        | none => rw [OrdMap.size_insert_of_none fp there]
        | some old =>
          rw [OrdMap.size_insert_of_some fp there]
          exact Nat.le_succ _
    rw [List.length_cons]
    omega

theorem scan_size (success : scan c t = .ok files) : files.size ≤ maxPinEntries := by
  have few := (scan_eq_ok success).2.1
  have counted := scanNodes_size (scan_nodes success)
  rw [show (∅ : Manifest).size = 0 from rfl] at counted
  omega

/-- A baseline as a machine keeps it: what was scanned once. -/
structure Recorded (base : Manifest) : Prop where
  valid : Valid base
  few : base.size ≤ maxPinEntries

theorem Recorded.of_scan (success : scan c t = .ok files) : Recorded files := ⟨scan_valid success, scan_size success⟩

theorem withoutExcluded_of_valid (valid : Valid files) : withoutExcluded files = files := by
  refine OrdMap.ext_get? (fun p => ?_)
  rw [withoutExcluded, OrdMap.get?_restrict]
  split_ifs with kept
  · rfl
  · by_contra absent
    have := (validPath_eq_ok.mp (valid p (Ne.symm absent))).2.2
    rw [this] at kept
    exact kept rfl

theorem validateListing_of (files_ : Recorded files) (base_ : Recorded base) :
    validateListing ⟨files, base⟩ = .ok ⟨files, base⟩ := by
  rw [validateListing, refuseIf_neg (not_or.mpr ⟨not_lt.mpr files_.few, not_lt.mpr base_.few⟩), ok_bind]
  dsimp only
  rw [withoutExcluded_of_valid files_.valid, withoutExcluded_of_valid base_.valid]
  have each : (files.keys ++ base.keys).forM validPath = .ok () := by
    refine List.forM_except_eq_ok.mpr (fun p member => ?_)
    rcases List.mem_append.mp member with listed | listed
    · exact files_.valid p (mem_keys_iff_ne_none.mp listed)
    · exact base_.valid p (mem_keys_iff_ne_none.mp listed)
  rw [each, ok_bind]
  rfl

/-! ## Ready pairs -/

/-- A machine that can take part in a session with a peer. -/
structure Partner (m : Machine) (peer : Peer) : Prop where
  known : m.store.peers.find? (fun p => p.name.name == peer.name.name) = some peer
  enabled : m.store.pinEnabled = true
  writable : m.store.writeError = none
  recorded : Recorded (baseline m.store peer.ownerPk)

/-- A fingerprint that was scanned is written in few bytes. -/
theorem scan_digest {fp : Fingerprint} (success : scan c t = .ok files) (found : files.get? rel = some fp) :
    fp.hash.utf8ByteSize = 64 := by
  obtain ⟨-, plain, kept⟩ := scan_path success (by rw [found]; simp)
  rw [scan_get? success plain kept] at found
  obtain ⟨f, -, rfl⟩ := Option.map_eq_some_iff.mp found
  exact Crypto.utf8ByteSize_hash c f.bytes

theorem Partner.congr {peer : Peer} (partner : Partner m peer) (same : m'.store = m.store) : Partner m' peer :=
  ⟨same ▸ partner.known, same ▸ partner.enabled, same ▸ partner.writable, same ▸ partner.recorded⟩

/-- A machine's listing fits in a frame: the files of its tree and what it last agreed on with the peer. -/
def Brief (c : Crypto) (m : Machine) (peer : Peer) : Prop :=
  ∀ files, scan c m.tree = .ok files →
    (Answer.listing (.ok ⟨files, baseline m.store peer.ownerPk⟩)).text.length ≤ Limits.meshFrameBytes

/-- A machine's tree can be scanned, and listed for a peer. -/
def Listable (c : Crypto) (m : Machine) (peer : Peer) : Prop := Roomy m ∧ Brief c m peer

/-- The merge fits in a frame, as both the files of a tree and what was last agreed on. -/
def Closing (merged : Manifest) : Prop :=
  (Answer.listing (.ok ⟨merged, merged⟩)).text.length ≤ Limits.meshFrameBytes

/-- The destinations can apply some changes one after another, and the trees in between can be scanned and
listed. -/
def Doable (c : Crypto) (here there : Side) (draw : String → Ids) : List Change → Machine → Machine → Prop
  | [], _, _ => True
  | ch :: rest, m, n => (draw ch.path).Fresh (if ch.toRemote then n else m).tree.saved [] ∧
    ∃ m' n', syncChange c here.host there.host (draw ch.path) ch m n = (.ok (), m', n') ∧
      Listable c m' here.peer ∧ Listable c n' there.peer ∧ Doable c here there draw rest m' n'

/-- A session between two machines would plan some changes, which the destinations can apply. -/
structure Ready (c : Crypto) (here there : Side) (draw : String → Ids) (m n : Machine) (changes : List Change)
    (merged : Manifest) : Prop where
  caller : Partner m here.peer
  callee : Partner n there.peer
  planned : ∃ af bf base, scan c m.tree = .ok af ∧ scan c n.tree = .ok bf ∧
    commonBaseline (baseline m.store here.peer.ownerPk) (baseline n.store there.peer.ownerPk) af bf = .ok base ∧
    plan af bf base m.store.bodyName here.peer.name.name = .ok (changes, merged)
  doable : Doable c here there draw changes m n
  callerBrief : Brief c m here.peer
  calleeBrief : Brief c n there.peer
  closing : Closing merged

/-- Where something is to be done, both machines last agreed on the same manifest. -/
theorem commonBaseline_of_change (common : commonBaseline own other loc rem = .ok base)
    (needed : changeFor loc rem base rel = some ch) : own = base ∧ other = base := by
  rcases commonBaseline_eq_ok.mp common with ⟨same, rfl⟩ | ⟨-, equal, rfl⟩
  · exact ⟨rfl, same.symm⟩
  · rw [equal, changeFor, changeAt, if_pos rfl] at needed
    cases needed

theorem commonBaseline_swap (common : commonBaseline own other loc rem = .ok base) :
    commonBaseline other own rem loc = .ok base := by
  rw [commonBaseline_eq_ok] at common ⊢
  rcases common with ⟨same, rfl⟩ | ⟨differs, equal, rfl⟩
  · exact .inl ⟨same.symm, same⟩
  · exact .inr ⟨Ne.symm differs, equal.symm, equal⟩

theorem plan_names {a' b' : String} (planned : plan loc rem base a b = .ok (changes, merged)) :
    plan loc rem base a' b' = .ok (changes, merged) := plan_eq_ok.mpr (plan_eq_ok.mp planned)

/-- A change between two machines is the flipped change between the swapped ones. -/
theorem syncChange_flip : syncChange c hostB hostA drawn ch.flip n m =
    ((syncChange c hostA hostB drawn ch m n).1, (syncChange c hostA hostB drawn ch m n).2.2,
      (syncChange c hostA hostB drawn ch m n).2.1) := by
  have direction : ch.flip.toRemote = !ch.toRemote := rfl
  have content (live : Live) : offered c live ch.flip = offered c live ch := rfl
  unfold syncChange
  rw [content, direction]
  cases ch.toRemote with
  | false =>
    simp only [Bool.not_false, if_true, Bool.false_eq_true, if_false]
    cases offered c n.tree.live ch <;> rfl
  | true =>
    simp only [Bool.not_true, if_true, Bool.false_eq_true, if_false]
    cases offered c m.tree.live ch <;> rfl

theorem Doable.flip (doable : Doable c here there draw changes m n) :
    Doable c there here draw (changes.map Change.flip) n m := by
  induction changes generalizing m n with
  | nil => trivial
  | cons ch rest ih =>
    obtain ⟨fresh, m', n', ran, roomA, roomB, others⟩ := doable
    have path : ch.flip.path = ch.path := rfl
    refine ⟨?_, n', m', by rw [path, syncChange_flip, ran], roomB, roomA, ih others⟩
    have side : (if ch.flip.toRemote then m else n) = if ch.toRemote then n else m := by
      cases direction : ch.toRemote <;> simp [Change.flip, direction]
    rw [side]
    exact fresh

namespace Ready

/-- Either machine may start the session. -/
theorem swap (ready : Ready c here there draw m n changes merged) :
    Ready c there here draw n m (changes.map Change.flip) merged := by
  obtain ⟨af, bf, base, scannedA, scannedB, common, planned⟩ := ready.planned
  exact ⟨ready.callee, ready.caller, ⟨bf, af, base, scannedB, scannedA, commonBaseline_swap common,
    plan_names (plan_swap planned)⟩, ready.doable.flip, ready.calleeBrief, ready.callerBrief, ready.closing⟩

/-- Where nothing is left to be done, both trees are the merge. -/
theorem equal (ready : Ready c here there draw m n [] merged) :
    scan c m.tree = .ok merged ∧ scan c n.tree = .ok merged := by
  obtain ⟨af, bf, base, scannedA, scannedB, -, planned⟩ := ready.planned
  have merges := plan_merges planned
  exact ⟨merges.local_ ▸ scannedA, merges.remote ▸ scannedB⟩

/-- Two equal trees need no change, whatever was recorded. -/
theorem of_equal (caller : Partner m here.peer) (callee : Partner n there.peer)
    (scannedA : scan c m.tree = .ok merged) (scannedB : scan c n.tree = .ok merged)
    (briefA : Brief c m here.peer) (briefB : Brief c n there.peer) (closing : Closing merged) :
    Ready c here there draw m n [] merged := by
  have plannedFrom (base : Manifest) (valid : Valid base) :
      plan merged merged base m.store.bodyName here.peer.name.name = .ok ([], merged) := by
    refine plan_eq_ok.mpr ⟨fun p listed => ⟨?_, .inl rfl⟩, ?_, fun p => ?_⟩
    · obtain ⟨files, member, present⟩ := mem_paths.mp listed
      simp only [List.mem_cons, List.not_mem_nil, or_false] at member
      rcases member with rfl | rfl | rfl
      · exact scan_valid scannedA p present
      · exact scan_valid scannedA p present
      · exact valid p present
    · refine (List.filterMap_eq_nil_iff.mpr (fun p _ => ?_)).symm
      rw [changeFor, changeAt, if_pos rfl]
    · rw [mergeFor, ThreeWay.merge_self]
  refine ⟨caller, callee, ?_, trivial, briefA, briefB, closing⟩
  by_cases same : baseline m.store here.peer.ownerPk = baseline n.store there.peer.ownerPk
  · exact ⟨merged, merged, _, scannedA, scannedB, commonBaseline_eq_ok.mpr (.inl ⟨same, rfl⟩),
      plannedFrom _ caller.recorded.valid⟩
  · exact ⟨merged, merged, merged, scannedA, scannedB, commonBaseline_eq_ok.mpr (.inr ⟨same, rfl, rfl⟩),
      plannedFrom _ (scan_valid scannedA)⟩

/-- The first change is applied, and the machines are ready for the rest. -/
theorem next (ready : Ready c here there draw m n (ch :: rest) merged) : ∃ m' n',
    syncChange c here.host there.host (draw ch.path) ch m n = (.ok (), m', n') ∧
      Ready c here there draw m' n' rest merged := by
  obtain ⟨af, bf, base, scannedA, scannedB, common, planned⟩ := ready.planned
  obtain ⟨fresh, m', n', ran, roomA, roomB, others⟩ := ready.doable
  have needed := (plan_mem planned).mp List.mem_cons_self
  obtain ⟨storeA, storeB, afterA, afterB⟩ := syncChange_scan scannedA scannedB needed ran fresh roomA.1 roomB.1
  obtain ⟨own, other⟩ := commonBaseline_of_change common needed
  refine ⟨m', n', ran, ready.caller.congr storeA, ready.callee.congr storeB, ⟨_, _, base, afterA, afterB, ?_, ?_⟩,
    others, roomA.2, roomB.2, ready.closing⟩
  · rw [storeA, storeB, own, other]
    exact commonBaseline_eq_ok.mpr (.inl ⟨rfl, rfl⟩)
  · rw [storeA]
    exact plan_rest planned rfl rfl

end Ready

end Clix.Pin
