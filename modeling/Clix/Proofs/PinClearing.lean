import Clix.Proofs.PinSteps

/-! # Clearing a recovery directory

In a recoverable directory every receipt and everything no receipt tells of can be inspected and acted on. Each action
leaves the rest as it is, so that artifacts are cleared one by one, in any order, until nothing but resolved receipts
with their versions is left.
-/

namespace Clix.Pin

open Except

variable {c : Crypto} {host : Host} {s : Store} {ids : Ids} {later : Stats} {draft : Draft} {d d' : Disk} {t : Tree}
  {saved saved' : OrdMap String Artifact} {id fresh token name : String} {r : RecoveryReceipt}
  {view : RecoveryInspection} {x : Clearing} {todo : List String}

/-! ## What can be inspected -/

theorem Recoverable.snapshot (rec : Recoverable c d.tree) (valid : validRecoveryName name = .ok ()) :
    ∃ retained, snapshotInternal c d name = .ok retained :=
  ⟨_, snapshotInternal_eq_ok.mpr ⟨valid, rec.plain name, rfl⟩⟩

/-- Every receipt can be inspected. -/
theorem Recoverable.inspects (rec : Recoverable c d.tree) (has : HasReceipt d.tree.saved id r) :
    ∃ live retained, snapshotDestination c d r = .ok live ∧ snapshotInternal c d r.version = .ok retained ∧
      inspection c d id = .ok (shown c id r live retained) := by
  have written := rec.written has
  obtain ⟨live, destination⟩ := (destination_isOk (c := c) (d := d) written.parsed).mpr (fun some => by
    rcases written.path with ⟨none, -⟩ | anchored
    · exact absurd none some
    · exact anchored.settled (rec.opened id (by rw [has.2]; simp)))
  obtain ⟨retained, version⟩ := rec.snapshot written.version
  refine ⟨live, retained, destination, version, ?_⟩
  rw [inspection_of_parsed (rec.read has) has.1]
  exact inspectReceipt_eq_ok.mpr ⟨live, retained, destination, version, rfl⟩

/-- Data that no receipt tells of can be inspected. -/
theorem Recoverable.inspects_data (rec : Recoverable c d.tree) (data : isReceiptName id = false)
    (present : d.tree.saved.get? id ≠ none) (unowned : ∀ name r, HasReceipt d.tree.saved name r → r.version ≠ id) :
    ∃ version explanation, inspection c d id = .ok (Pin.unrecorded c id version explanation) := by
  obtain ⟨a, there⟩ := Option.ne_none_iff_exists'.mp present
  have valid := rec.named id a there
  obtain ⟨f, isFile, -⟩ := rec.plain id a there
  have each : d.tree.saved.keys.forM (checkUnowned d.tree.saved id) = .ok () := by
    refine List.forM_except_eq_ok.mpr (fun name listed => ?_)
    obtain ⟨b, found⟩ := Option.ne_none_iff_exists'.mp (mem_keys_iff_ne_none.mp listed)
    rw [checkUnowned, rec.named name b found, ok_bind]
    split_ifs with receipt
    · obtain ⟨r, rfl, -⟩ := rec.receipts name b found receipt.2
      rw [rec.read ⟨receipt.2, found⟩]
      exact refuseIf_neg (unowned name r ⟨receipt.2, found⟩)
    · rfl
  have kept : snapshotInternal c d id = .ok (some (snapshotFile c f (d.stats.saved id))) := by
    refine snapshotInternal_eq_ok.mpr ⟨valid, rec.plain id, ?_⟩
    rw [there, Option.bind_some, isFile]
    rfl
  rw [inspection, valid, ok_bind, if_pos data, artifactInspection, each, ok_bind, kept]
  exact ⟨_, _, rfl⟩

/-! ## Discarding -/

/-- A name and its version are gone, and the rest is as it was. -/
def Removed (id version : String) (saved saved' : OrdMap String Artifact) : Prop :=
  ∀ name, saved'.get? name = if name = id ∨ name = version then none else saved.get? name

/-- A discard starts with the token of an inspection, or with the one it was begun with. -/
theorem Recoverable.discardStart (rec : Recoverable c d.tree) (writable : Store.ensureWritable s = .ok ())
    (tree : openTree d.tree.live = .ok ()) (ran : inspection c d id = .ok view) (settled : view.receipt.state ≠ .pending)
    (current : view.token = token ∨ view.receipt.state = .discarding ∧ view.receipt.discardToken = some token) :
    discardStart c s id token d = .ok view := by
  have stale : ¬(view.token ≠ token ∧
      decide (view.receipt.state = .discarding ∧ view.receipt.discardToken = some token) = false) := by
    rintro ⟨differs, none⟩
    exact of_decide_eq_false none (current.resolve_left differs)
  have unchanged : ¬(decide (view.receipt.state = .discarding ∧ view.receipt.discardToken = some token) = true ∧
      view.retained.map (·.fingerprint) ≠ view.receipt.expected ∧ view.retained ≠ none) := by
    rintro ⟨resume, differs, present⟩
    have isDiscarding := (of_decide_eq_true resume).1
    cases recorded : view.recorded with
    | false =>
      obtain ⟨-, -, -, version, explanation, -, rfl⟩ := rec.unrecorded ran recorded
      cases isDiscarding
    | true =>
      obtain ⟨has, live, retained, -, version, same⟩ := rec.recorded ran recorded
      have written := rec.written has
      have kept : view.retained = retained := by rw [same]; rfl
      have now := version_fingerprint version
      rw [kept] at differs present
      cases there : d.tree.saved.get? view.receipt.version with
      | none =>
        rw [there, Option.bind_none, Option.map_none, Option.map_eq_none_iff] at now
        exact present now
      | some a =>
        rw [there, Option.bind_some, (written.begun isDiscarding).2 a there] at now
        exact differs now
  rw [Pin.discardStart, writable, ok_bind, tree, ok_bind, ran, ok_bind]
  dsimp only
  rw [refuseIf_neg stale, ok_bind, refuseIf_neg settled, ok_bind, refuseIf_neg unchanged]
  rfl

/-- A discard that starts takes away what it is about, and nothing else. -/
theorem Recoverable.discards (rec : Recoverable c d.tree) (free : d.tree.saved.get? (draft.tmp ++ ".tmp") = none)
    (new : Unused d.tree.saved fresh) (start : Pin.discardStart c s id token d = .ok view) : ∃ d',
    recoveryDiscard c s draft fresh id token d = (.ok (), d') ∧ d'.tree.live = d.tree.live ∧
      Removed id view.receipt.version d.tree.saved d'.tree.saved := by
  have discarded := rec.discarded start
  unfold recoveryDiscard
  rw [start]
  dsimp only
  have journal : validRecoveryName (if view.recorded = true then id else fresh ++ ".json") = .ok () ∧
      view.receipt.version ≠ (if view.recorded = true then id else fresh ++ ".json") := by
    split_ifs with recorded
    · have has := discarded.receipt recorded
      exact ⟨rec.named id _ has.2, (rec.written has).version_ne has.1⟩
    · rw [Bool.not_eq_true] at recorded
      obtain ⟨same, data⟩ := discarded.artifact recorded
      refine ⟨new.isId.validReceipt, fun equal => ?_⟩
      rw [← same, equal, isReceiptName, endsWith_append] at data
      cases data
  have gone (name : String) : (if name = (if view.recorded = true then id else fresh ++ ".json") ∨
      name = view.receipt.version then none else d.tree.saved.get? name) =
        if name = id ∨ name = view.receipt.version then none else d.tree.saved.get? name := by
    cases recorded : view.recorded with
    | true => rfl
    | false =>
      -- The journal of anything but a receipt is new.
      rw [(discarded.artifact recorded).1]
      simp only [Bool.false_eq_true, if_false, or_self]
      by_cases here : name = id
      · rw [if_pos here, if_pos (.inr here)]
      · by_cases there : name = fresh ++ ".json"
        · rw [if_pos (.inl there), if_neg here, there, new.receipt]
        · rw [if_neg (not_or.mpr ⟨there, here⟩), if_neg here]
  generalize (if view.recorded = true then id else fresh ++ ".json") = journalName at journal gone ⊢
  rw [writeTypedReceipt_eq_ok journal.1 free]
  dsimp only
  have version : snapshotInternal c (d.write journalName (.ofReceipt (discarding view token)) draft.stamp)
      view.receipt.version = .ok view.retained := by
    rw [← discarded.version]
    exact snapshotInternal_congr (Disk.write_of_ne journal.2).1 (Disk.write_of_ne journal.2).2
  have present : (d.write journalName (.ofReceipt (discarding view token)) draft.stamp).tree.saved.get? journalName ≠
      none := by
    rw [Disk.write, OrdMap.get?_insert_self]
    simp
  obtain ⟨d', ran, live, removed⟩ := discardFinish_eq_ok version present journal.2
  refine ⟨d', ran, live, fun name => ?_⟩
  rw [removed, ← gone]
  by_cases here : name = journalName
  · rw [if_pos (.inl here), if_pos (.inl here)]
  · rw [Disk.write, OrdMap.get?_insert_of_ne _ _ here]

/-! ## Clearing one by one -/

/-- What an owner has to act on: a receipt, or data that no receipt tells of. -/
structure Outstanding (saved : OrdMap String Artifact) (id : String) : Prop where
  present : saved.get? id ≠ none
  unowned : isReceiptName id = true ∨ ∀ name r, HasReceipt saved name r → r.version ≠ id

/-- A resolved receipt whose version is as it tells, or the version of a receipt. -/
def InOrder (c : Crypto) (saved : OrdMap String Artifact) (name : String) : Prop :=
  (∃ r, HasReceipt saved name r ∧ r.state = .resolved ∧
    ((saved.get? r.version).bind (·.file?)).map (·.fingerprint c) = r.expected) ∨
  ∃ id r, HasReceipt saved id r ∧ r.version = name

/-- A directory in which only some artifacts are still to be acted on. -/
structure Partly (c : Crypto) (t : Tree) (todo : List String) : Prop where
  recoverable : Recoverable c t
  outstanding : ∀ id ∈ todo, Outstanding t.saved id
  rest : ∀ name, t.saved.get? name ≠ none → name ∈ todo ∨ InOrder c t.saved name

/-- Nothing came into a directory, and no receipt tells of a version that was not told of. -/
structure Shrinks (saved saved' : OrdMap String Artifact) : Prop where
  gone : ∀ name, saved.get? name = none → saved'.get? name = none
  versions : ∀ name text r, saved'.get? name = some (.receipt text r) →
    ∃ text' r', saved.get? name = some (.receipt text' r') ∧ r'.version = r.version

theorem Unused.shrinks (unused : Unused saved id) (shrinks : Shrinks saved saved') : Unused saved' id where
  isId := unused.isId
  data := shrinks.gone _ unused.data
  receipt := shrinks.gone _ unused.receipt
  temporary := shrinks.gone _ unused.temporary
  unnamed name text r found := by
    obtain ⟨text', r', before, same⟩ := shrinks.versions name text r found
    rw [← same]
    exact unused.unnamed name text' r' before

theorem Removed.shrinks {version : String} (removed : Removed id version saved saved') : Shrinks saved saved' where
  gone name absent := by
    rw [removed, absent, ite_self]
  versions name text r found := by
    rw [removed] at found
    split_ifs at found
    exact ⟨text, r, found, rfl⟩

/-- Taking away an artifact with its version leaves the rest to be acted on as it was. -/
theorem Partly.removed {version : String} {u : Tree} (partly : Partly c t todo) {left : List String}
    (live : u.live = t.live) (removed : Removed id version t.saved u.saved)
    (owner : isReceiptName id = false ∧ version = id ∨ ∃ r, HasReceipt t.saved id r ∧ r.version = version)
    (own : ∀ name r, HasReceipt t.saved name r → name ≠ id → r.version ≠ version ∧ r.version ≠ id)
    (done : ∀ name, name ∈ todo → name = id ∨ name ∈ left) (still : ∀ name ∈ left, name ∈ todo ∧ name ≠ id) :
    Partly c u left := by
  have erased : u = { t with saved := (t.saved.erase id).erase version } := by
    obtain ⟨uLive, uSaved⟩ := u
    obtain rfl := live
    congr 1
    refine OrdMap.ext_get? (fun name => ?_)
    rw [removed name, OrdMap.get?_erase, OrdMap.get?_erase]
    split_ifs with gone first second second <;> first | rfl | simp_all
  have kept {name : String} {r : RecoveryReceipt} (has : HasReceipt u.saved name r) :
      HasReceipt t.saved name r ∧ name ≠ id ∧ name ≠ version := by
    obtain ⟨json, found⟩ := has
    rw [removed] at found
    split_ifs at found with gone
    exact ⟨⟨json, found⟩, not_or.mp gone⟩
  refine ⟨?_, fun name member => ?_, fun name present => ?_⟩
  · rw [erased]
    exact (partly.recoverable.erase id).erase version
  · obtain ⟨before, differs⟩ := still name member
    obtain ⟨present, unowned⟩ := partly.outstanding name before
    have apart : name ≠ version := by
      rintro rfl
      rcases owner with ⟨-, same⟩ | ⟨r, has, same⟩
      · exact differs same
      · rcases unowned with json | unowned
        · exact (partly.recoverable.written has).version_ne json same
        · exact unowned id r has same
    refine ⟨?_, unowned.imp_right (fun unowned other r has => unowned other r (kept has).1)⟩
    rwa [removed, if_neg (not_or.mpr ⟨differs, apart⟩)]
  · have there := present
    rw [removed] at there
    split_ifs at there with gone
    · exact absurd rfl there
    · rw [not_or] at gone
      rcases partly.rest name there with member | ⟨r, has, resolved, expected⟩ | ⟨other, r, has, same⟩
      · exact .inl ((done name member).resolve_left gone.1)
      · obtain ⟨apart, apart'⟩ := own name r has gone.1
        refine .inr (.inl ⟨r, ⟨has.1, ?_⟩, resolved, ?_⟩)
        · rw [removed, if_neg (not_or.mpr gone)]
          exact has.2
        · rwa [removed, if_neg (not_or.mpr ⟨apart', apart⟩)]
      · have stays : other ≠ id ∧ other ≠ version := by
          rcases owner with ⟨data, rfl⟩ | ⟨r', has', same'⟩
          · have differs : other ≠ version := by
              rintro rfl
              rw [has.1] at data
              cases data
            exact ⟨differs, differs⟩
          · refine ⟨?_, fun here => (partly.recoverable.written has').version_ne has.1 (same'.trans here.symm)⟩
            rintro rfl
            rw [ofReceipt_inj (Option.some.inj (has.2.symm.trans has'.2))] at same
            exact gone.2 (same.symm.trans same')
        refine .inr (.inr ⟨other, r, ⟨has.1, ?_⟩, same⟩)
        rw [removed, if_neg (not_or.mpr stays)]
        exact has.2

/-- Keeping the live version under a receipt resolves it. -/
theorem Partly.kept {live retained : Option RecoveryVersion} {u : Tree} (partly : Partly c d.tree todo)
    {left : List String} (sameLive : u.live = d.tree.live)
    (saved : u.saved = d.tree.saved.insert id
      (.ofReceipt (Pin.reviewed r (live.map (·.fingerprint)) (retained.map (·.fingerprint)))))
    (has : HasReceipt d.tree.saved id r) (kept : r.state ≠ .discarding)
    (destination : snapshotDestination c d r = .ok live) (version : snapshotInternal c d r.version = .ok retained)
    (done : ∀ name, name ∈ todo → name = id ∨ name ∈ left) (still : ∀ name ∈ left, name ∈ todo ∧ name ≠ id) :
    Partly c u left := by
  have recoverable := partly.recoverable
  have apart {name : String} {r : RecoveryReceipt} (other : HasReceipt d.tree.saved name r) : r.version ≠ id :=
    (recoverable.written other).version_ne has.1
  have reviewed : Written c d.tree
      (Pin.reviewed r (live.map (·.fingerprint)) (retained.map (·.fingerprint))) :=
    (recoverable.written has).reviewed kept (fun v same => snapshotInternal_hash (same ▸ version)) (fun v same => snapshotDestination_hash (same ▸ destination))
  have lookup (name : String) : u.saved.get? name = if name = id then some (.ofReceipt (Pin.reviewed r
      (live.map (·.fingerprint)) (retained.map (·.fingerprint)))) else d.tree.saved.get? name := by
    rw [saved, OrdMap.get?_insert]
  have told {name : String} {r' : RecoveryReceipt} (other : HasReceipt u.saved name r') :
      ∃ r'', HasReceipt d.tree.saved name r'' ∧ r''.version = r'.version := by
    obtain ⟨json, found⟩ := other
    rw [lookup] at found
    split_ifs at found with here
    · refine ⟨r, here ▸ has, ?_⟩
      rw [← ofReceipt_inj (Option.some.inj found)]
      rfl
    · exact ⟨r', ⟨json, found⟩, rfl⟩
  have tree : openTree d.tree.live = .ok () := recoverable.opened id (by rw [has.2]; simp)
  refine ⟨recoverable.insert has.1 (recoverable.named id _ has.2) reviewed ?_ tree sameLive saved,
    fun name member => ?_, fun name present => ?_⟩
  · intro name r' other differs same
    exact differs (recoverable.unique name id r' r other has same)
  · obtain ⟨before, differs⟩ := still name member
    obtain ⟨present, unowned⟩ := partly.outstanding name before
    refine ⟨by rwa [lookup, if_neg differs], unowned.imp_right (fun unowned other r' has' same => ?_)⟩
    obtain ⟨r'', old, version⟩ := told has'
    exact unowned other r'' old (version.trans same)
  · by_cases here : name = id
    · subst here
      refine .inr (.inl ⟨_, ⟨has.1, (lookup name).trans (if_pos rfl)⟩, rfl, ?_⟩)
      change ((u.saved.get? r.version).bind _).map _ = retained.map _
      rw [lookup, if_neg (apart has), version_fingerprint version]
    · rw [lookup, if_neg here] at present
      rcases partly.rest name present with member | ⟨r', other, resolved, expected⟩ | ⟨owner, r', other, same⟩
      · exact .inl ((done name member).resolve_left here)
      · refine .inr (.inl ⟨r', ⟨other.1, ?_⟩, resolved, ?_⟩)
        · rw [lookup, if_neg here]
          exact other.2
        · rwa [lookup, if_neg (apart other)]
      · by_cases own : owner = id
        · subst own
          rw [ofReceipt_inj (Option.some.inj (other.2.symm.trans has.2))] at same
          exact .inr (.inr ⟨owner, _, ⟨has.1, (lookup owner).trans (if_pos rfl)⟩, same⟩)
        · refine .inr (.inr ⟨owner, r', ⟨other.1, ?_⟩, same⟩)
          rw [lookup, if_neg own]
          exact other.2

theorem kept_shrinks {r' : RecoveryReceipt} (has : HasReceipt saved id r) (version : r'.version = r.version) :
    Shrinks saved (saved.insert id (.ofReceipt r')) where
  gone name absent := by
    rw [OrdMap.get?_insert_of_ne _ _ (fun same => by rw [same, has.2] at absent; cases absent), absent]
  versions name text r'' found := by
    rw [OrdMap.get?_insert] at found
    split_ifs at found with here
    · cases found
      exact ⟨_, r, here ▸ has.2, version.symm⟩
    · exact ⟨text, r'', found, rfl⟩

/-- The IDs drawn for clearing an artifact are new in the recovery directory. -/
def Clearing.Drawn (saved : OrdMap String Artifact) (x : Clearing) : Prop :=
  Unused saved x.draft.tmp ∧ Unused saved x.fresh

/-- Whatever is still to be acted on can be, and then the rest is. -/
theorem Partly.clearOne (partly : Partly c d.tree (x.id :: todo)) (once : x.id ∉ todo) (drawn : x.Drawn d.tree.saved)
    (writable : Store.ensureWritable s = .ok ()) : ∃ d', Pin.clearOne c host s ids later x d = (.ok (), d') ∧
      d'.tree.live = d.tree.live ∧ Partly c d'.tree todo ∧ Shrinks d.tree.saved d'.tree.saved := by
  have recoverable := partly.recoverable
  obtain ⟨present, unowned⟩ := partly.outstanding x.id List.mem_cons_self
  have tree := recoverable.opened x.id present
  have done (name : String) (member : name ∈ x.id :: todo) : name = x.id ∨ name ∈ todo := List.mem_cons.mp member
  have still (name : String) (member : name ∈ todo) : name ∈ x.id :: todo ∧ name ≠ x.id :=
    ⟨List.mem_cons_of_mem _ member, fun same => once (same ▸ member)⟩
  cases json : isReceiptName x.id with
  | false =>
    -- Data that no receipt tells of is discarded.
    have unowned := unowned.resolve_left (by rw [json]; simp)
    obtain ⟨version, explanation, ran⟩ := recoverable.inspects_data json present unowned
    have start : discardStart c s x.id (Pin.unrecorded c x.id version explanation).token d =
        .ok (Pin.unrecorded c x.id version explanation) :=
      recoverable.discardStart writable tree ran (by simp [Pin.unrecorded]) (.inl rfl)
    obtain ⟨d', cleared, live, removed⟩ := recoverable.discards drawn.1.temporary drawn.2 start
    refine ⟨d', ?_, live, partly.removed live removed (.inl ⟨json, rfl⟩) (fun name r has _ => ?_) done still,
      removed.shrinks⟩
    · rw [Pin.clearOne, recoveryInspect_eq_ok.mpr ⟨tree, ran⟩]
      dsimp only
      rw [if_neg (by simp [Pin.unrecorded])]
      rw [← cleared, Pin.unrecorded, Option.getD_none, ite_self]
    · exact ⟨unowned name r has, unowned name r has⟩
  | true =>
    obtain ⟨a, there⟩ := Option.ne_none_iff_exists'.mp present
    obtain ⟨r, rfl, written⟩ := recoverable.receipts x.id a there json
    have has : HasReceipt d.tree.saved x.id r := ⟨json, there⟩
    obtain ⟨live, retained, destination, version, ran⟩ := recoverable.inspects has
    by_cases begun : r.state = .discarding
    · -- A discard that was begun is finished.
      have start : discardStart c s x.id (if x.recorded = true then
          r.discardToken.getD (shown c x.id r live retained).token else (shown c x.id r live retained).token) d =
            .ok (shown c x.id r live retained) := by
        refine recoverable.discardStart writable tree ran (by simp [shown, begun]) ?_
        split_ifs
        · obtain ⟨token, recorded⟩ := Option.ne_none_iff_exists'.mp (written.begun begun).1
          rw [recorded, Option.getD_some]
          exact .inr ⟨begun, recorded⟩
        · exact .inl rfl
      obtain ⟨d', cleared, sameLive, removed⟩ := recoverable.discards drawn.1.temporary drawn.2 start
      refine ⟨d', ?_, sameLive, partly.removed sameLive removed (.inr ⟨r, has, rfl⟩) (fun name r' other differs => ?_)
        done still, removed.shrinks⟩
      · rw [Pin.clearOne, recoveryInspect_eq_ok.mpr ⟨tree, ran⟩]
        dsimp only
        rw [if_neg (by simp [shown, begun])]
        exact cleared
      · exact ⟨fun same => differs (recoverable.unique name x.id r' r other has same),
          (recoverable.written other).version_ne json⟩
    · -- The live version is kept under any other receipt.
      have kept : recoveryResolve c host s ids later x.draft x.id (shown c x.id r live retained).token .keepLive d = _ :=
        keepLive_eq json writable tree drawn.1.temporary (recoverable.read has) destination version begun
      generalize left : d.write x.id (.ofReceipt (Pin.reviewed r (live.map (·.fingerprint))
        (retained.map (·.fingerprint)))) x.draft.stamp = d' at kept
      have saved : d'.tree.saved = d.tree.saved.insert x.id (.ofReceipt (Pin.reviewed r
          (live.map (·.fingerprint)) (retained.map (·.fingerprint)))) := by rw [← left]; rfl
      have sameLive : d'.tree.live = d.tree.live := by rw [← left]; rfl
      have next := partly.kept sameLive saved has begun destination version done still
      have shrinks : Shrinks d.tree.saved (d.tree.saved.insert x.id (.ofReceipt (Pin.reviewed r
          (live.map (·.fingerprint)) (retained.map (·.fingerprint))))) := kept_shrinks has rfl
      refine ⟨d', ?_, sameLive, next, saved ▸ shrinks⟩
      have stays : HasReceipt d'.tree.saved x.id (Pin.reviewed r (live.map (·.fingerprint))
          (retained.map (·.fingerprint))) := ⟨json, by rw [saved, OrdMap.get?_insert_self]⟩
      obtain ⟨live', retained', -, -, again⟩ := next.recoverable.inspects stays
      rw [Pin.clearOne, recoveryInspect_eq_ok.mpr ⟨tree, ran⟩]
      dsimp only
      rw [if_pos ⟨rfl, begun⟩]
      rw [kept, again]
      rfl

/-- A receipt that was resolved is discarded with its version. -/
theorem Partly.discardOne (partly : Partly c d.tree []) (has : HasReceipt d.tree.saved x.id r)
    (drawn : x.Drawn d.tree.saved) (writable : Store.ensureWritable s = .ok ()) : ∃ d',
      Pin.discardOne c s x d = (.ok (), d') ∧ d'.tree.live = d.tree.live ∧ Partly c d'.tree [] ∧
        Removed x.id r.version d.tree.saved d'.tree.saved := by
  have recoverable := partly.recoverable
  have resolved : r.state = .resolved := by
    rcases partly.rest x.id (by rw [has.2]; simp) with member | ⟨r', other, resolved, -⟩ | ⟨owner, r', other, same⟩
    · exact absurd member List.not_mem_nil
    · rwa [ofReceipt_inj (Option.some.inj (has.2.symm.trans other.2))]
    · exact absurd same ((recoverable.written other).version_ne has.1)
  obtain ⟨live, retained, destination, version, ran⟩ := recoverable.inspects has
  have tree : openTree d.tree.live = .ok () := recoverable.opened x.id (by rw [has.2]; simp)
  have start : discardStart c s x.id (shown c x.id r live retained).token d = .ok (shown c x.id r live retained) :=
    recoverable.discardStart writable tree ran (by simp [shown, resolved]) (.inl rfl)
  obtain ⟨d', cleared, sameLive, removed⟩ := recoverable.discards drawn.1.temporary drawn.2 start
  refine ⟨d', ?_, sameLive, partly.removed sameLive removed (.inr ⟨r, has, rfl⟩) (fun name r' other differs => ?_)
    (fun name member => absurd member List.not_mem_nil) (fun name member => absurd member List.not_mem_nil), removed⟩
  · rw [Pin.discardOne, recoveryInspect_eq_ok.mpr ⟨tree, ran⟩]
    exact cleared
  · exact ⟨fun same => differs (recoverable.unique name x.id r' r other has same),
      (recoverable.written other).version_ne has.1⟩

/-- One artifact after another. -/
theorem each_done {act : Clearing → Disk → Result Unit × Disk} {P : List Clearing → Disk → Prop} {xs : List Clearing}
    (step : ∀ x rest d, P (x :: rest) d → ∃ d', act x d = (.ok (), d') ∧ P rest d') (start : P xs d) :
    ∃ d', each act xs d = (.ok (), d') ∧ P [] d' := by
  induction xs generalizing d with
  | nil => exact ⟨d, rfl, start⟩
  | cons x rest ih =>
    obtain ⟨middle, first, onward⟩ := step x rest d start
    obtain ⟨d', ran, finished⟩ := ih onward
    refine ⟨d', ?_, finished⟩
    rw [each, first]
    exact ran

end Clix.Pin
