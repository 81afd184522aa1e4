import Clix.Proofs.PinClearing
import Clix.Proofs.PinReceipt

/-! # Finishing an interrupted recovery

After any run of applications, resolutions and discards, each stopped anywhere, the owner can act on whatever the
recovery directory holds, in any order, and is left with a directory that a synchronization accepts. An application
must not make a directory at the path of a receipt, its path must end in a name, and a new file must be one that the
program may read again.
-/

namespace Clix.Pin

open Except

variable {c : Crypto} {host : Host} {s : Store} {ids : Ids} {stats later : Stats} {draft : Draft} {d d' : Disk}
  {t u after : Tree} {saved : OrdMap String Artifact} {id fresh token name : String} {r : RecoveryReceipt}
  {view : RecoveryInspection} {todo : List String} {steps : ℕ} {xs ys : List Clearing} {ch : Change}
  {ignored : List String}

/-! ## What the directory is left as -/

/-- A directory is not over its limits. -/
def WithinLimits (saved : OrdMap String Artifact) : Prop :=
  (saved.entries.map (fun e => e.2.size)).sum ≤ maxRecoveryBytes ∧ saved.size ≤ maxRecoveryEntries

/-- Where nothing is left to be done, a directory is accepted unless it is over its limits. -/
theorem Partly.accepted (partly : Partly c t []) :
    checkRecoveryExcept c t.saved [] = .ok () ↔ WithinLimits t.saved := by
  have recoverable := partly.recoverable
  refine ⟨fun checked => ?_, fun within => checkRecoveryExcept_eq_ok.mpr ?_⟩
  · have reviewed := checkRecoveryExcept_eq_ok.mp checked
    exact ⟨reviewed.bytes, reviewed.entries⟩
  refine ⟨fun name present => ?_, within.1, within.2, fun name present json _ => ?_,
    fun name present data unnamed => ?_⟩
  · obtain ⟨a, there⟩ := Option.ne_none_iff_exists'.mp present
    exact recoverable.named name a there
  · rcases partly.rest name present with member | ⟨r, has, resolved, expected⟩ | ⟨owner, r, has, same⟩
    · exact absurd member List.not_mem_nil
    · have written := recoverable.written has
      have read := recoverable.read has
      rw [readAndParse, bind_eq_ok] at read
      obtain ⟨r', readable, parsed⟩ := read
      obtain rfl := (parseReceipt_eq_ok.mp parsed).1
      have snapshot : internalSnapshot c t.saved r.version = .ok r.expected := by
        rw [internalSnapshot, openInternal_eq_ok.mpr ⟨written.version, recoverable.plain r.version, rfl⟩, ok_bind,
          ← expected]
        rfl
      rw [checkReceipt, readable, ok_bind, refuseIf_neg (by simp [resolved]), ok_bind, parsed, ok_bind, snapshot,
        ok_bind, refuseIf_neg (not_not.mpr rfl)]
    · exact absurd same ((recoverable.written has).version_ne json)
  · rcases partly.rest name present with member | ⟨r, has, -⟩ | ⟨owner, r, has, same⟩
    · exact absurd member List.not_mem_nil
    · rw [has.1] at data
      cases data
    · refine absurd ?_ (unnamed owner (by rw [has.2]; simp) has.1 List.not_mem_nil)
      rw [versionOf, has.2]
      exact congrArg some same

/-- Any receipts may be discarded, and what is left is accepted unless it is over its limits. Nothing is left when all
of them are. -/
def Acceptable (c : Crypto) (s : Store) (d : Disk) : Prop :=
  ∀ ys : List Clearing, (ys.map (·.id)).Nodup →
    (∀ y ∈ ys, (∃ r, HasReceipt d.tree.saved y.id r) ∧ y.Drawn d.tree.saved) →
    ∃ d', each (discardOne c s) ys d = (.ok (), d') ∧ d'.tree.live = d.tree.live ∧
      (∀ name r, HasReceipt d'.tree.saved name r ↔ HasReceipt d.tree.saved name r ∧ name ∉ ys.map (·.id)) ∧
      (checkRecoveryExcept c d'.tree.saved [] = .ok () ↔ WithinLimits d'.tree.saved) ∧
      ((∀ name r, HasReceipt d.tree.saved name r → name ∈ ys.map (·.id)) →
        checkRecoveryExcept c d'.tree.saved [] = .ok ())

/-- A directory without receipts in which nothing is left to be done is empty. -/
theorem Partly.empty (partly : Partly c t []) (none : ∀ name r, ¬HasReceipt t.saved name r) : t.saved = ∅ := by
  refine OrdMap.ext_get? (fun name => ?_)
  by_contra present
  rcases partly.rest name present with member | ⟨r, has, -⟩ | ⟨owner, r, has, -⟩
  · exact List.not_mem_nil member
  · exact none name r has
  · exact none owner r has

/-- Of the receipts on a list, those on the rest of it are still to be discarded. -/
structure Dropping (c : Crypto) (d : Disk) (ys rest : List Clearing) (u : Disk) : Prop where
  partly : Partly c u.tree []
  live : u.tree.live = d.tree.live
  nodup : (rest.map (·.id)).Nodup
  drawn : ∀ y ∈ rest, y ∈ ys ∧ y.Drawn u.tree.saved
  receipts : ∀ name r, HasReceipt u.tree.saved name r ↔
    HasReceipt d.tree.saved name r ∧ (name ∈ ys.map (·.id) → name ∈ rest.map (·.id))

theorem Dropping.step {y : Clearing} {rest : List Clearing} {u : Disk} (dropping : Dropping c d ys (y :: rest) u)
    (there : ∀ y ∈ ys, ∃ r, HasReceipt d.tree.saved y.id r) (writable : Store.ensureWritable s = .ok ()) :
    ∃ u', discardOne c s y u = (.ok (), u') ∧ Dropping c d ys rest u' := by
  obtain ⟨partly, live, nodup, drawn, receipts⟩ := dropping
  rw [List.map_cons, List.nodup_cons] at nodup
  obtain ⟨⟨listed, drawnNow⟩, others⟩ := List.forall_mem_cons.mp drawn
  obtain ⟨r, has⟩ := there y listed
  have hasNow : HasReceipt u.tree.saved y.id r := (receipts y.id r).mpr ⟨has, fun _ => List.mem_cons_self⟩
  obtain ⟨u', ran, sameLive, next, removed⟩ := partly.discardOne hasNow drawnNow writable
  have gone (name : String) (r' : RecoveryReceipt) :
      HasReceipt u'.tree.saved name r' ↔ HasReceipt u.tree.saved name r' ∧ name ≠ y.id := by
    constructor
    · rintro ⟨json, found⟩
      rw [removed] at found
      split_ifs at found with here
      exact ⟨⟨json, found⟩, fun same => here (.inl same)⟩
    · rintro ⟨⟨json, found⟩, differs⟩
      refine ⟨json, ?_⟩
      rw [removed, if_neg (not_or.mpr ⟨differs, fun same => ?_⟩), found]
      exact (partly.recoverable.written hasNow).version_ne json same.symm
  refine ⟨u', ran, next, sameLive.trans live, nodup.2, fun z member => ?_, fun name r' => ?_⟩
  · obtain ⟨member, first, second⟩ := others z member
    exact ⟨member, first.shrinks removed.shrinks, second.shrinks removed.shrinks⟩
  · rw [gone, receipts, List.map_cons, List.mem_cons]
    constructor
    · rintro ⟨⟨before, left⟩, differs⟩
      exact ⟨before, fun member => (left member).resolve_left differs⟩
    · rintro ⟨before, left⟩
      refine ⟨⟨before, fun member => .inr (left member)⟩, ?_⟩
      rintro rfl
      exact nodup.1 (left (List.mem_map_of_mem listed))

/-- Where nothing is left to be done, the directory is acceptable. -/
theorem Partly.acceptable (partly : Partly c d.tree []) (writable : Store.ensureWritable s = .ok ()) :
    Acceptable c s d := by
  intro ys nodup drawn
  obtain ⟨d', ran, finished, live, -, -, receipts⟩ := each_done (P := Dropping c d ys)
    (fun y rest u dropping => dropping.step (fun y member => (drawn y member).1) writable)
    ⟨partly, rfl, nodup, fun y member => ⟨member, (drawn y member).2⟩, fun name r => ⟨fun has => ⟨has, id⟩, And.left⟩⟩
  have left (name : String) (r : RecoveryReceipt) : HasReceipt d'.tree.saved name r ↔
      HasReceipt d.tree.saved name r ∧ name ∉ ys.map (·.id) := by
    rw [receipts, List.map_nil]
    simp only [List.not_mem_nil, imp_false]
  refine ⟨d', ran, live, left, finished.accepted, fun all => finished.accepted.mpr ?_⟩
  rw [finished.empty (fun name r has => ((left name r).mp has).2 (all name r ((left name r).mp has).1))]
  exact ⟨Nat.zero_le _, Nat.zero_le _⟩

/-- The artifacts on the rest of a list are still to be acted on. -/
structure Acting (c : Crypto) (live : Live) (rest : List Clearing) (u : Disk) : Prop where
  partly : Partly c u.tree (rest.map (·.id))
  live : u.tree.live = live
  nodup : (rest.map (·.id)).Nodup
  drawn : ∀ x ∈ rest, x.Drawn u.tree.saved

theorem Acting.step {x : Clearing} {rest : List Clearing} {u : Disk} {live : Live}
    (acting : Acting c live (x :: rest) u) (writable : Store.ensureWritable s = .ok ()) :
    ∃ u', clearOne c host s ids later x u = (.ok (), u') ∧ Acting c live rest u' := by
  obtain ⟨partly, sameLive, nodup, drawn⟩ := acting
  rw [List.map_cons, List.nodup_cons] at nodup
  obtain ⟨drawnNow, others⟩ := List.forall_mem_cons.mp drawn
  obtain ⟨u', ran, kept, next, shrinks⟩ := partly.clearOne nodup.1 drawnNow writable
  refine ⟨u', ran, next, kept.trans sameLive, nodup.2, fun y member => ?_⟩
  exact ⟨(others y member).1.shrinks shrinks, (others y member).2.shrinks shrinks⟩

/-- The owner acts on everything there is to act on, in any order, and then the directory is acceptable. -/
theorem Recoverable.acts (recoverable : Recoverable c t) (writable : Store.ensureWritable s = .ok ())
    (nodup : (xs.map (·.id)).Nodup) (all : ∀ id, id ∈ xs.map (·.id) ↔ Outstanding t.saved id)
    (drawn : ∀ x ∈ xs, x.Drawn t.saved) : ∃ d, each (clearOne c host s ids later) xs ⟨t, stats⟩ = (.ok (), d) ∧
      d.tree.live = t.live ∧ Acceptable c s d := by
  have partly : Partly c t (xs.map (·.id)) := by
    refine ⟨recoverable, fun id member => (all id).mp member, fun name present => ?_⟩
    by_cases owned : ∃ id r, HasReceipt t.saved id r ∧ r.version = name
    · exact .inr (.inr owned)
    · refine .inl ((all name).mpr ⟨present, .inr (fun id r has same => owned ⟨id, r, has, same⟩)⟩)
  have start : Acting c t.live xs ⟨t, stats⟩ := ⟨partly, rfl, nodup, drawn⟩
  have step (x : Clearing) (rest : List Clearing) (u : Disk) (acting : Acting c t.live (x :: rest) u) :
      ∃ u', clearOne c host s ids later x u = (.ok (), u') ∧ Acting c t.live rest u' := acting.step writable
  obtain ⟨d, ran, next, live, -⟩ := each_done step start
  exact ⟨d, ran, live, Partly.acceptable next writable⟩

/-! ## What a discard takes away -/

/-- A discard touches nothing but what its token selects: an artifact, with the version its receipt tells of. -/
inductive Takes (c : Crypto) (stats : Stats) (id token : String) (t u : Tree) (done : Prop) : Prop
  | refused (same : u = t) (unfinished : ¬done)
  | started (view : RecoveryInspection) (seen : recoveryInspect c ⟨t, stats⟩ id = .ok view)
      (selected : view.token = token ∨ view.receipt.state = .discarding ∧ view.receipt.discardToken = some token)
      (live : u.live = t.live)
      (others : ∀ name, t.saved.get? name ≠ none → name ≠ id → name ≠ view.receipt.version →
        u.saved.get? name = t.saved.get? name)
      (finished : done → Removed id view.receipt.version t.saved u.saved)

theorem Recoverable.takes {outcome : Option (Result Unit)} (recoverable : Recoverable c t)
    (drawn : Unused t.saved draft.tmp) (new : Unused t.saved fresh)
    (ran : discardSteps c s stats draft fresh id token steps t = (outcome, u)) :
    Takes c stats id token t u (outcome = some (.ok ())) := by
  rcases discardSteps_cases ran with ⟨rfl, unfinished⟩ | ⟨view, start, -, way⟩
  · exact .refused rfl unfinished
  have discarded := Recoverable.discarded (d := ⟨t, stats⟩) recoverable start
  obtain ⟨tree, seen, selected⟩ := discardStart_eq_ok start
  have seen := recoveryInspect_eq_ok.mpr ⟨tree, seen⟩
  -- The journal is the receipt itself, or it is new.
  have journal : (if view.recorded = true then id else fresh ++ ".json") = id ∨
      t.saved.get? (if view.recorded = true then id else fresh ++ ".json") = none ∧ view.receipt.version = id := by
    split_ifs with recorded
    · exact .inl rfl
    · exact .inr ⟨new.receipt, (discarded.artifact (by simpa using recorded)).1⟩
  generalize (if view.recorded = true then id else fresh ++ ".json") = j at way journal
  have written {stopped : Option (Result Unit)} {middle : Tree}
      (performed : perform (writeReceipt draft.tmp j (discarding view token)) steps t = (stopped, middle)) :
      middle.live = t.live ∧ ∀ name, t.saved.get? name ≠ none → name ≠ id →
        middle.saved.get? name = t.saved.get? name := by
    refine ⟨perform_inv (P := fun u => u.live = t.live)
      (fun op member _ _ same done => (writeReceipt_live op member _ _ done).trans same) rfl performed,
      fun name present differs => ?_⟩
    have apart : name ≠ j := by
      rintro rfl
      rcases journal with same | ⟨absent, -⟩
      · exact differs same
      · exact present absent
    rcases perform_writeReceipt performed with ⟨-, same⟩ | ⟨-, absent, saved⟩
    · refine same name ?_
      rintro rfl
      exact present drawn.temporary
    · rw [saved, get?_noted absent, if_neg apart]
  rcases way with ⟨stopped, unfinished, performed⟩ | ⟨middle, remaining, stats', performed, finished⟩
  · obtain ⟨live, others⟩ := written performed
    exact .started view seen selected live (fun name present differs _ => others name present differs)
      (fun done => absurd done unfinished)
  · obtain ⟨live, others⟩ := written performed
    rcases removeSteps_cases finished with ⟨rfl, unfinished⟩ | ⟨version, removed⟩
    · exact .started view seen selected live (fun name present differs _ => others name present differs)
        (fun done => absurd done unfinished)
    · obtain ⟨sameLive, left, gone⟩ := perform_unlinks removed
      have lookup (name : String) (differs : name ≠ j) : middle.saved.get? name = t.saved.get? name := by
        rcases perform_writeReceipt performed with ⟨unfinished, -⟩ | ⟨-, absent, saved⟩
        · exact absurd rfl unfinished
        · rw [saved, get?_noted absent, if_neg differs]
      have kept (name : String) (differs : name ≠ j) (apart : name ≠ view.receipt.version) :
          u.saved.get? name = t.saved.get? name := by
        rcases left name with same | ⟨member, -⟩
        · rw [same, lookup name differs]
        · rcases List.mem_append.mp member with data | last
          · split_ifs at data with none
            · exact absurd data List.not_mem_nil
            · exact absurd (List.mem_singleton.mp data) apart
          · exact absurd (List.mem_singleton.mp last) differs
      refine .started view seen selected (sameLive.trans live) (fun name present differs apart => ?_)
        (fun done name => ?_)
      · refine kept name ?_ apart
        rintro rfl
        exact journal.elim differs (fun fresh => present fresh.1)
      · have noVersion : u.saved.get? view.receipt.version = none := by
          by_cases none : view.retained = none
          · rw [none] at version
            rcases left view.receipt.version with same | ⟨-, gone⟩
            · rw [same, snapshotInternal_none version]
            · exact gone
          · exact gone done _ (List.mem_append_left _ (by rw [if_neg none]; exact List.mem_singleton_self _))
        have noJournal : u.saved.get? j = none := gone done _ (List.mem_append_right _ (List.mem_singleton_self _))
        by_cases here : name = view.receipt.version
        · rw [if_pos (.inr here), here, noVersion]
        · by_cases there : name = j
          · rw [there, noJournal]
            split_ifs with same
            · rfl
            · rw [not_or] at same
              rcases journal with same' | ⟨absent, -⟩
              · exact absurd same' same.1
              · rw [absent]
          · rw [kept name there here]
            split_ifs with same
            · rcases journal with same' | ⟨-, same'⟩
              · exact absurd (same.resolve_right here) (same' ▸ there)
              · exact absurd ((same.resolve_right here).trans same'.symm) here
            · rfl

/-! ## What a restoration leaves -/

/-- What was displaced is kept under a receipt of its own once a change is settled. -/
theorem settle_finished {fp : Fingerprint} (replaces : ch.expected = some fp)
    (ran : perform (settleOps c ids ch ignored) steps t = (some (.ok ()), u)) (name : String) :
    u.saved.get? name = if name = ids.receiptName then some (.ofReceipt (receiptOf ids ch ignored .retained))
      else t.saved.get? name := by
  unfold settleOps at ran
  rw [replaces] at ran
  dsimp only at ran
  rcases perform_cons ran with ⟨-, unfinished⟩ | ⟨next, n, checked, noting⟩
  · exact absurd rfl unfinished
  · obtain ⟨rfl, -⟩ := verify_eq_ok checked
    rcases perform_writeReceipt noting with ⟨unfinished, -⟩ | ⟨-, absent, saved⟩
    · exact absurd rfl unfinished
    · rw [saved, get?_noted absent]

/-- A change that went through leaves its content live, and what it displaced under its receipt. -/
theorem finished_of_perform {content : Bytes} {bytes : Option Bytes} {current : Option File}
    (fresh : ids.Fresh t.saved ignored) (admitted : Admitted c host s t ch bytes ignored current)
    (expected : current.map (·.fingerprint c) = ch.expected) (wanted : ch.expected ≠ ch.new)
    (ran : perform (journalOps ids ch content ignored ++ publishOp ids ch :: settleOps c ids ch ignored) steps t =
      (some (.ok ()), u)) : u.live.file? (place ch.path) = newFile ch content ∧
        (∀ path ≠ place ch.path, u.live.file? path = t.live.file? path) ∧
        ∀ old, current = some old → u.saved.get? ids.version = some (.file old) ∧
          u.saved.get? ids.receiptName = some (.ofReceipt (receiptOf ids ch ignored .retained)) := by
  rcases perform_change ran with ⟨stopped, -, unfinished⟩ | ⟨middle, published, n, ready, effect, settled⟩
  · exact absurd rfl unfinished
  have effect := published_of_ready admitted.readable wanted ready effect
  have pending := pending_of_published fresh (journalOps_saved_alone ready) effect.saved
  have live := perform_settle_live settled
  have grows := perform_journal_grows ready
  refine ⟨?_, fun path differs => ?_, fun old there => ?_⟩
  · rw [live, Live.file?, effect.live.nodes, if_pos rfl]
    cases newFile ch content <;> rfl
  · rw [live, effect.live.file?_of_ne differs, grows.file?]
  · have replaces : ch.expected = some (old.fingerprint c) := by rw [← expected, there]; rfl
    have distinct : ids.version ≠ ids.receiptName := fresh.version.ne_append (by decide)
    rw [settle_finished replaces settled, settle_finished replaces settled, if_neg distinct, if_pos rfl,
      pending.version, there]
    exact ⟨rfl, rfl⟩

/-- After a restoration the retained content is live, no other live file changed, and what was displaced is kept under
a receipt of its own. -/
structure Restored (c : Crypto) (ids : Ids) (id : String) (r : RecoveryReceipt) (f : File) (t u : Tree) : Prop where
  live : ∃ g, u.live.file? (place r.path) = some g ∧ g.bytes = f.bytes ∧ permissions g.mode = permissions f.mode
  others : ∀ path ≠ place r.path, u.live.file? path = t.live.file? path
  displaced : ∀ old, t.live.file? (place r.path) = some old → u.live.file? (place r.path) = some old ∨
    u.saved.get? ids.version = some (.file old) ∧ HasReceipt u.saved ids.receiptName
      ⟨r.path, some (old.fingerprint c), some (f.fingerprint c), ids.version, .retained, some id, none⟩

/-- What is live does not collide with the retained content. -/
def Distinct (c : Crypto) (t : Tree) (path : String) (f : File) : Prop :=
  ∀ g, t.live.file? (place path) = some g → c.hash g.bytes = c.hash f.bytes → g.bytes = f.bytes

/-- A restoration that returned its receipt checked it, wrote, and then resolved the receipt. -/
theorem restoreRetained_done
    (ran : recoveryResolve c host s ids later draft id token .restoreRetained ⟨t, stats⟩ = (.ok view, d')) :
    ∃ before ops middle r, resolveStart c s id token ⟨t, stats⟩ = .ok before ∧
      restorationOps c host s ids id token before ⟨t, stats⟩ = .ok ops ∧ performAll ops t = (.ok (), middle) ∧
      d'.tree = { middle with saved := middle.saved.insert id (.ofReceipt r) } := by
  unfold recoveryResolve at ran
  cases start : resolveStart c s id token ⟨t, stats⟩ with
  | error e =>
    rw [start] at ran
    cases ran
  | ok before =>
    rw [start] at ran
    dsimp only at ran
    rw [restoreRetained_eq] at ran
    cases planned : restorationOps c host s ids id token before ⟨t, stats⟩ with
    | error e =>
      rw [planned] at ran
      cases ran
    | ok ops =>
      rw [planned] at ran
      dsimp only at ran
      cases performed : performAll ops t with
      | mk result middle =>
        rw [performed] at ran
        cases result with
        | error e => cases ran
        | ok done =>
          dsimp only at ran
          rw [resolveFinish_eq] at ran
          cases resolved : resolvedReceipt c id .restoreRetained before ⟨middle, if ops = [] then stats else later⟩ with
          | error e =>
            rw [resolved] at ran
            cases ran
          | ok r =>
            rw [resolved, ok_bind, writeTypedReceipt] at ran
            cases valid : validRecoveryName id with
            | error e =>
              rw [valid] at ran
              cases ran
            | ok u =>
              rw [valid, ok_bind] at ran
              dsimp only at ran
              cases absent : middle.saved.get? (draft.tmp ++ ".tmp") with
              | some a =>
                rw [absent] at ran
                cases ran
              | none =>
                rw [absent] at ran
                exact ⟨before, ops, middle, r, rfl, planned, performed,
                  congrArg (fun result => result.2.tree) ran.symm⟩

theorem Recoverable.restores (recoverable : Recoverable c t) (unused : ids.Unused t.saved)
    (ran : recoveryResolve c host s ids later draft id token .restoreRetained ⟨t, stats⟩ = (.ok view, d')) :
    ∃ r f, HasReceipt t.saved id r ∧ (t.saved.get? r.version).bind (·.file?) = some f ∧
      (Distinct c t r.path f → Restored c ids id r f t d'.tree) := by
  obtain ⟨before, ops, middle, r, start, planned, performed, left⟩ := restoreRetained_done ran
  obtain ⟨-, seen, recorded, -, -⟩ := resolveStart_eq_ok start
  obtain ⟨has, live, retained, -, version, same⟩ := recoverable.recorded (d := ⟨t, stats⟩) seen recorded
  have written := recoverable.written has
  obtain ⟨source, f, isSource, opened, -, -, due, checked, rfl⟩ := restorationOps_eq_ok planned
  have opened := (openInternal_eq_ok.mp opened).2.2.symm
  refine ⟨before.receipt, f, has, opened, fun distinct => ?_⟩
  have print : source.fingerprint = f.fingerprint c := by
    have now := version_fingerprint (d := ⟨t, stats⟩) version
    have kept : before.retained = retained := by rw [same]; rfl
    rw [← kept, isSource, opened] at now
    exact Option.some.inj now
  have listed : ∀ other ∈ [id], t.saved.get? other ≠ none := by
    intro other member
    rw [List.mem_singleton.mp member, has.2]
    simp
  have fresh : ids.Fresh t.saved [id] := unused.fresh listed
  have apart : ids.version ≠ id ∧ ids.receiptName ≠ id := by
    refine ⟨fun here => ?_, fun here => ?_⟩
    · exact fresh.unignored.1 (here ▸ List.mem_singleton_self _)
    · exact fresh.unignored.2 (here ▸ List.mem_singleton_self _)
  obtain ⟨current, admitted, ⟨rfl, already⟩ | ⟨rfl, differs, expected, -, -⟩⟩ := applyChecks_eq_ok.mp checked
  · -- The retained content is live already.
    cases performed
    rw [left]
    rw [restoring, place_of_admitted admitted, print] at already
    obtain ⟨g, there, equal⟩ := Option.map_eq_some_iff.mp already
    refine ⟨⟨g, there, distinct g there (congrArg Fingerprint.hash equal), congrArg Fingerprint.mode equal⟩,
      fun _ _ => rfl, fun old found => .inl found⟩
  · obtain ⟨now, others, displaced⟩ := finished_of_perform fresh admitted expected
      (fun same => differs (expected.trans same)) (perform_performAll performed)
    have content := newFile_fingerprint (c := c) admitted.content
    rw [Option.getD_some] at content
    rw [left]
    refine ⟨?_, others, fun old found => .inr ?_⟩
    · refine ⟨⟨f.bytes, source.fingerprint.mode⟩, now, rfl, ?_⟩
      have equal : File.fingerprint c ⟨f.bytes, source.fingerprint.mode⟩ = source.fingerprint := Option.some.inj content
      exact (congrArg Fingerprint.mode equal).trans (congrArg Fingerprint.mode print)
    · have current_eq : current = some old := (place_of_admitted admitted).trans found
      obtain ⟨data, receipt⟩ := displaced old current_eq
      have was : before.live.map (·.fingerprint) = some (old.fingerprint c) :=
        expected.symm.trans (congrArg (Option.map (·.fingerprint c)) current_eq)
      dsimp only
      rw [OrdMap.get?_insert_of_ne _ _ apart.1]
      refine ⟨data, ids.receiptName_isReceiptName, ?_⟩
      rw [OrdMap.get?_insert_of_ne _ _ apart.2, receipt, receiptOf, restoring, was, print]
      rfl

/-! ## After every run -/

/-- What the owner can rely on when a recovery was interrupted: every receipt is read back from its text, everything
can be acted on in any order, a discard takes away what its token selects, and a restoration loses nothing. -/
structure Finishable (c : Crypto) (t : Tree) : Prop where
  reads : ∀ name a, t.saved.get? name = some a → isReceiptName name = true → ∃ r, a = .ofReceipt r ∧
    RecoveryReceipt.fromText (Json.toVec r) = some r ∧ readAndParse t.saved name = .ok r
  clears : ∀ (host : Host) (s : Store) (ids : Ids) (stats later : Stats) (xs : List Clearing),
    Store.ensureWritable s = .ok () → (xs.map (·.id)).Nodup → (∀ id, id ∈ xs.map (·.id) ↔ Outstanding t.saved id) →
    (∀ x ∈ xs, x.Drawn t.saved) → ∃ d, each (clearOne c host s ids later) xs ⟨t, stats⟩ = (.ok (), d) ∧
      d.tree.live = t.live ∧ Acceptable c s d
  takes : ∀ (s : Store) (stats : Stats) (draft : Draft) (fresh id token : String) (steps : ℕ)
    (outcome : Option (Result Unit)) (u : Tree), Unused t.saved draft.tmp → Unused t.saved fresh →
    discardSteps c s stats draft fresh id token steps t = (outcome, u) →
    Takes c stats id token t u (outcome = some (.ok ()))
  restores : ∀ (host : Host) (s : Store) (ids : Ids) (stats later : Stats) (draft : Draft) (id token : String)
    (view : RecoveryInspection) (d : Disk), ids.Unused t.saved →
    recoveryResolve c host s ids later draft id token .restoreRetained ⟨t, stats⟩ = (.ok view, d) →
    ∃ r f, HasReceipt t.saved id r ∧ (t.saved.get? r.version).bind (·.file?) = some f ∧
      (Distinct c t r.path f → Restored c ids id r f t d.tree)

theorem Recoverable.finishable (recoverable : Recoverable c t) : Finishable c t where
  reads name a there json := by
    obtain ⟨r, rfl, -⟩ := recoverable.receipts name a there json
    exact ⟨r, rfl, fromText_toVec r, recoverable.read ⟨json, there⟩⟩
  clears _ _ _ _ _ _ writable nodup all drawn := recoverable.acts writable nodup all drawn
  takes _ _ _ _ _ _ _ _ _ drawn new ran := recoverable.takes drawn new ran
  restores _ _ _ _ _ _ _ _ _ _ unused ran := recoverable.restores unused ran

/-- Wherever the actions of a run stop, its recovery can be finished, as long as no application makes a directory at
the path of a receipt, installs a file that cannot be read, or has a path that does not end in a name. -/
theorem run_finishable (c : Crypto) (live : Live) (attempts : List Attempt)
    (drawn : Along c (fun t a => a.action.Drawn t.saved) attempts ⟨live, ∅⟩)
    (spares : Along c (Attempt.Spares c) attempts ⟨live, ∅⟩) : Finishable c (runAttempts c attempts ⟨live, ∅⟩) :=
  ((recoverable_empty live).run drawn spares).finishable

/-- What cannot be inspected cannot be acted on. -/
theorem clearOne_of_error {x : Clearing} (failed : ∀ view, inspection c d x.id ≠ .ok view) :
    ∃ e, clearOne c host s ids later x d = (.error e, d) := by
  unfold clearOne
  cases seen : recoveryInspect c d x.id with
  | ok view => exact absurd (recoveryInspect_eq_ok.mp seen).2 (failed view)
  | error e => exact ⟨e, rfl⟩

/-! ## Tests of what is drawn -/

instance (id : String) : Decidable (IsId id) := inferInstanceAs (Decidable (_ ∧ _))

instance (saved : OrdMap String Artifact) (id : String) : Decidable (Unused saved id) :=
  decidable_of_iff (IsId id ∧ saved.get? id = none ∧ saved.get? (id ++ ".json") = none ∧
      saved.get? (id ++ ".tmp") = none ∧
      ∀ e ∈ saved.entries, ∀ r ∈ e.2.value?, r.version ≠ id ∧ r.version ≠ id ++ ".tmp")
    ⟨fun h => ⟨h.1, h.2.1, h.2.2.1, h.2.2.2.1, fun name text r found =>
        h.2.2.2.2 (name, .receipt text r) (OrdMap.get?_eq_some_iff.mp found) r rfl⟩,
      fun unused => ⟨unused.isId, unused.data, unused.receipt, unused.temporary, fun e listed r told => by
        obtain ⟨name, a⟩ := e
        cases a with
        | receipt text r' =>
          cases told
          exact unused.unnamed name text r (OrdMap.get?_eq_some_iff.mpr listed)
        | file f => cases told
        | other size content => cases told⟩⟩

instance (ids : Ids) (saved : OrdMap String Artifact) : Decidable (ids.Unused saved) :=
  decidable_of_iff (Unused saved ids.version ∧ Unused saved ids.first ∧ Unused saved ids.second)
    ⟨fun h => ⟨h.1, h.2.1, h.2.2⟩, fun unused => ⟨unused.version, unused.first, unused.second⟩⟩

namespace FinishExample

set_option maxRecDepth 40000

def old : File := ⟨[104], 0o644⟩

def new : File := ⟨[105], 0o644⟩

theorem fits_file : Live.empty.Fits [] "a" := by decide

/-- A tree with one file. -/
def files : Live := Live.empty.put [] "a" (.file old) fits_file

def machine : Host := ⟨["home", "alice", "src"], fun _ _ => none, fun binary => .ok (place binary), true⟩

def owner : Store := Store.first Crypto.transparent "epoch" "alice" (List.replicate 32 1)

def deletion : Change := ⟨"a", some (old.fingerprint Crypto.transparent), none, false⟩

/-- The file is deleted, up to a stop. -/
def delete (steps : ℕ) : Attempt := ⟨machine, owner, .apply deletion none ⟨"v1", "t1", "u1"⟩, steps⟩

/-- A file is created in a directory of the same name. -/
def create : Attempt where
  host := machine
  store := owner
  action := .apply ⟨"a/b", none, some (new.fingerprint Crypto.transparent), false⟩ (some new.bytes) ⟨"v2", "t2", "u2"⟩
  steps := 20

theorem delete_drawn : Ids.Unused ⟨"v1", "t1", "u1"⟩ ∅ := by decide

/-- After the publication was interrupted the file is kept under a receipt, and the recovery can be finished. -/
theorem deletion_finishable : Finishable Crypto.transparent (runAttempts Crypto.transparent [delete 4] ⟨files, ∅⟩) :=
  run_finishable Crypto.transparent files [delete 4] ⟨delete_drawn, trivial⟩
    ⟨fun _ => ⟨by decide, fun _ isNew => absurd isNew (by simp [deletion]), fun _ _ has => by cases has.2⟩, trivial⟩

/-- The tree in which a directory took the place of the deleted file. -/
def overgrown : Tree := runAttempts Crypto.transparent [delete 20, create] ⟨files, ∅⟩

def receipt : RecoveryReceipt :=
  ⟨"a", some (old.fingerprint Crypto.transparent), none, "v1", .retained, none, none⟩

theorem overgrown_saved : overgrown.saved.entries = [("v1", .file old), ("v1.json", .ofReceipt receipt)] := by
  decide

theorem create_drawn : Ids.Unused ⟨"v2", "t2", "u2"⟩ ((delete 20).run Crypto.transparent ⟨files, ∅⟩).saved := by
  decide

def metadata : Stats := ⟨fun _ => ⟨1, 2, 3, 4, 5, 6⟩, fun _ => ⟨1, 3, 3, 4, 5, 6⟩⟩

def clearing : Clearing := ⟨"v1.json", ⟨"t3", ⟨1, 4, 3, 4, 5, 6⟩⟩, "w3", false⟩

theorem clearing_drawn : Unused overgrown.saved "t3" ∧ Unused overgrown.saved "w3" := by decide

theorem overgrown_receipt : HasReceipt overgrown.saved "v1.json" receipt := by
  refine ⟨by decide, OrdMap.get?_eq_some_iff.mpr ?_⟩
  rw [overgrown_saved]
  exact List.mem_cons_of_mem _ List.mem_cons_self

/-- The receipt is all there is to act on. -/
theorem overgrown_outstanding (id : String) : id ∈ [clearing].map (·.id) ↔ Outstanding overgrown.saved id := by
  rw [List.map_singleton, List.mem_singleton]
  constructor
  · rintro rfl
    exact ⟨by rw [show clearing.id = "v1.json" from rfl, overgrown_receipt.2]; simp, .inl (by decide)⟩
  · rintro ⟨present, unowned⟩
    obtain ⟨a, there⟩ := Option.ne_none_iff_exists'.mp present
    have listed := OrdMap.get?_eq_some_iff.mp there
    rw [overgrown_saved, List.mem_cons, List.mem_singleton, Prod.mk.injEq, Prod.mk.injEq] at listed
    rcases listed with ⟨rfl, -⟩ | ⟨rfl, -⟩
    · rcases unowned with json | unowned
      · exact absurd json (by decide)
      · exact absurd rfl (unowned _ _ overgrown_receipt)
    · rfl

theorem overgrown_uninspected : (inspection Crypto.transparent ⟨overgrown, metadata⟩ "v1.json").isOk = false := by
  decide

/-- Without the condition on applications, the receipt of the deleted file can be neither resolved nor discarded. -/
theorem overgrown_stuck : ¬∀ (live : Live) (attempts : List Attempt),
    Along Crypto.transparent (fun t a => a.action.Drawn t.saved) attempts ⟨live, ∅⟩ →
      Finishable Crypto.transparent (runAttempts Crypto.transparent attempts ⟨live, ∅⟩) := by
  intro always
  have finishable : Finishable Crypto.transparent overgrown :=
    always files [delete 20, create] ⟨delete_drawn, create_drawn, trivial⟩
  obtain ⟨d, ran, -⟩ := finishable.clears machine owner ⟨"v4", "t4", "u4"⟩ metadata metadata [clearing] rfl
    (List.nodup_singleton _) overgrown_outstanding (List.forall_mem_singleton.mpr clearing_drawn)
  have uninspected (view : RecoveryInspection) : inspection Crypto.transparent ⟨overgrown, metadata⟩ "v1.json" ≠
      .ok view := by
    intro seen
    have failed := overgrown_uninspected
    rw [seen] at failed
    cases failed
  obtain ⟨e, failed⟩ := clearOne_of_error (x := clearing) uninspected
  rw [each, failed] at ran
  cases ran

end FinishExample

end Clix.Pin
