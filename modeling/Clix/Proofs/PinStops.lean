import Clix.Proofs.PinRecoverable

/-! # What a stop leaves of an application

An application stops before its receipt is there, or leaves it with its path under a directory. Other receipts and
their versions stay, and no directory is made at the path of one.
-/

namespace Clix.Pin

open Except

variable {c : Crypto} {host : Host} {s : Store} {ids : Ids} {t u : Tree} {live live' : Live} {name : String}
  {r : RecoveryReceipt} {steps : ℕ} {outcome : Option (Result Unit)} {ch : Change} {ignored : List String}
  {content : Bytes} {bytes : Option Bytes} {current : Option File} {path : List String} {rel id : String}

/-! ## IDs that are drawn -/

/-- A random ID is new in the recovery directory: nothing is named after it, and no receipt tells of it. -/
structure Unused (saved : OrdMap String Artifact) (id : String) : Prop where
  isId : IsId id
  data : saved.get? id = none
  receipt : saved.get? (id ++ ".json") = none
  temporary : saved.get? (id ++ ".tmp") = none
  unnamed : ∀ name text r, saved.get? name = some (.receipt text r) → r.version ≠ id ∧ r.version ≠ id ++ ".tmp"

structure Ids.Unused (ids : Ids) (saved : OrdMap String Artifact) : Prop where
  version : Pin.Unused saved ids.version
  first : Pin.Unused saved ids.first
  second : Pin.Unused saved ids.second

theorem Ids.Unused.fresh (unused : ids.Unused t.saved) (listed : ∀ id ∈ ignored, t.saved.get? id ≠ none) :
    ids.Fresh t.saved ignored where
  version := unused.version.isId
  noVersion := unused.version.data
  noReceipt := unused.version.receipt
  noTemporary := unused.first.temporary
  unnamed name text r found := (unused.version.unnamed name text r found).1
  unignored := ⟨fun member => listed _ member unused.version.data, fun member => listed _ member unused.version.receipt⟩

/-! ## Directories on the way -/

/-- Directories that were made on the way to a place are directories, and so are those that were there. -/
theorem dir_of_opens {target : List String} (opens : live.Opens target live') (found : live.node? path = some .dir) :
    live'.node? path = some .dir := by
  rcases opens.nodes path with same | ⟨absent, made, -⟩
  · rw [same, found]
  · exact made

theorem openat_dir {dir : List String} {part : String} (there : t.live.node? dir = some .dir)
    (done : openat dir part t = .ok u) :
    u = t ∧ t.live.node? (if part = "." then dir else dir ++ [part]) = some .dir := by
  refine ⟨openat_eq_ok done, ?_⟩
  by_cases dot : part = "."
  · rw [if_pos dot]
    exact there
  · rw [openat, if_neg dot] at done
    rw [if_neg dot]
    split at done
    · cases done
    · split at done
      · assumption
      · cases done
      · cases done
      · cases done

/-- The directories above a path are there once they are made. -/
theorem parentOps_dir {dir ps : List String} (there : t.live.node? dir = some .dir)
    (ran : perform (parentOps dir ps) steps t = (some (.ok ()), u)) :
    u.live.node? (dir ++ ps.filter (fun part => part != ".")) = some .dir := by
  induction ps generalizing dir t steps with
  | nil =>
    cases ran
    rwa [List.filter_nil, List.append_nil]
  | cons part rest ih =>
    rw [parentOps] at ran
    rcases perform_cons ran with ⟨-, unfinished⟩ | ⟨next, n, made, ran⟩
    · exact absurd rfl unfinished
    rcases perform_cons ran with ⟨-, unfinished⟩ | ⟨next', n', opened, below_ran⟩
    · exact absurd rfl unfinished
    have still : next.live.node? dir = some .dir := by
      rcases (mkdirat_eq_ok made).2.nodes dir with same | ⟨-, isDir⟩
      · rw [same, there]
      · exact isDir
    obtain ⟨rfl, below⟩ := openat_dir still opened
    have reached := ih below below_ran
    by_cases dot : part = "."
    · rw [if_pos dot] at reached
      rwa [List.filter_cons_of_neg (by simpa using dot)]
    · rw [if_neg dot, List.append_assoc] at reached
      rwa [List.filter_cons_of_pos (by simpa using dot)]

theorem parentOps_done_opens (ran : perform (parentOps [] (parts rel).dropLast) steps t = (outcome, u)) :
    u.saved = t.saved ∧ t.live.Opens (parentDir rel) u.live :=
  perform_inv (P := fun u => u.saved = t.saved ∧ t.live.Opens (parentDir rel) u.live)
    (fun op member _ _ kept done => ⟨(parentOps_keep op member _ _ done).1.trans kept.1,
      kept.2.trans (parentOps_opens op member _ _ done)⟩) ⟨rfl, .refl _ _⟩ ran

namespace Anchored

/-- Making directories on the way to a path makes none at the path of a receipt. -/
theorem opens {target : List String} (anchored : Anchored live rel) (opens : live.Opens target live')
    (clear : live.node? (place rel) = none → ¬place rel <+: target) : Anchored live' rel where
  valid := anchored.valid
  passable := anchored.passable
  named := anchored.named
  parent := dir_of_opens opens anchored.parent
  searched := (Live.searched_congr opens.dirs).trans anchored.searched
  leaf node found := by
    rcases opens.nodes (place rel) with same | ⟨absent, -, within⟩
    · exact anchored.leaf node (same ▸ found)
    · exact absurd (List.isPrefixOf_iff_prefix.mp within) (clear absent)

/-- Replacing a file keeps the paths of receipts. -/
theorem sets {f : Option File} (anchored : Anchored live rel) (sets : live.Sets path (f.map .file) live')
    (readable : ∀ g, f = some g → mayRead g.mode = true) (leaf : live.node? path ≠ some .dir) : Anchored live' rel where
  valid := anchored.valid
  passable := anchored.passable
  named := anchored.named
  parent := by
    rw [sets.nodes, if_neg (fun same : parentDir rel = path => leaf (same ▸ anchored.parent))]
    exact anchored.parent
  searched := (Live.searched_congr sets.dirs).trans anchored.searched
  leaf node found := by
    rw [sets.nodes] at found
    split_ifs at found with here
    · obtain ⟨g, isNew, isFile⟩ := Option.map_eq_some_iff.mp found
      exact ⟨g, isFile.symm, readable g isNew⟩
    · exact anchored.leaf node found

end Anchored

/-! ## An application that stops -/

/-- Before the publication nothing is written that cannot be read, unless the new file is to be so. -/
theorem keepsFiles_journalOps (unused : ids.Unused t.saved) (readable : ∀ new, ch.new = some new → mayRead new.mode = true) :
    ∀ op ∈ journalOps ids ch content ignored, KeepsFiles op := by
  intro op member
  rw [journalOps, List.mem_append, List.mem_append] at member
  rcases member with (parent | journal) | staged
  · exact fun t t' done files => (parentOps_keep op parent t t' done).1 ▸ files
  · exact keepsFiles_writeReceipt unused.first.isId.validTemporary unused.version.isId.validReceipt op journal
  · split at staged
    · next new hasNew => exact keepsFiles_stageOps unused.version.isId.validName (readable new hasNew) op staged
    · exact absurd staged List.not_mem_nil

theorem keepsFiles_settleOps (unused : ids.Unused t.saved) : ∀ op ∈ settleOps c ids ch ignored, KeepsFiles op := by
  have receipt : validRecoveryName ids.receiptName = .ok () := unused.version.isId.validReceipt
  intro op settled
  unfold settleOps at settled
  split at settled
  · rcases List.mem_cons.mp settled with rfl | written
    · exact fun t t' done files => by rwa [(verify_eq_ok done).1]
    · exact keepsFiles_writeReceipt unused.second.isId.validTemporary receipt op written
  · rcases List.mem_append.mp settled with written | unlinked
    · exact keepsFiles_writeReceipt unused.second.isId.validTemporary receipt op written
    · cases List.mem_singleton.mp unlinked
      exact keepsFiles_unlinkSaved

/-- What was read can be read where it is kept. -/
theorem Files.published (files : Files t.saved) (valid : validRecoveryName ids.version = .ok ())
    (readable : ∀ f, current = some f → mayRead f.mode = true) (published : Published ids ch content current t u) :
    Files u.saved := by
  intro name a there
  rw [published.saved] at there
  split_ifs at there with here
  · obtain ⟨f, isFile, rfl⟩ := Option.map_eq_some_iff.mp there
    exact ⟨here ▸ valid, f, rfl, readable f isFile⟩
  · exact files name a there

/-- An application keeps every entry one that can be read, however far it comes. -/
theorem files_of_perform (unused : ids.Unused t.saved) (read : read t.live ch.path = .ok current)
    (wanted : ch.expected ≠ ch.new) (readable : ∀ new, ch.new = some new → mayRead new.mode = true)
    (ran : perform (journalOps ids ch content ignored ++ publishOp ids ch :: settleOps c ids ch ignored) steps t =
      (outcome, u)) (files : Files t.saved) : Files u.saved := by
  have journal {stopped : Option (Result Unit)} {middle : Tree}
      (ran : perform (journalOps ids ch content ignored) steps t = (stopped, middle)) : Files middle.saved :=
    perform_inv (P := fun u => Files u.saved)
      (fun op member _ _ files done => keepsFiles_journalOps unused readable op member _ _ done files) files ran
  rcases perform_change ran with ⟨stopped, before, -⟩ | ⟨middle, after, n, ready, published, settled⟩
  · exact journal before
  · have effect := published_of_ready read wanted ready published
    exact perform_inv (P := fun u => Files u.saved)
      (fun op member _ _ files done => keepsFiles_settleOps unused op member _ _ done files)
      ((journal ready).published unused.version.isId.validName (read_access read).2.2 effect) settled

/-- What an application leaves, however far it comes. -/
structure Stopped (ids : Ids) (ch : Change) (ignored : List String) (t u : Tree) : Prop where
  others : ∀ name, name ≠ ids.receiptName → name ≠ ids.version → name ≠ ids.first ++ ".tmp" →
    name ≠ ids.second ++ ".tmp" → u.saved.get? name = t.saved.get? name
  receipt : ∀ a, u.saved.get? ids.receiptName = some a → u.live.node? (parentDir ch.path) = some .dir ∧
    ∃ state, state ≠ .discarding ∧ a = .ofReceipt (receiptOf ids ch ignored state)
  live : ∃ middle, t.live.Opens (parentDir ch.path) middle ∧
    (u.live = middle ∨ place ch.path = parentDir ch.path ++ [fileName ch.path] ∧
      ∃ content, middle.Sets (place ch.path) ((newFile ch content).map .file) u.live)

/-- Until it is published, a change has a receipt only once the directories above its path are there. -/
theorem stopped_of_journal (fresh : ids.Fresh t.saved ignored)
    (ran : perform (journalOps ids ch content ignored) steps t = (outcome, u)) :
    Stopped ids ch ignored t u ∧ (outcome = some (.ok ()) → u.live.node? (parentDir ch.path) = some .dir) := by
  have opens := perform_journal_opens ran
  have noReceipt {a : Artifact} {saved : OrdMap String Artifact} (found : saved.get? ids.receiptName = some a)
      (same : saved.get? ids.receiptName = t.saved.get? ids.receiptName) : False := by
    rw [same, fresh.noReceipt] at found
    cases found
  have distinct : ids.receiptName ≠ ids.version := Ne.symm (fresh.version.ne_append (by decide))
  rw [journalOps] at ran
  rcases perform_append ran with ⟨stopped, unfinished⟩ | ⟨written, n, journal, staged⟩
  · refine ⟨?_, fun finished => absurd finished unfinished⟩
    rcases perform_append stopped with ⟨early, -⟩ | ⟨made, n, above, late⟩
    · have same := (parentOps_done_opens early).1
      exact ⟨fun name _ _ _ _ => by rw [same], fun a found => (noReceipt found (by rw [same])).elim, _, opens, .inl rfl⟩
    · have same := (parentOps_done_opens above).1
      rcases perform_writeReceipt late with ⟨-, kept⟩ | ⟨finished, -⟩
      · refine ⟨fun name _ _ first _ => by rw [kept name first, same], fun a found => ?_, _, opens, .inl rfl⟩
        exact (noReceipt found (by rw [kept _ (receiptName_ne_tmp ids ids.first), same])).elim
      · exact absurd finished unfinished
  · rcases perform_append journal with ⟨-, unfinished⟩ | ⟨made, n', above, noting⟩
    · exact absurd rfl unfinished
    have same := (parentOps_done_opens above).1
    have isDir : made.live.node? (parentDir ch.path) = some .dir := parentOps_dir Live.node?_nil above
    rcases perform_writeReceipt noting with ⟨unfinished, -⟩ | ⟨-, absent, saved⟩
    · exact absurd rfl unfinished
    have live : written.live = made.live := perform_inv (P := fun u => u.live = made.live)
      (fun op member _ _ same done => (writeReceipt_live op member _ _ done).trans same) rfl noting
    -- Staging writes nothing but the version.
    have kept : u.live = written.live ∧ ∀ name ≠ ids.version, u.saved.get? name = written.saved.get? name := by
      refine perform_inv (P := fun u => u.live = written.live ∧ ∀ name ≠ ids.version,
        u.saved.get? name = written.saved.get? name) (fun op member _ _ before done => ?_) ⟨rfl, fun _ _ => rfl⟩ staged
      cases hasNew : ch.new with
      | none =>
        rw [hasNew] at member
        exact absurd member List.not_mem_nil
      | some new =>
        rw [hasNew] at member
        refine ⟨(stageOps_live op member _ _ done).trans before.1, fun name differs => ?_⟩
        rw [← before.2 name differs]
        simp only [stageOps, List.mem_cons, List.not_mem_nil, or_false] at member
        rcases member with rfl | rfl | rfl
        · rw [(createExcl_eq_ok done).2]
          exact OrdMap.get?_insert_of_ne _ _ differs
        · cases done
          exact OrdMap.get?_insert_of_ne _ _ differs
        · cases done
          exact OrdMap.get?_insert_of_ne _ _ differs
    have here : u.live.node? (parentDir ch.path) = some .dir := by rw [kept.1, live, isDir]
    refine ⟨⟨fun name receipt version _ _ => ?_, fun a found => ⟨here, .pending, by simp, ?_⟩, _, opens, .inl rfl⟩,
      fun _ => here⟩
    · rw [kept.2 name version, saved, get?_noted absent, if_neg receipt, same]
    · rw [kept.2 _ distinct, saved, get?_noted absent, if_pos rfl] at found
      exact (Option.some.inj found).symm

/-- However far an application comes, it leaves other receipts and their versions, and its own receipt only where the
directories above its path are there. -/
theorem stopped_of_perform (fresh : ids.Fresh t.saved ignored) (read : read t.live ch.path = .ok current)
    (wanted : ch.expected ≠ ch.new)
    (ran : perform (journalOps ids ch content ignored ++ publishOp ids ch :: settleOps c ids ch ignored) steps t =
      (outcome, u)) : Stopped ids ch ignored t u := by
  rcases perform_change ran with ⟨stopped, before, -⟩ | ⟨middle, after, n, ready, published, settled⟩
  · exact (stopped_of_journal fresh before).1
  have isDir := (stopped_of_journal fresh ready).2 rfl
  have effect := published_of_ready read wanted ready published
  have pending := pending_of_published fresh (journalOps_saved_alone ready) effect.saved
  have live := perform_settle_live settled
  have here : u.live.node? (parentDir ch.path) = some .dir := by
    rw [live, effect.live.nodes, if_neg (by rw [effect.placed]; simp), isDir]
  have sets : t.live.Opens (parentDir ch.path) middle.live ∧ (u.live = middle.live ∨
      place ch.path = parentDir ch.path ++ [fileName ch.path] ∧
        ∃ content, middle.live.Sets (place ch.path) ((newFile ch content).map .file) u.live) :=
    ⟨perform_journal_opens ready, .inr ⟨effect.placed, _, live ▸ effect.live⟩⟩
  cases left_of_settle settled with
  | pending same =>
    refine ⟨fun name receipt version _ second => by rw [same name second, pending.others name receipt version],
      fun a found => ⟨here, .pending, by simp, ?_⟩, _, sets⟩
    rw [same _ (receiptName_ne_tmp ids ids.second), pending.receipt] at found
    exact (Option.some.inj found).symm
  | settled state final verified saved =>
    refine ⟨fun name receipt version _ _ => ?_, fun a found => ⟨here, state, ?_, ?_⟩, _, sets⟩
    · rw [saved, if_neg receipt, pending.others name receipt version]
    · rcases final with rfl | rfl <;> simp
    · rw [saved, if_pos rfl] at found
      exact (Option.some.inj found).symm
  | removed creation saved =>
    refine ⟨fun name receipt version _ _ => ?_, fun a found => ?_, _, sets⟩
    · rw [saved, if_neg receipt, pending.others name receipt version]
    · rw [saved, if_pos rfl] at found
      cases found

/-! ## The directory after it -/

/-- The live node at the path of a change that may be applied. -/
theorem leaf_of_read (readable : read t.live rel = .ok current) :
    ∀ node, t.live.node? (place rel) = some node → ∃ f, node = .file f ∧ mayRead f.mode = true := by
  intro node found
  obtain ⟨-, -, was, known, -⟩ := read_eq_ok readable
  rw [found, Option.isSome_some] at known
  obtain ⟨f, rfl⟩ := Option.isSome_iff_exists.mp known.symm
  rw [Live.file?_eq_some.mp was.symm] at found
  exact ⟨f, (Option.some.inj found).symm, (read_access readable).2.2 f rfl⟩

/-- No directory is made at a path by making those above it. -/
theorem leaf_of_opens (opens : live.Opens (parentDir rel) live') (placed : place rel = parentDir rel ++ [fileName rel])
    (leaf : ∀ node, live.node? (place rel) = some node → ∃ f, node = .file f ∧ mayRead f.mode = true) :
    ∀ node, live'.node? (place rel) = some node → ∃ f, node = .file f ∧ mayRead f.mode = true :=
  fun node found => leaf node ((opens.at_place placed).symm.trans found)

theorem mayRead_newFile {f : File} (readable : ∀ new, ch.new = some new → mayRead new.mode = true)
    (isNew : newFile ch content = some f) : mayRead f.mode = true := by
  obtain ⟨new, hasNew, rfl⟩ := Option.map_eq_some_iff.mp isNew
  exact readable new hasNew

namespace Stopped

variable (stopped : Stopped ids ch ignored t u) (readable : read t.live ch.path = .ok current)
  (kept : ∀ new, ch.new = some new → mayRead new.mode = true)

include stopped

/-- An application changes no directory that is there. -/
theorem dirs : u.live.dirs = t.live.dirs := by
  obtain ⟨middle, opens, same | ⟨-, f, sets⟩⟩ := stopped.live
  · rw [same, opens.dirs]
  · rw [sets.dirs, opens.dirs]

include readable kept

/-- The path of another receipt stays, unless a directory is to be made at it. -/
theorem anchored (before : Anchored t.live rel)
    (clear : t.live.node? (place rel) = none → ¬place rel <+: parentDir ch.path) : Anchored u.live rel := by
  obtain ⟨middle, opens, same | ⟨placed, f, sets⟩⟩ := stopped.live
  · exact same ▸ before.opens opens clear
  · refine (before.opens opens clear).sets sets (fun g => mayRead_newFile kept) (fun isDir => ?_)
    obtain ⟨f, isFile, -⟩ := leaf_of_opens opens placed (leaf_of_read readable) _ isDir
    cases isFile

/-- The path of the change is one of a receipt. -/
theorem anchored_self (named : Named (fileName ch.path)) (isDir : u.live.node? (parentDir ch.path) = some .dir) :
    Anchored u.live ch.path := by
  have placed : place ch.path = parentDir ch.path ++ [fileName ch.path] := by
    refine place_eq (fun part member => ?_)
    rcases List.mem_append.mp member with above | last
    · exact Live.named_of_node? isDir part above
    · exact List.mem_singleton.mp last ▸ named
  refine ⟨(read_eq_ok readable).1, read_passable readable, named, isDir, ?_, ?_⟩
  · rw [Live.searched_congr stopped.dirs, ← placed]
    exact (read_access readable).2.1
  · obtain ⟨middle, opens, same | ⟨-, f, sets⟩⟩ := stopped.live
    · exact same ▸ leaf_of_opens opens placed (leaf_of_read readable)
    · intro node found
      rw [sets.nodes, if_pos rfl] at found
      obtain ⟨g, isNew, isFile⟩ := Option.map_eq_some_iff.mp found
      exact ⟨g, isFile.symm, mayRead_newFile kept isNew⟩

end Stopped

/-- What must hold of a change for the receipts to stay recoverable: its path ends in a name, a new file may be read,
and no directory is to be made at the path of a receipt. -/
structure Spares (t : Tree) (ch : Change) : Prop where
  named : Named (fileName ch.path)
  readable : ∀ new, ch.new = some new → mayRead new.mode = true
  clear : ∀ name r, HasReceipt t.saved name r → t.live.node? (place r.path) = none →
    ¬place r.path <+: parentDir ch.path

/-- The receipt of an application may be read back and tells of data of its own. -/
theorem written_of_stopped {state : RecoveryState} (stopped : Stopped ids ch ignored t u)
    (admitted : Admitted c host s t ch bytes ignored current) (expected : current.map (·.fingerprint c) = ch.expected)
    (source : ∀ id ∈ ignored, id.utf8ByteSize ≤ 200) (version : IsId ids.version) (spares : Spares t ch)
    (isDir : u.live.node? (parentDir ch.path) = some .dir) (kept : state ≠ .discarding) :
    Written c u (receiptOf ids ch ignored state) where
  path := .inr (stopped.anchored_self admitted.readable spares.readable spares.named isDir)
  version := version.validName
  data := version.endsWith (by decide)
  temporary tmp := by
    rw [receiptOf, version.endsWith (by decide)] at tmp
    cases tmp
  expected fp same := by
    obtain ⟨f, -, rfl⟩ := Option.map_eq_some_iff.mp (expected.trans same)
    exact Crypto.utf8ByteSize_hash c f.bytes
  replacement fp same := by
    obtain ⟨f, -, rfl⟩ := Option.map_eq_some_iff.mp ((newFile_fingerprint admitted.content).trans same)
    exact Crypto.utf8ByteSize_hash c f.bytes
  source id same := source id (List.mem_of_head? same)
  token token same := by cases same
  begun isDiscarding := absurd isDiscarding kept

/-- An application keeps the directory recoverable, however far it comes. -/
theorem Recoverable.applying (rec : Recoverable c t) (unused : ids.Unused t.saved)
    (listed : ∀ id ∈ ignored, t.saved.get? id ≠ none) (admitted : Admitted c host s t ch bytes ignored current)
    (expected : current.map (·.fingerprint c) = ch.expected) (wanted : ch.expected ≠ ch.new) (spares : Spares t ch)
    (ran : perform (journalOps ids ch content ignored ++ publishOp ids ch :: settleOps c ids ch ignored) steps t =
      (outcome, u)) : Recoverable c u := by
  have stopped := stopped_of_perform (unused.fresh listed) admitted.readable wanted ran
  have files : Files u.saved := files_of_perform unused admitted.readable wanted spares.readable ran rec.files
  have tree : openTree u.live = .ok () := (openTree_congr stopped.dirs).trans (read_access admitted.readable).1
  have short (id : String) (member : id ∈ ignored) : id.utf8ByteSize ≤ 200 := by
    obtain ⟨a, found⟩ := Option.ne_none_iff_exists'.mp (listed id member)
    exact utf8ByteSize_le_of_valid (rec.named id a found)
  have version_json : isReceiptName ids.version = false := unused.version.isId.endsWith (by decide)
  have json_ne {name other : String} (json : isReceiptName name = true) (data : isReceiptName other = false) :
      name ≠ other := by
    rintro rfl
    rw [json] at data
    cases data
  refine rec.change (n := ids.receiptName) (fun name a found => (files name a found).1)
    (fun name a found => (files name a found).2) (fun _ _ => tree) (fun name a json differs found => ?_)
    (fun name r has before => stopped.anchored admitted.readable spares.readable before (spares.clear name r has))
    (fun name r has _ a found => ?_) (fun a _ found => ?_)
  · rwa [stopped.others name differs (json_ne json version_json) (json_ne json (tmp_not_receipt ids.first))
      (json_ne json (tmp_not_receipt ids.second))] at found
  · have data := (rec.written has).data
    rwa [stopped.others r.version (json_ne ids.receiptName_isReceiptName data).symm
      (unused.version.unnamed name _ r has.2).1 (unused.first.unnamed name _ r has.2).2
      (unused.second.unnamed name _ r has.2).2] at found
  · obtain ⟨isDir, state, kept, rfl⟩ := stopped.receipt a found
    exact ⟨_, rfl, written_of_stopped stopped admitted expected short unused.version.isId spares isDir kept,
      fun name r has _ => (unused.version.unnamed name _ r has.2).1⟩

end Clix.Pin
