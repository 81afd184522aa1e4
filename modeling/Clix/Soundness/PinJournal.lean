import Clix.Proofs.PinRecovery

/-! # Applying a change never loses content

However far an application comes, and whatever another program wrote to the path before the publication: the
live file is untouched, or the file that was there is kept as the version of the change's receipt. Then the
receipt is pending, which stops every later synchronization, or the change is settled and the recovery
directory is in order.
-/

namespace Clix.Pin

open Except

variable {c : Crypto} {host : Host} {s : Store} {t t' middle after : Tree} {ch : Change} {bytes : Option Bytes}
  {ignored : List String} {ids : Ids} {intrusion : Option (Intrusion (place ch.path))} {steps : ℕ}
  {name tmp : String} {path : List String} {content : Bytes} {was : Option Artifact} {current : Option File}
  {r : RecoveryReceipt} {stopped outcome : Option (Result Unit)} {f : File} {a : Artifact} {live : Live}

/-! ## Up to the publication -/

/-- The live tree as it may be before the publication: directories were added, and another program may have left
something at the path of the change. -/
inductive Before (ch : Change) (start : Live) (intrusion : Option (Intrusion (place ch.path))) (live : Live) : Prop
  | alone (grows : start.Grows live)
  | intruded (i : Intrusion (place ch.path)) (found : Live) (same : intrusion = some i) (first : start.Grows found)
      (grows : (i.write found).Grows live)

/-- Nothing is touched but what is at the path or below it. -/
theorem Before.others {start : Live} (before : Before ch start intrusion live)
    (outside : (place ch.path).isPrefixOf path = false) : live.file? path = start.file? path := by
  cases before with
  | alone grows => exact grows.file? path
  | intruded i found same first grows =>
    rw [grows.file?, Live.file?, (i.elsewhere _ _ outside).1]
    exact first.file? path

/-- Before the publication no live file is changed but by the other program. -/
theorem before_publication
    (ran : perform (withIntrusion (journalOps ids ch content ignored) intrusion) steps t = (stopped, t')) :
    Before ch t.live intrusion t'.live := by
  have part {ops : List Op} {n : ℕ} {u u' : Tree} {result : Option (Result Unit)}
      (own : ∀ op ∈ ops, op ∈ journalOps ids ch content ignored) (ran : perform ops n u = (result, u')) :
      u.live.Grows u'.live :=
    perform_inv (P := fun v => u.live.Grows v.live)
      (fun op member _ _ grows done => grows.trans (journalOps_live op (own op member) _ _ done)) (.refl _) ran
  cases intrusion with
  | none => exact .alone (part (fun _ member => member) ran)
  | some i =>
    rw [withIntrusion] at ran
    rcases perform_append ran with ⟨ran, -⟩ | ⟨middle, n, first, ran⟩
    · exact .alone (part (fun _ => List.mem_of_mem_take) ran)
    · have early := part (fun _ => List.mem_of_mem_take) first
      rcases perform_cons ran with ⟨rfl, -⟩ | ⟨next, n, written, ran⟩
      · exact .alone early
      · cases written
        exact .intruded i middle.live rfl early (part (fun _ => List.mem_of_mem_drop) ran)

/-! ## From the publication on -/

/-- Until a receipt is in place, nothing but its temporary file changes. -/
theorem perform_writeReceipt (ran : perform (writeReceipt tmp name r) steps t = (stopped, t')) :
    (stopped ≠ some (.ok ()) ∧ ∀ other ≠ tmp ++ ".tmp", t'.saved.get? other = t.saved.get? other) ∨
    (stopped = some (.ok ()) ∧ t.saved.get? (tmp ++ ".tmp") = none ∧ t'.saved = noted tmp name r t.saved) := by
  rw [writeReceipt] at ran
  rcases perform_cons ran with ⟨rfl, unfinished⟩ | ⟨one, n, created, ran⟩
  · exact .inl ⟨unfinished, fun _ _ => rfl⟩
  · obtain ⟨absent, rfl⟩ := createExcl_eq_ok created
    rcases perform_cons ran with ⟨rfl, unfinished⟩ | ⟨two, n, written, ran⟩
    · exact .inl ⟨unfinished, fun other differs => OrdMap.get?_insert_of_ne _ _ differs⟩
    · cases written
      rcases perform_cons ran with ⟨rfl, unfinished⟩ | ⟨three, n, renamed, ran⟩
      · refine .inl ⟨unfinished, fun other differs => ?_⟩
        dsimp only
        rw [OrdMap.get?_insert_of_ne _ _ differs, OrdMap.get?_insert_of_ne _ _ differs]
      · cases ran
        refine .inr ⟨rfl, absent, ?_⟩
        rw [renameSaved_acts _ _ renamed]
        exact moved_noted

theorem get?_noted (absent : t.saved.get? (tmp ++ ".tmp") = none) (other : String) :
    (noted tmp name r t.saved).get? other = if other = name then some (.ofReceipt r) else t.saved.get? other := by
  rw [noted, OrdMap.get?_insert, OrdMap.get?_erase]
  split_ifs with here gone
  · rfl
  · rw [gone, absent]
  · rfl

/-- The recovery directory after the publication: the receipt is pending, and what was live is the version. -/
structure Pending (ids : Ids) (ch : Change) (ignored : List String) (was : Option Artifact) (t after : Tree) : Prop where
  receipt : after.saved.get? ids.receiptName = some (.ofReceipt (receiptOf ids ch ignored .pending))
  version : after.saved.get? ids.version = was
  others : ∀ name, name ≠ ids.receiptName → name ≠ ids.version → after.saved.get? name = t.saved.get? name

theorem pending_of_published (fresh : ids.Fresh t.saved ignored)
    (ready : middle.saved = journaled ids ch content ignored t.saved)
    (published : ∀ name, after.saved.get? name = if name = ids.version then was else middle.saved.get? name) :
    Pending ids ch ignored was t after := by
  have distinct : ids.receiptName ≠ ids.version := Ne.symm (fresh.version.ne_append (by decide))
  have noted_eq (other : String) (differs : other ≠ ids.version) : middle.saved.get? other =
      if other = ids.receiptName then some (.ofReceipt (receiptOf ids ch ignored .pending))
      else t.saved.get? other := by
    rw [ready, journaled]
    cases ch.new with
    | none => exact get?_noted fresh.noTemporary other
    | some new => rw [OrdMap.get?_insert_of_ne _ _ differs, get?_noted fresh.noTemporary]
  refine ⟨?_, ?_, fun name notReceipt notVersion => ?_⟩
  · rw [published, if_neg distinct, noted_eq _ distinct, if_pos rfl]
  · rw [published, if_pos rfl]
  · rw [published, if_neg notVersion, noted_eq _ notVersion, if_neg notReceipt]

/-- How an application that published its change may be left: with its receipt pending, settled, or, for a
creation, removed. -/
inductive Left (c : Crypto) (ids : Ids) (ch : Change) (ignored : List String) (after t' : Tree) : Prop
  | pending (same : ∀ name, name ≠ ids.second ++ ".tmp" → t'.saved.get? name = after.saved.get? name)
  | settled (state : RecoveryState) (final : state = .retained ∨ state = .resolved)
      (verified : ∀ expected, ch.expected = some expected → ∃ f, after.saved.get? ids.version = some (.file f) ∧
        mayRead f.mode = true ∧ fingerprint c (f.bytes.take (maxFile + 1)) (permissions f.mode) = expected)
      (saved : ∀ name, t'.saved.get? name = if name = ids.receiptName
        then some (.ofReceipt (receiptOf ids ch ignored state)) else after.saved.get? name)
  | removed (creation : ch.expected = none)
      (saved : ∀ name, t'.saved.get? name = if name = ids.receiptName then none else after.saved.get? name)

theorem left_of_settle (ran : perform (settleOps c ids ch ignored) steps after = (outcome, t')) :
    Left c ids ch ignored after t' := by
  unfold settleOps at ran
  cases expected : ch.expected with
  | some fp =>
    rw [expected] at ran
    dsimp only at ran
    rcases perform_cons ran with ⟨rfl, -⟩ | ⟨next, n, checked, noting⟩
    · exact .pending (fun _ _ => rfl)
    · obtain ⟨rfl, f, found, verified⟩ := verify_eq_ok checked
      rcases perform_writeReceipt noting with ⟨-, same⟩ | ⟨-, absent, saved⟩
      · exact .pending same
      · refine .settled .retained (.inl rfl) (fun fp' same => ?_) (fun name => ?_)
        · cases expected.symm.trans same
          exact ⟨f, found, verified⟩
        · rw [saved, get?_noted absent]
  | none =>
    rw [expected] at ran
    dsimp only at ran
    have noExpected (fp : Fingerprint) (same : ch.expected = some fp) : ∃ f,
        after.saved.get? ids.version = some (.file f) ∧ mayRead f.mode = true ∧
          fingerprint c (f.bytes.take (maxFile + 1)) (permissions f.mode) = fp := by
      rw [expected] at same
      cases same
    rcases perform_append ran with ⟨ran, unfinished⟩ | ⟨one, n, written, ran⟩
    · rcases perform_writeReceipt ran with ⟨-, same⟩ | ⟨done, -⟩
      · exact .pending same
      · exact absurd done unfinished
    · rcases perform_writeReceipt written with ⟨unfinished, -⟩ | ⟨-, absent, saved⟩
      · exact absurd rfl unfinished
      · rcases perform_cons ran with ⟨rfl, -⟩ | ⟨two, n, unlinked, ran⟩
        · exact .settled .resolved (.inr rfl) noExpected (fun name => by rw [saved, get?_noted absent])
        · cases ran
          refine .removed expected (fun name => ?_)
          rw [unlinkSaved_eq_ok unlinked]
          dsimp only
          rw [OrdMap.get?_erase, saved, get?_noted absent]
          split_ifs <;> rfl

/-! ## The journal -/

/-- What another program left does not collide with the file that was there. -/
def NoCollision (c : Crypto) (current : Option File) (was : Option Artifact) : Prop :=
  ∀ f g, current = some f → was = some (.file g) → c.hash (g.bytes.take (maxFile + 1)) = c.hash f.bytes →
    g.bytes.take (maxFile + 1) = f.bytes

/-- What was displaced is the version of a receipt for the path. -/
def Stored (ids : Ids) (ch : Change) (saved : OrdMap String Artifact) (displaced : Artifact) : Prop :=
  saved.get? ids.version = some displaced ∧ ∃ text r, saved.get? ids.receiptName = some (.receipt text r) ∧
    r.version = ids.version ∧ r.path = ch.path ∧ r.expected = ch.expected

/-- A receipt for the path is pending, and the tree is refused until the owner resolves it. -/
def StillPending (c : Crypto) (ids : Ids) (ch : Change) (saved : OrdMap String Artifact) : Prop :=
  ∃ text r, saved.get? ids.receiptName = some (.receipt text r) ∧ r.path = ch.path ∧ r.state = .pending ∧
    checkRecoveryExcept c saved [] ≠ .ok ()

/-- The change is complete: the recovery directory is in order but for the receipts that are being restored, and
what was displaced was expected. -/
def Complete (c : Crypto) (ch : Change) (ignored : List String) (was : Option Artifact)
    (saved : OrdMap String Artifact) : Prop :=
  checkRecoveryExcept c saved ignored = .ok () ∧
    ∃ f : Option File, was = f.map .file ∧ f.map (·.fingerprint c) = ch.expected

/-- How the live tree may be after an application. -/
inductive Preserved (c : Crypto) (ids : Ids) (ch : Change) (bytes : Option Bytes) (ignored : List String)
    (intrusion : Option (Intrusion (place ch.path))) (t t' : Tree) : Prop
  | untouched (before : Before ch t.live intrusion t'.live)
  | changed (live : Live) (before : Before ch t.live intrusion live)
      (published : live.Swaps (place ch.path) ((newFile ch (bytes.getD [])).map .file) t'.live)
      (stored : ∀ displaced, live.taken (place ch.path) = some displaced → Stored ids ch t'.saved displaced)
      (journal : StillPending c ids ch t'.saved ∨ Complete c ch ignored (live.taken (place ch.path)) t'.saved)

theorem stillPending_of (receipt : t'.saved.get? ids.receiptName =
    some (.ofReceipt (receiptOf ids ch ignored .pending))) : StillPending c ids ch t'.saved :=
  ⟨_, _, receipt, rfl, rfl, not_reviewed_of_pending receipt rfl ids.receiptName_isReceiptName⟩

/-- The displaced file had the expected fingerprint, so it is as long as the file that was admitted. -/
theorem displaced_of_verified {expected : Fingerprint} (current_eq : current.map (·.fingerprint c) = some expected)
    (small : ∀ g, current = some g → g.bytes.length ≤ maxFile) (noCollision : NoCollision c current (some (.file f)))
    (verified : fingerprint c (f.bytes.take (maxFile + 1)) (permissions f.mode) = expected) :
    f.fingerprint c = expected ∧ f.bytes.length = current.elim 0 (·.bytes.length) := by
  obtain ⟨g, rfl, same⟩ := Option.map_eq_some_iff.mp current_eq
  have hashes : c.hash (f.bytes.take (maxFile + 1)) = c.hash g.bytes :=
    congrArg Fingerprint.hash (verified.trans same.symm)
  have contents := noCollision g f rfl rfl hashes
  have short := small g rfl
  have lengths := congrArg List.length contents
  rw [List.length_take] at lengths
  have whole : f.bytes.take (maxFile + 1) = f.bytes := List.take_of_length_le (by omega)
  rw [whole] at verified contents
  exact ⟨verified, by rw [Option.elim_some, contents]⟩

theorem admitRecovery_eq_ok {saved : OrdMap String Artifact} {extraBytes extraEntries : ℕ}
    (admitted : admitRecovery saved extraBytes extraEntries = .ok ()) :
    (saved.entries.map (fun e => e.2.size)).sum + extraBytes + recoveryReserve ≤ maxRecoveryBytes ∧
      saved.size + extraEntries + 8 ≤ maxRecoveryEntries := by
  rw [admitRecovery, bind_eq_ok] at admitted
  obtain ⟨usage, counted, admitted⟩ := admitted
  obtain ⟨-, rfl⟩ := recoveryUsage_eq_ok.mp counted
  dsimp only at admitted
  rw [refuseIf_eq_ok, not_or, not_lt, not_lt] at admitted
  exact admitted

/-- A published change is left pending or complete. -/
theorem journal_of_left (fresh : ids.Fresh t.saved ignored) (source : ∀ id ∈ ignored, id.utf8ByteSize ≤ 200)
    (admitted : Admitted c host s t ch bytes ignored current)
    (expected : current.map (·.fingerprint c) = ch.expected)
    (room : admitRecovery t.saved (current.elim 0 (·.bytes.length) + bytes.elim 0 (·.length)) 4 = .ok ())
    (known : was.isSome = ch.expected.isSome) (noCollision : NoCollision c current was)
    (pending : Pending ids ch ignored was t after) (left : Left c ids ch ignored after t') :
    StillPending c ids ch t'.saved ∨ Complete c ch ignored was t'.saved := by
  have distinct : ids.receiptName ≠ ids.version := Ne.symm (fresh.version.ne_append (by decide))
  obtain ⟨valid, short, -, -, small⟩ := read_eq_ok admitted.readable
  cases left with
  | pending same =>
    have receipt := (same _ (receiptName_ne_tmp ids ids.second)).trans pending.receipt
    exact .inl (stillPending_of receipt)
  | settled state final verified saved =>
    right
    -- What was displaced is what was expected, byte for byte.
    obtain ⟨displaced, rfl, readable, same, length⟩ : ∃ displaced : Option File, was = displaced.map .file ∧
        (∀ f, displaced = some f → mayRead f.mode = true) ∧ displaced.map (·.fingerprint c) = ch.expected ∧
        displaced.elim 0 (·.bytes.length) ≤ current.elim 0 (·.bytes.length) := by
      cases fp : ch.expected with
      | none =>
        rw [fp, Option.isSome_none, Option.isSome_eq_false_iff, Option.isNone_iff_eq_none] at known
        exact ⟨none, known, by simp, rfl, Nat.zero_le _⟩
      | some fp' =>
        obtain ⟨f, found, readable, same⟩ := verified fp' fp
        rw [pending.version] at found
        subst found
        obtain ⟨fingerprint, length⟩ := displaced_of_verified (expected.trans fp) small noCollision same
        refine ⟨some f, rfl, fun g isFile => ?_, by rw [Option.map_some, fingerprint],
          by rw [Option.elim_some, length]⟩
        cases isFile
        exact readable
    obtain ⟨bytes', entries'⟩ := admitRecovery_eq_ok room
    have digest (fp : Fingerprint) (f : File) (same : f.fingerprint c = fp) : fp.hash.utf8ByteSize = 64 := by
      rw [← same]
      exact Crypto.utf8ByteSize_hash c f.bytes
    have fits : Json.size (receiptOf ids ch ignored state) ≤ maxReceipt := by
      refine size_receipt_le short (fresh.version.2.1.trans (by decide)) (fun fp same => ?_) (fun fp same => ?_)
        (fun id same => source id (List.mem_of_head? same)) nofun
      · obtain ⟨f, -, same⟩ := Option.map_eq_some_iff.mp (expected.trans same)
        exact digest fp f same
      · obtain ⟨f, -, same⟩ := Option.map_eq_some_iff.mp ((newFile_fingerprint admitted.content).trans same)
        exact digest fp f same
    have reserve : maxReceipt ≤ recoveryReserve := by decide
    have entries (name : String) : t'.saved.get? name = if name = ids.version then displaced.map .file
        else if name = ids.receiptName then some (.ofReceipt (receiptOf ids ch ignored state))
        else t.saved.get? name := by
      rw [saved]
      by_cases here : name = ids.version
      · rw [if_pos here, if_neg (fun there => distinct (there.symm.trans here)), here, pending.version]
      · rw [if_neg here]
        split_ifs with there
        · rfl
        · exact pending.others name there here
    have bytes : (t.saved.entries.map (fun e => e.2.size)).sum + Json.size (receiptOf ids ch ignored state) +
        displaced.elim 0 (·.bytes.length) ≤ maxRecoveryBytes := by
      omega
    have before := checkRecoveryExcept_eq_ok.mp admitted.recovered
    have settled : Reviewed c t'.saved ignored :=
      before.settle fresh readable entries rfl final valid same.symm fits bytes (by omega)
    exact ⟨checkRecoveryExcept_eq_ok.mpr settled, displaced, rfl, same⟩
  | removed creation saved =>
    right
    rw [creation, Option.isSome_none, Option.isSome_eq_false_iff, Option.isNone_iff_eq_none] at known
    have same : t'.saved = t.saved := by
      refine OrdMap.ext_get? (fun name => ?_)
      rw [saved]
      split_ifs with there
      · rw [there, fresh.noReceipt]
      · by_cases here : name = ids.version
        · rw [here, pending.version, fresh.noVersion, known]
        · exact pending.others name there here
    exact ⟨by rw [same]; exact admitted.recovered, none, known, by rw [creation]; rfl⟩

theorem stored_of_left (fresh : ids.Fresh t.saved ignored) (known : was.isSome = ch.expected.isSome)
    (pending : Pending ids ch ignored was t after) (left : Left c ids ch ignored after t') (displaced : was = some a) :
    Stored ids ch t'.saved a := by
  have distinct : ids.version ≠ ids.receiptName := fresh.version.ne_append (by decide)
  cases left with
  | pending same =>
    refine ⟨?_, _, _, (same _ (receiptName_ne_tmp ids ids.second)).trans pending.receipt, rfl, rfl, rfl⟩
    rw [same _ (fresh.version.ne_append (by decide)), pending.version, displaced]
  | settled state final verified saved =>
    refine ⟨?_, _, _, by rw [saved, if_pos rfl]; rfl, rfl, rfl, rfl⟩
    rw [saved, if_neg distinct, pending.version, displaced]
  | removed creation saved =>
    rw [displaced, creation] at known
    cases known

/-- Applying a change never loses content. For every tree, change and content, every point at which the
application stops or fails, and whatever another program leaves at the path or below it before the publication: no
other live file changes; the live tree is untouched, or what was at the path is stored with everything below it as
the version of a receipt, which is still pending or complete; and an application that returns leaves exactly the
requested fingerprint live. -/
theorem apply_keeps_content (c : Crypto) (host : Host) (s : Store) (ch : Change) (bytes : Option Bytes)
    (ignored : List String) (ids : Ids) (intrusion : Option (Intrusion (place ch.path))) (steps : ℕ) (t t' : Tree)
    (outcome : Option (Result (Option String))) (fresh : ids.Fresh t.saved ignored)
    (source : ∀ id ∈ ignored, id.utf8ByteSize ≤ 200)
    (noCollision : ∀ live, Before ch t.live intrusion live →
      NoCollision c (t.live.file? (place ch.path)) (live.taken (place ch.path)))
    (ran : applyLocked c host s ch bytes ignored ids intrusion steps t = (outcome, t')) :
    (∀ path, (place ch.path).isPrefixOf path = false → t'.live.file? path = t.live.file? path) ∧
      Preserved c ids ch bytes ignored intrusion t t' ∧
      ∀ receipt, outcome = some (.ok receipt) →
        (t'.live.file? (place ch.path)).map (·.fingerprint c) = ch.new := by
  rw [applyLocked] at ran
  cases checked : applyChecks c host s t ch bytes ignored with
  | error e =>
    rw [checked] at ran
    cases ran
    exact ⟨fun _ _ => rfl, .untouched (.alone (.refl _)), fun _ finished => by cases finished⟩
  | ok due =>
    rw [checked] at ran
    obtain ⟨current, admitted, ⟨rfl, same⟩ | ⟨rfl, differs, expected, -, room⟩⟩ := applyChecks_eq_ok.mp checked
    · cases ran
      refine ⟨fun _ _ => rfl, .untouched (.alone (.refl _)), fun _ _ => ?_⟩
      rw [← place_of_admitted admitted, same]
    · dsimp only at ran
      generalize performed : perform _ steps t = finished at ran
      obtain ⟨result, last⟩ := finished
      cases ran
      rcases perform_change performed with
        ⟨stopped, ran, unfinished⟩ | ⟨middle, after, remaining, ready, published, settled⟩
      · have before := before_publication ran
        refine ⟨fun path outside => before.others outside, .untouched before, fun receipt finished => ?_⟩
        rcases result with _ | ⟨e | ⟨⟨⟩⟩⟩
        · cases finished
        · cases finished
        · exact absurd rfl unfinished
      · have before := before_publication ready
        have staged := journalOps_saved intrusion ready
        obtain ⟨was, effect⟩ := publishOp_eq_ok (bytes.getD []) (fun same => differs (expected.trans same))
          (fun new hasNew => by rw [staged, journaled, hasNew, OrdMap.get?_insert_self]) published
        have live := perform_settle_live settled
        have pending := pending_of_published fresh staged effect.saved
        have left := left_of_settle settled
        have found := effect.found
        subst found
        refine ⟨fun path outside => ?_, .changed middle.live before (live ▸ effect.live)
          (fun displaced taken => stored_of_left fresh effect.known pending left taken)
          (journal_of_left fresh source admitted expected room effect.known ?_ pending left), fun receipt _ => ?_⟩
        · have elsewhere : path ≠ place ch.path := by
            rintro rfl
            rw [← Bool.not_eq_true, List.isPrefixOf_iff_prefix] at outside
            exact outside List.prefix_rfl
          rw [live, Live.file?, effect.live.nodes, if_neg elsewhere, if_neg (by rw [outside]; simp)]
          exact before.others outside
        · rw [place_of_admitted admitted]
          exact noCollision middle.live before
        · rw [live, Live.file?, effect.live.nodes, if_pos rfl, ← newFile_fingerprint admitted.content]
          cases newFile ch (bytes.getD []) <;> rfl

namespace JournalExample

set_option maxRecDepth 40000

def exampleHost : Host where
  root := ["home", "alice", "src"]
  canonicalize _ _ := none
  absolute binary := .ok (place binary)
  hasRecovery := false

def exampleStore : Store := Store.first Crypto.transparent "epoch" "alice" (List.replicate 32 1)

def old : File := ⟨[104], 0o644⟩

def new : File := ⟨[105], 0o644⟩

/-- A tree with one file. -/
def tree : Tree := ⟨Live.empty.put [] "f" (.file old) (by decide), ∅⟩

def replacement : Change :=
  ⟨"f", some (old.fingerprint Crypto.transparent), some (new.fingerprint Crypto.transparent), false⟩

def drawn : Ids := ⟨"v1", "t1", "t2"⟩

/-- Another program leaves an empty directory in the place of the file. -/
def intruder : Intrusion (place replacement.path) where
  after := 3
  write live := if fits : (live.cut [] "f").Fits [] "f" then (live.cut [] "f").put [] "f" .dir fits else live
  elsewhere live other outside := by
    have outside : ([] ++ ["f"]).isPrefixOf other = false := outside
    split
    · next fits =>
      refine ⟨?_, swaps_cut.dirs other outside⟩
      have differs : other ≠ [] ++ ["f"] := by
        rintro rfl
        exact absurd outside (by decide)
      rw [Live.node?_put, if_neg differs, Live.node?_cut, if_neg (by rw [outside]; simp)]
    · exact ⟨rfl, rfl⟩

/-- The file is replaced, and the application stops right after the publication. -/
def stoppedAfter : Option (Result (Option String)) × Tree :=
  applyLocked Crypto.transparent exampleHost exampleStore replacement (some new.bytes) [] drawn (some intruder) 8 tree

theorem fresh : drawn.Fresh tree.saved [] where
  version := ⟨by decide, by decide, by decide, by decide⟩
  noVersion := rfl
  noReceipt := rfl
  noTemporary := rfl
  unnamed _ _ _ found := by cases found
  unignored := ⟨List.not_mem_nil, List.not_mem_nil⟩

/-- Where a directory was made or found, no file is displaced. -/
theorem intruded_dir {found live : Live} (grows : (intruder.write found).Grows live) (g : File) : live.taken (place replacement.path) ≠ some (.file g) := by
  have fits : (found.cut [] "f").Fits [] "f" := by
    refine ⟨Live.node?_nil, by decide, ?_, by decide⟩
    rw [Live.node?_cut, if_pos (by decide)]
    simp
  have there : (intruder.write found).node? ["f"] = some .dir := by
    change (if fits : (found.cut [] "f").Fits [] "f" then (found.cut [] "f").put [] "f" .dir fits else found).node? _ = _
    rw [dif_pos fits, Live.node?_put, List.nil_append, if_pos rfl]
  have now : live.node? ["f"] = some .dir := by
    rcases grows.nodes ["f"] with same | ⟨absent, -⟩
    · rw [same, there]
    · rw [there] at absent
      cases absent
  intro isFile
  have here : place replacement.path = ["f"] := by decide
  rw [here, Live.taken, now] at isFile
  cases isFile

/-- After the stop the directory is kept under a pending receipt. -/
theorem stopped_keeps_content :
    (∀ path, (place replacement.path).isPrefixOf path = false →
        stoppedAfter.2.live.file? path = tree.live.file? path) ∧
      Preserved Crypto.transparent drawn replacement (some new.bytes) [] (some intruder) tree stoppedAfter.2 ∧
      ∀ receipt, stoppedAfter.1 = some (.ok receipt) →
        (stoppedAfter.2.live.file? (place replacement.path)).map (·.fingerprint Crypto.transparent) =
          replacement.new :=
  apply_keeps_content Crypto.transparent exampleHost exampleStore replacement (some new.bytes) [] drawn (some intruder)
    8 tree stoppedAfter.2 stoppedAfter.1 fresh (fun _ member => absurd member List.not_mem_nil)
    (fun live before f g current isFile _ => by
      cases before with
      | alone grows =>
        have was : tree.live.file? (place replacement.path) = some old := by decide
        have displaced := taken_of_file? ((grows.file? _).trans was)
        rw [was] at current
        rw [displaced] at isFile
        cases current
        cases isFile
        decide
      | intruded i found same _ grows =>
        cases same
        exact absurd isFile (intruded_dir grows g)) rfl

example : stoppedAfter.1 = none ∧ stoppedAfter.2.live.file? ["f"] = some new ∧
    stoppedAfter.2.saved.get? "v1" = some (.other 4096 [([], .dir, .made)]) := by decide

/-- A retained version that was changed after its review. -/
def changedLater : RecoveryReceipt :=
  ⟨"f", some (old.fingerprint Crypto.transparent), none, "w", .retained, none, none⟩

def retained : Tree :=
  ⟨Live.empty, ((∅ : OrdMap String Artifact).insert "w" (.file new)).insert "w.json" (.ofReceipt changedLater)⟩

def restoration : Change := ⟨"f", none, some (new.fingerprint Crypto.transparent), false⟩

/-- The owner restores it, and the application stops before the receipt of the creation is removed. -/
def restored : Option (Result (Option String)) × Tree :=
  applyLocked Crypto.transparent exampleHost exampleStore restoration (some new.bytes) ["w.json"] drawn none 10 retained

theorem fresh_restored : drawn.Fresh retained.saved ["w.json"] where
  version := fresh.version
  noVersion := by decide
  noReceipt := by decide
  noTemporary := by decide
  unnamed name text r found := by
    have each : ∀ e ∈ retained.saved.entries, ∀ r, e.2.value? = some r → r.version = "w" := by
      intro e member r value
      have listed : e = ("w", .file new) ∨ e = ("w.json", .ofReceipt changedLater) := by
        have entries : retained.saved.entries = [("w", .file new), ("w.json", .ofReceipt changedLater)] := by decide
        rw [entries] at member
        simpa using member
      rcases listed with rfl | rfl
      · cases value
      · cases value
        rfl
    rw [each (name, .receipt text r) (OrdMap.get?_eq_some_iff.mp found) r rfl]
    decide
  unignored := by decide

/-- Then the live file has changed, no receipt is pending, and the tree is refused for the receipt that was being
restored. -/
theorem restored_unreviewed : drawn.Fresh retained.saved ["w.json"] ∧ restored.1 = none ∧
    retained.live.file? ["f"] = none ∧ restored.2.live.file? ["f"] = some new ∧
    (∀ e ∈ restored.2.saved.entries, ∀ r ∈ e.2.value?, r.state ≠ .pending) ∧
    checkRecoveryExcept Crypto.transparent restored.2.saved [] ≠ .ok () := by
  refine ⟨fresh_restored, by decide, by decide, by decide, by decide, by decide⟩

end JournalExample

end Clix.Pin
