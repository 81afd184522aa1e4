import Clix.Proofs.PinReady

/-! # Applications that succeed

An application that passed its checks succeeds when its IDs are new and nothing but directories is above its
path: no operation of it has another reason to fail.
-/

namespace Clix.Pin

open Except

variable {c : Crypto} {host : Host} {s : Store} {t t' after : Tree} {ch : Change} {bytes : Option Bytes}
  {ids : Ids} {rel name tmp version : String} {live : Live} {op : Op} {ops rest : List Op} {dir path : List String}
  {r : RecoveryReceipt} {content : Bytes} {f : File}

theorem performAll_cons (done : op t = .ok t') : performAll (op :: rest) t = performAll rest t' := by
  rw [performAll, done]

theorem performAll_append (done : performAll ops t = (.ok (), t')) :
    performAll (ops ++ rest) t = performAll rest t' := by
  induction ops generalizing t with
  | nil =>
    cases done
    rfl
  | cons op others ih =>
    rw [performAll] at done
    cases first : op t with
    | error e =>
      rw [first] at done
      cases done
    | ok next =>
      rw [first] at done
      rw [List.cons_append, performAll_cons first, ih done]

theorem performAll_writeSaved {artifact : Artifact} : performAll (writeSaved name artifact :: rest) t =
    performAll rest { t with saved := t.saved.insert name artifact } := rfl

/-! ## What is above a path -/

/-- Nothing is in the way of a file at a path: what is above it is missing or a directory that can be listed. -/
structure Clear (live : Live) (path : List String) : Prop where
  named : ∀ part ∈ path, Named part
  foreign : path.head? ≠ some recovery
  above : ∀ dir rest, rest ≠ [] → dir ++ rest = path → live.node? dir = none ∨ live.node? dir = some .dir
  listable : ∀ dir rest, rest ≠ [] → dir ++ rest = path → live.listable dir = true

/-- The directories on the way to a path let a file be put there: each can be searched, and the last one that is
there can be written. -/
structure Passage (live : Live) (path : List String) : Prop where
  searched : live.searched path = true
  writable : ∀ dir name rest, dir ++ name :: rest = path → live.node? dir = some .dir →
    live.node? (dir ++ [name]) ≠ some .dir → live.writable dir = true

theorem Passage.of_made (made : ∀ dir, live.dirs dir = .made) (path : List String) : Passage live path :=
  ⟨Live.searched_of_made made path, fun dir _ _ _ _ _ => Live.writable_of_made made dir⟩

/-- Making directories on the way to a path puts nothing in the way. -/
theorem Clear.opens {live' : Live} {target : List String} (clear : Clear live path)
    (opens : live.Opens target live') : Clear live' path where
  named := clear.named
  foreign := clear.foreign
  above dir rest deeper same := by
    rcases opens.nodes dir with kept | ⟨-, made, -⟩
    · rw [kept]
      exact clear.above dir rest deeper same
    · exact .inr made
  listable dir rest deeper same := by
    rw [Live.listable, opens.dirs]
    exact clear.listable dir rest deeper same

/-- The directories that are made can be used. -/
theorem Passage.opens {live' : Live} {target : List String} (passage : Passage live path)
    (opens : live.Opens target live') : Passage live' path where
  searched := (Live.searched_congr opens.dirs).trans passage.searched
  writable dir name rest within isDir last := by
    rw [Live.writable, opens.dirs]
    rcases opens.nodes dir with kept | ⟨absent, -, -⟩
    · refine passage.writable dir name rest within (kept ▸ isDir) (fun next => ?_)
      rcases opens.nodes (dir ++ [name]) with same | ⟨absent, -, -⟩
      · exact last (same.trans next)
      · rw [absent] at next
        cases next
    · have below : dir ≠ [] := by
        rintro rfl
        rw [Live.node?_nil] at absent
        cases absent
      rw [Live.dirs_of_leaf below (by rw [absent]; simp)]
      rfl

theorem parentOps_done (t : Tree) (dir : List String) {ps tail : List String} (opened : t.live.node? dir = some .dir)
    (last : tail ≠ []) (clear : Clear t.live (dir ++ ps ++ tail)) (passage : Passage t.live (dir ++ ps ++ tail)) :
    ∃ live', performAll (parentOps dir ps) t = (.ok (), ⟨live', t.saved⟩) ∧ live'.node? (dir ++ ps) = some .dir := by
  induction ps generalizing dir t with
  | nil => exact ⟨t.live, rfl, by rwa [List.append_nil]⟩
  | cons part others ih =>
    have whole : dir ++ part :: others ++ tail = dir ++ part :: (others ++ tail) := by
      rw [List.append_assoc, List.cons_append]
    have deeper : others ++ tail ≠ [] := by simp [last]
    have plain : Named part := clear.named part (by simp)
    have searchable : t.live.searchable dir = true :=
      Live.searchable_of_searched (by simp) (whole ▸ passage.searched)
    -- The directory is there, or it is made.
    have made : ∃ live', mkdirat dir part t = .ok ⟨live', t.saved⟩ ∧ live'.node? (dir ++ [part]) = some .dir ∧
        t.live.Opens (dir ++ [part]) live' := by
      rcases clear.above (dir ++ [part]) (others ++ tail) deeper (by simp) with absent | present
      · have fits : t.live.Fits dir part := by
          refine ⟨opened, plain, by rw [absent]; simp, ?_⟩
          have foreign := clear.foreign
          rwa [whole, List.append_cons, List.head?_append_of_ne_nil _ (by simp)] at foreign
        have writable := passage.writable dir part (others ++ tail) whole.symm opened (by rw [absent]; simp)
        have done : mkdirat dir part t = .ok { t with live := t.live.put dir part .dir fits } := by
          rw [mkdirat, if_neg plain.1, if_neg (by rw [searchable]; simp), if_neg plain.2.1,
            if_neg (not_lt.mpr plain.2.2.2.2), absent]
          dsimp only
          rw [if_neg (by rw [writable]; simp), dif_pos fits]
        refine ⟨_, done, ?_, mkdirat_opens (List.isPrefixOf_iff_prefix.mpr List.prefix_rfl) done⟩
        rw [Live.node?_put, if_pos rfl]
      · refine ⟨t.live, ?_, present, .refl _ _⟩
        rw [mkdirat, if_neg plain.1, if_neg (by rw [searchable]; simp), if_neg plain.2.1,
          if_neg (not_lt.mpr plain.2.2.2.2), present]
    obtain ⟨live', done, here, opens⟩ := made
    have listable : live'.listable (dir ++ [part]) = true :=
      (clear.opens opens).listable (dir ++ [part]) (others ++ tail) deeper (by simp)
    have openable : openat dir part ⟨live', t.saved⟩ = .ok ⟨live', t.saved⟩ := by
      rw [openat, if_neg (by rw [Live.searchable, opens.dirs]; simpa [Live.searchable] using searchable),
        if_neg plain.2.1, here]
      dsimp only
      rw [if_neg (by rw [listable]; simp)]
    have same : dir ++ [part] ++ others ++ tail = dir ++ part :: others ++ tail := by simp
    obtain ⟨live'', ran, reached⟩ := ih ⟨live', t.saved⟩ (dir ++ [part]) here (same ▸ clear.opens opens)
      (same ▸ passage.opens opens)
    rw [parentOps, performAll_cons done, performAll_cons openable, if_neg plain.2.1]
    exact ⟨live'', ran, by rwa [List.append_assoc, List.singleton_append] at reached⟩

/-! ## The recovery directory -/

theorem writeReceipt_done (absent : t.saved.get? (tmp ++ ".tmp") = none) :
    performAll (writeReceipt tmp name r) t = (.ok (), { t with saved := noted tmp name r t.saved }) := by
  have created : createExcl (tmp ++ ".tmp") (.file ⟨[], 0o600⟩) t =
      .ok { t with saved := t.saved.insert (tmp ++ ".tmp") (.file ⟨[], 0o600⟩) } := by
    rw [createExcl, absent]
  have renamed : renameSaved (tmp ++ ".tmp") name { t with
      saved := (t.saved.insert (tmp ++ ".tmp") (.file ⟨[], 0o600⟩)).insert (tmp ++ ".tmp") (.ofReceipt r) } =
      .ok { t with saved := noted tmp name r t.saved } := by
    have there : ((t.saved.insert (tmp ++ ".tmp") (.file ⟨[], 0o600⟩)).insert (tmp ++ ".tmp")
        (.ofReceipt r)).get? (tmp ++ ".tmp") = some (.ofReceipt r) := OrdMap.get?_insert_self _ _ _
    have moved_eq : moved (tmp ++ ".tmp") name ((t.saved.insert (tmp ++ ".tmp") (.file ⟨[], 0o600⟩)).insert
        (tmp ++ ".tmp") (.ofReceipt r)) = noted tmp name r t.saved := moved_noted
    rw [moved, there] at moved_eq
    rw [renameSaved, there]
    dsimp only at moved_eq ⊢
    rw [moved_eq]
  rw [writeReceipt, performAll_cons created, performAll_writeSaved, performAll_cons renamed]
  rfl

theorem stageOps_done {mode : UInt32} (absent : t.saved.get? version = none) :
    performAll (stageOps version content mode) t =
      (.ok (), { t with saved := t.saved.insert version (.file ⟨content, mode⟩) }) := by
  have created : createExcl version (.file ⟨[], 0o600⟩) t =
      .ok { t with saved := t.saved.insert version (.file ⟨[], 0o600⟩) } := by
    rw [createExcl, absent]
  have overwritten : ((t.saved.insert version (.file ⟨[], 0o600⟩)).insert version (.file ⟨content, 0o600⟩)).insert
      version (.file ⟨content, mode⟩) = t.saved.insert version (.file ⟨content, mode⟩) := by
    refine OrdMap.ext_get? (fun other => ?_)
    simp only [OrdMap.get?_insert]
    split_ifs <;> rfl
  rw [stageOps, performAll_cons created, performAll_writeSaved, performAll_writeSaved, performAll]
  dsimp only
  rw [overwritten]

/-! ## A whole application -/

/-- The IDs of an application and its temporary files are new. -/
structure Ids.Free (ids : Ids) (saved : OrdMap String Artifact) : Prop where
  fresh : ids.Fresh saved []
  noSecond : saved.get? (ids.second ++ ".tmp") = none

theorem plain_split (plain : place rel = parts rel) :
    (parts rel).dropLast = parentDir rel ∧ parentDir rel ++ [fileName rel] = place rel := by
  have below : parts rel ≠ [] := by simp [parts]
  have each : ∀ part ∈ parts rel, (part != "" && part != ".") = true := List.filter_eq_self.mp plain
  have above : (parts rel).dropLast = parentDir rel := by
    refine (List.filter_eq_self.mpr (fun part member => ?_)).symm
    exact (Bool.and_eq_true_iff.mp (each part ((List.dropLast_sublist _).subset member))).2
  refine ⟨above, ?_⟩
  rw [← above, fileName, List.getLastD_eq_getLast?, List.getLast?_eq_some_getLast below, Option.getD_some,
    List.dropLast_append_getLast, plain]

/-- The operations before the publication. -/
theorem journal_done (ch : Change) (content : Bytes) (free : ids.Free t.saved) (plain : place ch.path = parts ch.path)
    (clear : Clear t.live (place ch.path)) (passage : Passage t.live (place ch.path)) : ∃ middle,
    performAll (journalOps ids ch content []) t = (.ok (), middle) ∧
      middle.live.node? (parentDir ch.path) = some .dir := by
  obtain ⟨above, split⟩ := plain_split plain
  have whole : [] ++ parentDir ch.path ++ [fileName ch.path] = place ch.path := split
  obtain ⟨live', made, opened⟩ := parentOps_done t [] Live.node?_nil (by simp) (whole ▸ clear) (whole ▸ passage)
  rw [List.nil_append] at opened
  have absent : t.saved.get? ids.version = none := free.fresh.noVersion
  have noted_version : (noted ids.first ids.receiptName (receiptOf ids ch [] .pending) t.saved).get? ids.version =
      none := by
    have distinct : ids.version ≠ ids.receiptName := free.fresh.version.ne_append (by decide)
    rw [get?_noted free.fresh.noTemporary, if_neg distinct, absent]
  have written : performAll (writeReceipt ids.first ids.receiptName (receiptOf ids ch [] .pending)) ⟨live', t.saved⟩ =
      (.ok (), ⟨live', noted ids.first ids.receiptName (receiptOf ids ch [] .pending) t.saved⟩) :=
    writeReceipt_done free.fresh.noTemporary
  rw [journalOps, above, List.append_assoc, performAll_append made, performAll_append written]
  cases ch.new with
  | none => exact ⟨_, rfl, opened⟩
  | some new =>
    dsimp only
    rw [stageOps_done noted_version]
    exact ⟨_, rfl, opened⟩

/-- The operations after the publication. -/
theorem settle_done (ch : Change) {expected : Option Fingerprint} (same : ch.expected = expected)
    (version : ∀ fp, expected = some fp → ∃ f, t.saved.get? ids.version = some (.file f) ∧
      mayRead f.mode = true ∧ fingerprint c (f.bytes.take (maxFile + 1)) (permissions f.mode) = fp)
    (absent : t.saved.get? (ids.second ++ ".tmp") = none) :
    ∃ t', performAll (settleOps c ids ch []) t = (.ok (), t') := by
  rw [settleOps, same]
  cases expected with
  | some fp =>
    obtain ⟨f, found, readable, digest⟩ := version fp rfl
    have verified : verify c ids ch fp t = .ok t := by
      rw [verify, found]
      dsimp only
      rw [refuseIf_neg (by rw [readable]; simp), ok_bind, refuseIf_neg (not_not.mpr digest), ok_bind]
      rfl
    dsimp only
    rw [performAll_cons verified, writeReceipt_done absent]
    exact ⟨_, rfl⟩
  | none =>
    dsimp only
    rw [performAll_append (writeReceipt_done absent)]
    have there : (noted ids.second ids.receiptName (receiptOf ids ch [] .resolved) t.saved).get? ids.receiptName =
        some (.ofReceipt (receiptOf ids ch [] .resolved)) := by
      rw [get?_noted absent, if_pos rfl]
    have unlinked : unlinkSaved ids.receiptName
        { t with saved := noted ids.second ids.receiptName (receiptOf ids ch [] .resolved) t.saved } =
        .ok { t with saved := ((noted ids.second ids.receiptName (receiptOf ids ch [] .resolved) t.saved).erase
          ids.receiptName) } := by
      rw [unlinkSaved, there]
    rw [performAll_cons unlinked]
    exact ⟨_, rfl⟩

/-- The publication, where the staged content and the live file are as they were checked. -/
theorem publish_done {current : Option File} (split : parentDir ch.path ++ [fileName ch.path] = place ch.path)
    (clear : Clear t.live (place ch.path)) (passage : Passage t.live (place ch.path))
    (opened : t.live.node? (parentDir ch.path) = some .dir)
    (here : t.live.node? (place ch.path) = current.map .file) (known : current.isSome = ch.expected.isSome)
    (wanted : ch.expected.isSome = true ∨ ch.new.isSome = true)
    (staged : t.saved.get? ids.version = ch.new.map (fun new => .file ⟨content, new.mode⟩)) :
    ∃ after, publishOp ids ch t = .ok after := by
  have leaf : t.live.node? (place ch.path) ≠ some .dir := by
    rw [here]
    cases current <;> simp
  have named : Named (fileName ch.path) := clear.named _ (by rw [← split]; simp)
  have foreign := clear.foreign
  have searched := passage.searched
  have writable := passage.writable (parentDir ch.path) (fileName ch.path) [] split opened
  rw [← split] at here leaf foreign searched
  have movable : t.live.movable (parentDir ch.path) (fileName ch.path) = true := by
    rw [Live.movable, writable leaf, (Live.searched_append_singleton.mp searched).2]
    simp [leaf]
  have fits : t.live.Fits (parentDir ch.path) (fileName ch.path) := ⟨opened, named, leaf, foreign⟩
  have cutFits : (t.live.cut (parentDir ch.path) (fileName ch.path)).Fits (parentDir ch.path) (fileName ch.path) := by
    refine ⟨?_, named, ?_, foreign⟩ <;> rw [Live.node?_cut]
    · rw [if_neg, opened]
      intro within
      have short := (List.isPrefixOf_iff_prefix.mp within).length_le
      rw [List.length_append, List.length_singleton] at short
      omega
    · rw [if_pos (List.isPrefixOf_iff_prefix.mpr List.prefix_rfl)]
      simp
  unfold publishOp
  cases hasNew : ch.new with
  | some new =>
    rw [hasNew] at staged
    cases expected : ch.expected with
    | some fp =>
      rw [expected] at known
      obtain ⟨f, rfl⟩ := Option.isSome_iff_exists.mp known
      have taken := taken_of_file? (Live.file?_eq_some.mpr here)
      dsimp only
      rw [exchange, staged, taken]
      dsimp only [Option.map_some]
      rw [dif_pos ⟨cutFits, movable⟩]
      exact ⟨_, rfl⟩
    | none =>
      rw [expected] at known
      obtain rfl : current = none := by simpa using known
      dsimp only
      rw [moveIn, staged, here]
      dsimp only [Option.map_some, Option.map_none]
      rw [dif_pos ⟨fits, movable⟩]
      exact ⟨_, rfl⟩
  | none =>
    rw [hasNew] at staged wanted
    have present : current.isSome = true := known.trans (wanted.resolve_right (by simp))
    obtain ⟨f, rfl⟩ := Option.isSome_iff_exists.mp present
    have taken := taken_of_file? (Live.file?_eq_some.mpr here)
    rw [Option.map_none] at staged
    dsimp only
    rw [moveOut, staged, taken]
    dsimp only
    rw [if_pos movable]
    exact ⟨_, rfl⟩

/-- An application that passed its checks succeeds. -/
theorem apply_succeeds (locked : recoveryLock host t.live = .ok ())
    (checked : applyChecks c host s t ch bytes [] = .ok true) (free : ids.Free t.saved) (plain : place ch.path = parts ch.path)
    (clear : Clear t.live (place ch.path)) (passage : Passage t.live (place ch.path)) :
    ∃ t', apply c host s ch bytes ids t = (.ok (), t') := by
  obtain ⟨current, admitted, ⟨done, -⟩ | ⟨-, differs, expected, -, -⟩⟩ := applyChecks_eq_ok.mp checked
  · cases done
  have split := (plain_split plain).2
  obtain ⟨-, -, found, known, small⟩ := read_eq_ok admitted.readable
  obtain ⟨middle, ready, opened⟩ := journal_done ch (bytes.getD []) free plain clear passage
  have performed := perform_performAll ready
  have opens := perform_journal_opens performed
  have saved := journalOps_saved_alone performed
  have here : middle.live.node? (place ch.path) = current.map .file := by
    rw [opens.at_place split.symm]
    cases current with
    | none => simpa using known
    | some f => exact Live.file?_eq_some.mp found.symm
  have wanted : ch.expected.isSome = true ∨ ch.new.isSome = true := by
    by_contra neither
    rw [not_or, Bool.not_eq_true, Bool.not_eq_true, Option.isSome_eq_false_iff, Option.isSome_eq_false_iff,
      Option.isNone_iff_eq_none, Option.isNone_iff_eq_none] at neither
    exact differs (by rw [expected, neither.1, neither.2])
  have staged : middle.saved.get? ids.version = ch.new.map (fun new => .file ⟨bytes.getD [], new.mode⟩) := by
    have distinct : ids.version ≠ ids.receiptName := free.fresh.version.ne_append (by decide)
    rw [saved, journaled]
    cases ch.new with
    | none =>
      dsimp only
      rw [get?_noted free.fresh.noTemporary, if_neg distinct, free.fresh.noVersion]
      rfl
    | some new => exact OrdMap.get?_insert_self _ _ _
  obtain ⟨after, publishes⟩ := publish_done split (clear.opens opens) (passage.opens opens) opened here
    (by rw [← expected, Option.isSome_map]) wanted staged
  have effect := published_of_ready admitted.readable (fun same => differs (expected.trans same)) performed publishes
  have noSecond : after.saved.get? (ids.second ++ ".tmp") = none := by
    have notVersion : ids.second ++ ".tmp" ≠ ids.version := Ne.symm (free.fresh.version.ne_append (by decide))
    have notReceipt : ids.second ++ ".tmp" ≠ ids.receiptName := Ne.symm (receiptName_ne_tmp ids ids.second)
    rw [effect.saved, if_neg notVersion, saved, journaled]
    cases ch.new with
    | none =>
      dsimp only
      rw [get?_noted free.fresh.noTemporary, if_neg notReceipt, free.noSecond]
    | some new =>
      dsimp only
      rw [OrdMap.get?_insert_of_ne _ _ notVersion, get?_noted free.fresh.noTemporary, if_neg notReceipt,
        free.noSecond]
  obtain ⟨t', settled⟩ := settle_done ch rfl (fun fp isExpected => by
    rw [isExpected] at expected
    obtain ⟨f, rfl, digest⟩ := Option.map_eq_some_iff.mp expected
    have whole : f.bytes.take (maxFile + 1) = f.bytes :=
      List.take_of_length_le (by have := small f rfl; omega)
    refine ⟨f, ?_, (read_access admitted.readable).2.2 f rfl, by rw [whole]; exact digest⟩
    rw [effect.saved, if_pos rfl, Option.map_some]) noSecond
  refine ⟨t', apply_eq_ok.mpr ⟨locked, ?_⟩⟩
  rw [applyUndisturbed, checked]
  dsimp only
  rw [performAll_append ready, performAll_cons publishes, settled]

end Clix.Pin
