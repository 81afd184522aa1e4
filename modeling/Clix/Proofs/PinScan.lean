import Clix.Proofs.PinRecovery

/-! # Scanning after a change

A tree that could be scanned can be scanned after a change was applied to it, as far as its entries are not
too many, and the scan differs at the path of the change only.
-/

namespace Clix.Pin

open Except

variable {c : Crypto} {live live' middle : Live} {t t' : Tree} {rel : String} {path : List String}
  {files : Manifest} {node : Option File} {n : Node}

theorem scanNodes_isOk {out : Manifest} {entries : List (List String × Node)}
    (all : ∀ e ∈ entries, ∃ found, scanNode c live e.1 e.2 = .ok found) :
    ∃ files, scanNodes c live out entries = .ok files := by
  induction entries generalizing out with
  | nil => exact ⟨out, rfl⟩
  | cons e rest ih =>
    obtain ⟨⟨found, taken⟩, others⟩ := List.forall_mem_cons.mp all
    rw [scanNodes, taken, ok_bind]
    exact ih others

/-- What a scan needs. -/
theorem scan_isOk (opened : openTree t.live = .ok ()) (reviewed : checkRecoveryExcept c t.saved [] = .ok ())
    (few : (visited t.live).length ≤ maxPinEntries) (shallow : ∀ e ∈ visited t.live, e.1.length ≤ maxDepth)
    (all : ∀ e ∈ visited t.live, ∃ found, scanNode c t.live e.1 e.2 = .ok found) :
    ∃ files, scan c t = .ok files := by
  rw [scan, opened, ok_bind, reviewed, ok_bind, refuseIf_neg, ok_bind]
  · exact scanNodes_isOk all
  · rw [not_or, not_lt]
    push Not
    exact ⟨few, shallow⟩

theorem ensurePassable_eq_ok {rel : String} :
    ensurePassable rel = .ok () ↔ Char.ofNat 0 ∉ rel.toList ∧ rel.utf8ByteSize < 4096 := by
  rw [ensurePassable, refuseIf_bind_eq_ok, refuseIf_eq_ok, not_le]

/-- The plain path of a directory or file that can be read opens it. -/
theorem openat2_of_node? {node : Node} (opened : openTree live = .ok ()) (found : live.node? path = some node)
    (kind : ∀ target, node ≠ .link target) (below : path ≠ []) (passable : ensurePassable (join path) = .ok ())
    (way : live.searched path = true) (readable : live.readable path node = true) :
    openat2 live (join path) = .ok (some (path, node)) := by
  have named := Live.named_of_node? found
  refine openat2_eq_ok.mpr ⟨opened, passable, ?_, fun place' node' same => ?_⟩
  · rw [parts_join named below]
    have walked := walk_of_node? named (show live.node? ([] ++ path) = some node from found) kind below way
    rwa [List.nil_append] at walked
  · cases same
    exact readable

/-- A file under its plain path can be read when nothing about the path, its mode or its size is against it. -/
theorem read_of_file? {f : File} (opened : openTree live = .ok ()) (found : live.file? path = some f)
    (valid : validPath (join path) = .ok ()) (passable : ensurePassable (join path) = .ok ())
    (way : live.searched path = true) (readable : mayRead f.mode = true) (small : f.bytes.length ≤ maxFile) :
    read live (join path) = .ok (some f) := by
  have there := Live.file?_eq_some.mp found
  have below : path ≠ [] := fun top => by rw [top, Live.node?_nil] at there; simp at there
  rw [read, valid, ok_bind, openat2_of_node? opened there (by simp) below passable way readable, ok_bind]
  dsimp only
  rw [refuseIf_neg (not_lt.mpr small), ok_bind]
  rfl

/-- A scan can take a file. -/
theorem scanNode_file {f g : File} (opened : openTree live = .ok ()) (found : live.file? path = some f)
    (valid : validPath (join path) = .ok ()) (passable : ensurePassable (join path) = .ok ())
    (way : live.searched path = true) (readable : mayRead f.mode = true) (small : f.bytes.length ≤ maxFile) :
    ∃ taken, scanNode c live path (.file g) = .ok taken := by
  unfold scanNode
  split_ifs
  · exact ⟨_, rfl⟩
  · dsimp only
    rw [read_of_file? opened found valid passable way readable small, ok_bind]
    exact ⟨_, rfl⟩

theorem openRel_eq_ok (rel : String) : openRel live rel = .ok () ↔ ∃ place, openat2 live rel = .ok (some (place, .dir)) := by
  rw [openRel, bind_eq_ok]
  constructor
  · rintro ⟨found, opened, success⟩
    rcases found with _ | ⟨place, _ | f | target | _⟩
    · cases success
    · exact ⟨place, opened⟩
    · cases success
    · cases success
    · cases success
  · rintro ⟨place, opened⟩
    exact ⟨_, opened, rfl⟩

/-- A scan can take a directory. -/
theorem scanNode_dir (opened : openTree live = .ok ()) (found : live.node? path = some .dir) (below : path ≠ [])
    (passable : ensurePassable (join path) = .ok ()) (way : live.searched path = true)
    (listable : live.listable path = true) : ∃ taken, scanNode c live path .dir = .ok taken := by
  unfold scanNode
  split_ifs
  · exact ⟨_, rfl⟩
  · dsimp only
    rw [(openRel_eq_ok _).mpr ⟨path, openat2_of_node? opened found (by simp) below passable way listable⟩, ok_bind]
    exact ⟨_, rfl⟩

/-- What made a scan take an entry. -/
theorem scanNode_kind {found : Option Fingerprint} (kept : excluded (join path) = false)
    (success : scanNode c live path n = .ok found) :
    (n = .dir ∧ openRel live (join path) = .ok ()) ∨ ∃ f g, n = .file g ∧ read live (join path) = .ok (some f) := by
  unfold scanNode at success
  rw [if_neg (by rw [kept]; simp)] at success
  cases n with
  | dir =>
    dsimp only at success
    rw [bind_eq_ok] at success
    obtain ⟨⟨⟩, opened, -⟩ := success
    exact .inl ⟨rfl, opened⟩
  | file g =>
    dsimp only at success
    rw [bind_eq_ok] at success
    obtain ⟨content, readable, success⟩ := success
    cases content with
    | none => cases success
    | some f => exact .inr ⟨f, g, rfl, readable⟩
  | link target => cases success
  | special => cases success

theorem read_passable {f : Option File} (success : read live rel = .ok f) : ensurePassable rel = .ok () := by
  rw [read, bind_eq_ok] at success
  obtain ⟨⟨⟩, -, success⟩ := success
  rw [bind_eq_ok] at success
  obtain ⟨found, opened, -⟩ := success
  exact (openat2_eq_ok.mp opened).2.1

/-- A directory that was opened by its plain path. -/
theorem openRel_access (named : ∀ name ∈ path, Named name) (below : path ≠ [])
    (success : openRel live (join path) = .ok ()) : ensurePassable (join path) = .ok () ∧
      live.searched path = true ∧ live.listable path = true := by
  obtain ⟨place', opened⟩ := (openRel_eq_ok _).mp success
  obtain ⟨-, passable, walked, readable⟩ := openat2_eq_ok.mp opened
  have ends := walk_eq_ok Live.node?_nil walked
  rw [List.nil_append, parts_join named below, names_of_named named] at ends
  obtain ⟨node, -, same⟩ := Option.map_eq_some_iff.mp ends.symm
  cases same
  have way := walk_searched Live.searched_nil walked
  rw [List.nil_append, parts_join named below, names_of_named named] at way
  exact ⟨passable, way, readable _ _ rfl⟩

/-- The text of a directory is a part of the text of what is below it. -/
theorem join_append {dir rest : List String} (below : dir ≠ []) (deeper : rest ≠ []) :
    join (dir ++ rest) = join dir ++ "/" ++ join rest := by
  apply String.ext_iff.mpr
  have split : ∀ xs ys : List (List Char), xs ≠ [] → ys ≠ [] →
      ['/'].intercalate (xs ++ ys) = ['/'].intercalate xs ++ '/' :: ['/'].intercalate ys := by
    intro xs ys
    induction xs with
    | nil => exact fun absent => absurd rfl absent
    | cons x xs ih =>
      intro _ present
      cases xs with
      | nil =>
        cases ys with
        | nil => exact absurd rfl present
        | cons y ys => simp [List.intercalate]
      | cons x' xs =>
        have := ih (by simp) present
        simp only [List.cons_append, List.intercalate, List.intersperse, List.flatten] at this ⊢
        simp_all
  simp only [join, String.toList_ofList, String.toList_append, List.map_append]
  rw [split _ _ (by simpa using below) (by simpa using deeper)]
  simp

theorem ensurePassable_above {dir rest : List String} (below : dir ≠ []) (deeper : rest ≠ [])
    (passable : ensurePassable (join (dir ++ rest)) = .ok ()) : ensurePassable (join dir) = .ok () := by
  rw [ensurePassable_eq_ok, join_append below deeper, String.toList_append, String.toList_append,
    String.utf8ByteSize_append, String.utf8ByteSize_append] at passable
  rw [ensurePassable_eq_ok]
  refine ⟨fun inside => passable.1 ?_, by omega⟩
  exact List.mem_append_left _ (List.mem_append_left _ inside)

/-- A tree after a change was published: directories on the way were made, and the place of the path holds the
new file, or nothing. -/
structure Taken (rel : String) (node : Option File) (live live' : Live) : Prop where
  split : place rel = parentDir rel ++ [fileName rel]
  searched : live'.searched (place rel) = true
  writable : live.writable (parentDir rel) = true
  effect : ∃ middle, live.Opens (parentDir rel) middle ∧ middle.Sets (place rel) (node.map .file) live'

theorem taken_of_published {ids : Ids} {ch : Change} {content : Bytes} {was : Option File} {after : Tree}
    (opens : live.Opens (parentDir ch.path) t.live) (effect : Published ids ch content was t after)
    (settled : live' = after.live) : Taken ch.path (newFile ch content) live live' := by
  subst settled
  refine ⟨effect.placed, ?_, ?_, t.live, opens, effect.live⟩
  · rw [Live.searched_congr effect.live.dirs]
    exact effect.searched
  · have writable := effect.writable
    rwa [Live.writable, opens.dirs] at writable

namespace Taken

theorem file?_of_ne (taken : Taken rel node live live') (differs : path ≠ place rel) :
    live'.file? path = live.file? path := by
  obtain ⟨middle, opens, sets⟩ := taken.effect
  rw [sets.file?_of_ne differs, Live.file?, Live.file?]
  rcases opens.nodes path with same | ⟨absent, made, -⟩
  · rw [same]
  · rw [absent, made]

theorem file? (taken : Taken rel node live live') : live'.file? (place rel) = node := by
  obtain ⟨middle, -, sets⟩ := taken.effect
  rw [Live.file?, sets.nodes, if_pos rfl]
  cases node <;> rfl

theorem dirs (taken : Taken rel node live live') : live'.dirs = live.dirs := by
  obtain ⟨middle, opens, sets⟩ := taken.effect
  rw [sets.dirs, opens.dirs]

theorem openTree_eq (taken : Taken rel node live live') : openTree live' = openTree live :=
  openTree_congr taken.dirs

/-- The nodes after the change: the new file, a directory on the way, or a node from before. -/
theorem cases (taken : Taken rel node live live') (found : live'.node? path = some n) :
    (path = place rel ∧ ∃ f, node = some f ∧ n = .file f) ∨
    (path ≠ place rel ∧ (live.node? path = some n ∨
      (live.node? path = none ∧ n = .dir ∧ ∃ rest, rest ≠ [] ∧ path ++ rest = place rel))) := by
  obtain ⟨middle, opens, sets⟩ := taken.effect
  rw [sets.nodes] at found
  split_ifs at found with here
  · obtain ⟨f, isFile, same⟩ := Option.map_eq_some_iff.mp found
    exact .inl ⟨here, f, isFile, same.symm⟩
  · refine .inr ⟨here, ?_⟩
    rcases opens.nodes path with same | ⟨absent, made, within⟩
    · exact .inl (same ▸ found)
    · rw [made] at found
      cases found
      obtain ⟨rest, same⟩ := List.isPrefixOf_iff_prefix.mp within
      exact .inr ⟨absent, rfl, rest ++ [fileName rel], by simp, by rw [← List.append_assoc, same, taken.split]⟩

/-- A change writes the directories that it makes others in, and the one it is published in. -/
theorem writes (taken : Taken rel node live live') : live.Writes live' := by
  obtain ⟨middle, opens, sets⟩ := taken.effect
  intro dir name isDir differs
  rw [sets.nodes] at differs
  split_ifs at differs with here
  · rw [taken.split] at here
    rw [(List.append_inj' here rfl).1]
    exact taken.writable
  · exact opens.writes dir name isDir differs

theorem keeps (taken : Taken rel node live live') (found : live.node? path = some n)
    (elsewhere : path ≠ place rel) : live'.node? path = some n := by
  obtain ⟨middle, opens, sets⟩ := taken.effect
  rw [sets.nodes, if_neg elsewhere, opens.keeps found]

end Taken

/-- Everything in a tree can be taken by a scan, however many entries there are. -/
structure Legible (c : Crypto) (t : Tree) : Prop where
  opened : openTree t.live = .ok ()
  reviewed : checkRecoveryExcept c t.saved [] = .ok ()
  shallow : ∀ e ∈ visited t.live, e.1.length ≤ maxDepth
  taken : ∀ e ∈ visited t.live, ∃ found, scanNode c t.live e.1 e.2 = .ok found

namespace Legible

theorem of_scan (success : scan c t = .ok files) : Legible c t :=
  ⟨scan_opens success, (scan_eq_ok success).1, (scan_eq_ok success).2.2.1, fun _ listed => scan_all success listed⟩

theorem scan (legible : Legible c t) (few : (visited t.live).length ≤ maxPinEntries) :
    ∃ files, scan c t = .ok files := scan_isOk legible.opened legible.reviewed few legible.shallow legible.taken

/-- A published change keeps a tree legible. -/
theorem change (before : Legible c t) (taken : Taken rel node t.live t'.live)
    (small : ∀ f, node = some f → f.bytes.length ≤ maxFile) (readable : ∀ f, node = some f → mayRead f.mode = true)
    (valid : validPath rel = .ok ()) (passable : ensurePassable rel = .ok ()) (plain : place rel = parts rel)
    (shallow : (place rel).length ≤ maxDepth) (reviewed : checkRecoveryExcept c t'.saved [] = .ok ()) :
    Legible c t' := by
  have spelled : join (place rel) = rel := by rw [plain, join_parts]
  have opened : openTree t'.live = .ok () := taken.openTree_eq.trans before.opened
  have each (e : List String × Node) (listed : e ∈ visited t'.live) :
      e.1.length ≤ maxDepth ∧ ∃ found, scanNode c t'.live e.1 e.2 = .ok found := by
    obtain ⟨found, below, named⟩ := file?_of_visited listed
    rcases taken.cases found with ⟨here, f, isNew, isFile⟩ | ⟨elsewhere, old | ⟨absent, made, rest, deeper, onTheWay⟩⟩
    · rw [here, isFile]
      refine ⟨shallow, scanNode_file (f := f) opened ?_ (spelled.symm ▸ valid) (spelled.symm ▸ passable)
        taken.searched (readable f isNew) (small f isNew)⟩
      rw [← isNew, taken.file?]
    · have was : e ∈ visited t.live := by
        rw [Live.node?_of_ne_nil below] at old
        exact List.mem_filter.mpr ⟨OrdMap.get?_eq_some_iff.mp old, (List.mem_filter.mp listed).2⟩
      refine ⟨before.shallow e was, ?_⟩
      obtain ⟨taken', ok⟩ := before.taken e was
      cases skipped : excluded (join e.1) with
      | true =>
        unfold scanNode
        rw [if_pos skipped]
        exact ⟨_, rfl⟩
      | false =>
        have way : t'.live.searched e.1 = t.live.searched e.1 := Live.searched_congr taken.dirs
        rcases scanNode_kind skipped ok with ⟨isDir, openable⟩ | ⟨f, g, isFile, readable'⟩
        · rw [isDir] at found ⊢
          obtain ⟨passable', way', listable⟩ := openRel_access named below openable
          refine scanNode_dir opened found below passable' (way.trans way') ?_
          rw [Live.listable, taken.dirs]
          exact listable
        · rw [isFile] at found old ⊢
          obtain ⟨valid', -, content, -, small'⟩ := read_eq_ok readable'
          obtain ⟨-, way', mode⟩ := read_access readable'
          have mode := mode f rfl
          rw [place_join named below] at content way'
          have now : t'.live.file? e.1 = some f := by rw [taken.file?_of_ne elsewhere, content]
          exact scanNode_file opened now valid' (read_passable readable') (way.trans way') mode (small' f rfl)
    · rw [made] at found ⊢
      have openable : ensurePassable (join e.1) = .ok () :=
        ensurePassable_above below deeper (by rw [onTheWay, spelled]; exact passable)
      have length := congrArg List.length onTheWay
      rw [List.length_append] at length
      have way : t'.live.searched e.1 = true := Live.searched_of_append (onTheWay.symm ▸ taken.searched)
      refine ⟨by omega, scanNode_dir opened found below openable way ?_⟩
      -- A directory of this program can be listed.
      rw [Live.listable, taken.dirs, Live.dirs_of_leaf below (by rw [absent]; simp)]
      rfl
  exact ⟨opened, reviewed, fun e listed => (each e listed).1, fun e listed => (each e listed).2⟩

end Legible

/-- What a scan finds at a path after a change. -/
theorem scanned_taken (taken : Taken rel node live live') (valid : validPath rel = .ok ())
    (plain : place rel = parts rel) (p : String) : scanned c live' (parts p) =
      if p = rel then node.map (·.fingerprint c) else scanned c live (parts p) := by
  rw [scanned, scanned]
  by_cases here : p = rel
  · subst here
    rw [if_pos rfl, join_parts, (validPath_eq_ok.mp valid).2.2, ← plain, taken.file?]
    rfl
  · rw [if_neg here, taken.file?_of_ne (fun same => here (by rw [← join_parts p, same, plain, join_parts]))]

/-- A change keeps a tree scannable, as far as its entries are not too many. -/
theorem scan_taken (before : scan c t = .ok files) (taken : Taken rel node t.live t'.live)
    (small : ∀ f, node = some f → f.bytes.length ≤ maxFile) (readable : ∀ f, node = some f → mayRead f.mode = true)
    (valid : validPath rel = .ok ()) (passable : ensurePassable rel = .ok ()) (plain : place rel = parts rel)
    (shallow : (place rel).length ≤ maxDepth) (reviewed : checkRecoveryExcept c t'.saved [] = .ok ())
    (few : (visited t'.live).length ≤ maxPinEntries) : ∃ files', scan c t' = .ok files' ∧
      ∀ p, files'.get? p = if p = rel then node.map (·.fingerprint c) else files.get? p := by
  obtain ⟨files', success⟩ :=
    ((Legible.of_scan before).change taken small readable valid passable plain shallow reviewed).scan few
  refine ⟨files', success, fun p => ?_⟩
  rw [(scan_eq_ok success).2.2.2, (scan_eq_ok before).2.2.2, scanned_taken taken valid plain]

end Clix.Pin
