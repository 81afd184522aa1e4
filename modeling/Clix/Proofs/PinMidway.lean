import Clix.Proofs.PinForward

/-! # A synchronization on its way

While no file of one tree is a directory of the other, nothing is in the way of any change of a plan: each tree
holds the merge at the paths that are done and its own files at the others, and a directory is added only above
a file of the merge.
-/

namespace Clix.Pin

open Except

variable {c : Crypto} {live live' start : Live} {t t' : Tree} {rel a b : String} {dir path below : List String}
  {files merged loc rem base : Manifest} {changes rest : List Change} {ch : Change} {node : Option File}
  {n : Node}

/-! ## Paths above a path -/

theorem excluded_join (named : ∀ part ∈ path, Named part) (below : path ≠ []) :
    excluded (join path) = path.contains ".git" := by
  rw [excluded, parts_join named below]

/-- Nothing above or at a valid path is excluded. -/
theorem kept_of_valid (valid : validPath rel = .ok ()) (named : ∀ part ∈ parts rel, Named part) (top : dir ≠ [])
    (within : dir ++ below = parts rel) : excluded (join dir) = false := by
  have kept := (validPath_eq_ok.mp valid).2.2
  rw [excluded, ← within, List.contains_eq_mem, decide_eq_false_iff_not, List.mem_append, not_or] at kept
  rw [excluded_join (fun part member => named part (within ▸ List.mem_append_left _ member)) top,
    List.contains_eq_mem, decide_eq_false_iff_not]
  exact kept.1

/-! ## Trees that a scan can take -/

/-- What a scan can take is a directory or a file it reads. -/
theorem Legible.kind (legible : Legible c t) (found : t.live.node? path = some n) (top : path ≠ [])
    (kept : excluded (join path) = false) : n = .dir ∨ ∃ f, n = .file f ∧ read t.live (join path) = .ok (some f) := by
  have named := Live.named_of_node? found
  have listed : (path, n) ∈ visited t.live := by
    refine List.mem_filter.mpr ⟨OrdMap.get?_eq_some_iff.mp (by rwa [← Live.node?_of_ne_nil top]), ?_⟩
    rw [excluded_join named top, List.contains_eq_mem, decide_eq_false_iff_not] at kept
    rw [Bool.not_eq_true', List.contains_eq_mem, decide_eq_false_iff_not]
    exact fun member => kept ((List.dropLast_sublist _).subset member)
  obtain ⟨taken, ok⟩ := legible.taken _ listed
  rcases scanNode_kind kept ok with ⟨isDir, -⟩ | ⟨f, g, isFile, readable⟩
  · exact .inl isDir
  · have content := (read_eq_ok readable).2.2.1
    have same : n = .file g := isFile
    rw [place_join named top, Live.file?, found, same] at content
    cases content
    exact .inr ⟨f, same, readable⟩

/-- Directories that a scan can take can be listed. -/
theorem Legible.listable (legible : Legible c t) (found : t.live.node? path = some .dir) (top : path ≠ [])
    (kept : excluded (join path) = false) : t.live.listable path = true := by
  have named := Live.named_of_node? found
  rw [excluded_join named top, List.contains_eq_mem, decide_eq_false_iff_not] at kept
  have listed : (path, Node.dir) ∈ visited t.live := by
    refine List.mem_filter.mpr ⟨OrdMap.get?_eq_some_iff.mp (by rwa [← Live.node?_of_ne_nil top]), ?_⟩
    rw [Bool.not_eq_true', List.contains_eq_mem, decide_eq_false_iff_not]
    exact fun member => kept ((List.dropLast_sublist _).subset member)
  obtain ⟨taken, ok⟩ := legible.taken _ listed
  have skipped : excluded (join path) = false := by
    rwa [excluded_join named top, List.contains_eq_mem, decide_eq_false_iff_not]
  rcases scanNode_kind skipped ok with ⟨-, opened⟩ | ⟨f, g, isFile, -⟩
  · exact (openRel_access named top opened).2.2
  · cases isFile

/-- Where a scan finds nothing above a path, nothing is in its way. -/
theorem Legible.clear (legible : Legible c t) (valid : validPath rel = .ok ()) (named : ∀ part ∈ parts rel, Named part)
    (nothing : ∀ dir below, dir ≠ [] → below ≠ [] → dir ++ below = parts rel → scanned c t.live dir = none) :
    Clear t.live (parts rel) := by
  have above (dir below : List String) (deeper : below ≠ []) (within : dir ++ below = parts rel) :
      t.live.node? dir = none ∨ t.live.node? dir = some .dir := by
    by_cases top : dir = []
    · rw [top]
      exact .inr Live.node?_nil
    · have kept := kept_of_valid valid named top within
      cases found : t.live.node? dir with
      | none => exact .inl rfl
      | some n =>
        rcases legible.kind found top kept with isDir | ⟨f, isFile, -⟩
        · exact .inr (by rw [isDir])
        · have absent := nothing dir below top deeper within
          rw [scanned, if_neg (by rw [kept]; simp), Live.file?, found, isFile] at absent
          cases absent
  refine ⟨named, fun top => (validPath_eq_ok.mp valid).2.1 (List.mem_of_mem_head? top), above,
    fun dir below deeper within => ?_⟩
  by_cases top : dir = []
  · rw [top]
    exact (openTree_eq_ok.mp legible.opened).1
  · rcases above dir below deeper within with absent | isDir
    · rw [Live.listable, Live.dirs_of_leaf top (by rw [absent]; simp)]
      rfl
    · exact legible.listable isDir top (kept_of_valid valid named top within)

/-- A path whose place holds a file that a scan takes can be read. -/
theorem Legible.read_file (legible : Legible c t) (valid : validPath rel = .ok ()) {fp : Fingerprint}
    (found : scanned c t.live (parts rel) = some fp) :
    ∃ f, read t.live rel = .ok (some f) ∧ f.fingerprint c = fp := by
  have kept := (validPath_eq_ok.mp valid).2.2
  rw [scanned, join_parts, if_neg (by rw [kept]; simp)] at found
  obtain ⟨f, isFile, same⟩ := Option.map_eq_some_iff.mp found
  have there := Live.file?_eq_some.mp isFile
  have top : parts rel ≠ [] := by simp [parts]
  rcases legible.kind there top (by rw [join_parts]; exact kept) with isDir | ⟨g, isFile', readable⟩
  · cases isDir
  · cases isFile'
    rw [join_parts] at readable
    exact ⟨f, readable, same⟩

theorem walk_of_absent (named : ∀ part ∈ below, Named part) (deeper : below ≠ [])
    (above : ∀ ps qs, qs ≠ [] → ps ++ qs = below → live.node? (dir ++ ps) = none ∨ live.node? (dir ++ ps) = some .dir)
    (absent : live.node? (dir ++ below) = none) (way : live.searched (dir ++ below) = true) :
    walk live dir below = .ok none := by
  induction below generalizing dir with
  | nil => exact absurd rfl deeper
  | cons part others ih =>
    obtain ⟨plain, namedOthers⟩ := List.forall_mem_cons.mp named
    rw [walk, if_neg plain.1, if_neg (by simp [Live.searchable_of_searched deeper way]), if_neg plain.2.1,
      if_neg (not_lt.mpr plain.2.2.2.2)]
    by_cases last : others = []
    · rw [last] at absent
      rw [absent]
    · rcases above [part] others last rfl with none | isDir
      · rw [none]
      · rw [isDir]
        dsimp only
        refine ih namedOthers last (fun ps qs more within => ?_) ?_ ?_
        · rw [List.append_assoc, List.singleton_append]
          exact above (part :: ps) qs more (by rw [List.cons_append, within])
        · rwa [List.append_assoc, List.singleton_append]
        · rwa [List.append_assoc, List.singleton_append]

/-- A path with nothing at it or in its way reads as absent. -/
theorem read_of_clear (opened : openTree live = .ok ()) (clear : Clear live (parts rel))
    (way : live.searched (parts rel) = true) (absent : live.node? (parts rel) = none)
    (valid : validPath rel = .ok ()) (passable : ensurePassable rel = .ok ()) : read live rel = .ok none := by
  have top : parts rel ≠ [] := by simp [parts]
  have walked : walk live [] (parts rel) = .ok none :=
    walk_of_absent clear.named top (fun ps qs more within => clear.above ps qs more within) absent way
  rw [read, valid, ok_bind, openat2_eq_ok.mpr ⟨opened, passable, walked, by simp⟩]
  rfl

/-! ## Paths of two scans -/

/-- A path as scans list it. -/
structure Spelled (rel : String) : Prop where
  valid : validPath rel = .ok ()
  plain : place rel = parts rel
  named : ∀ part ∈ parts rel, Named part
  shallow : (parts rel).length ≤ maxDepth
  passable : ensurePassable rel = .ok ()

theorem file?_of_scan (success : scan c t = .ok files) (present : files.get? rel ≠ none) :
    ∃ f, t.live.node? (parts rel) = some (.file f) := by
  obtain ⟨-, plain, kept⟩ := scan_path success present
  rw [scan_get? success plain kept, plain] at present
  obtain ⟨f, found⟩ := Option.ne_none_iff_exists'.mp (fun absent : t.live.file? (parts rel) = none =>
    present (by rw [absent, Option.map_none]))
  exact ⟨f, Live.file?_eq_some.mp found⟩

theorem Spelled.of_scan (success : scan c t = .ok files) (present : files.get? rel ≠ none) : Spelled rel := by
  obtain ⟨valid, plain, kept⟩ := scan_path success present
  obtain ⟨f, there⟩ := file?_of_scan success present
  obtain ⟨fp, found⟩ := Option.ne_none_iff_exists'.mp present
  rw [(scan_eq_ok success).2.2.2] at found
  obtain ⟨g, readable, -⟩ := (Legible.of_scan success).read_file valid found
  exact ⟨valid, plain, Live.named_of_node? there, plain ▸ scan_depth success present, read_passable readable⟩

/-- No file of a manifest is a directory of a tree. -/
def Apart (files : Manifest) (live : Live) : Prop :=
  ∀ p, files.get? p ≠ none → live.node? (parts p) ≠ some .dir

/-- A path that one of two manifests lists. -/
def Listed (loc rem : Manifest) (p : String) : Prop := loc.get? p ≠ none ∨ rem.get? p ≠ none

/-- Two scanned trees of which no file of one is a directory of the other. -/
structure Pairable (c : Crypto) (t u : Tree) (loc rem : Manifest) : Prop where
  left : scan c t = .ok loc
  right : scan c u = .ok rem
  leftApart : Apart loc u.live
  rightApart : Apart rem t.live

namespace Pairable

variable {u : Tree} {p q : String}

theorem symm (pair : Pairable c t u loc rem) : Pairable c u t rem loc :=
  ⟨pair.right, pair.left, pair.rightApart, pair.leftApart⟩

theorem spelled (pair : Pairable c t u loc rem) (listed : Listed loc rem p) : Spelled p := by
  rcases listed with present | present
  · exact .of_scan pair.left present
  · exact .of_scan pair.right present

/-- A listed path is a directory of neither tree. -/
theorem no_dir (pair : Pairable c t u loc rem) (listed : Listed loc rem p) : t.live.node? (parts p) ≠ some .dir := by
  rcases listed with present | present
  · obtain ⟨f, there⟩ := file?_of_scan pair.left present
    rw [there]
    simp
  · exact pair.rightApart p present

/-- No listed path is above another. -/
theorem prefix_free (pair : Pairable c t u loc rem) (first : Listed loc rem p) (second : Listed loc rem q)
    (within : parts p ++ below = parts q) : below = [] := by
  by_contra deeper
  rcases second with present | present
  · obtain ⟨f, there⟩ := file?_of_scan pair.left present
    rw [← within] at there
    exact pair.no_dir first (Live.dir_above deeper there)
  · obtain ⟨f, there⟩ := file?_of_scan pair.right present
    rw [← within] at there
    exact pair.symm.no_dir first.symm (Live.dir_above deeper there)

end Pairable

/-! ## One tree on its way -/

/-- A tree after some changes of a plan: the rest is still to come. -/
structure Midway (c : Crypto) (start : Live) (files merged : Manifest) (rest : List Change) (t : Tree) : Prop where
  legible : Legible c t
  access : t.live.dirs = start.dirs
  kept : ∀ path, start.node? path = some .dir → t.live.node? path = some .dir
  holds : ∀ p, scanned c t.live (parts p) = if p ∈ rest.map (·.path) then files.get? p else merged.get? p
  dirs : ∀ path, t.live.node? path = some .dir → start.node? path = some .dir ∨
    ∃ p below, merged.get? p ≠ none ∧ below ≠ [] ∧ path ++ below = parts p
  hidden : ∀ path n, path ≠ [] → excluded (join path) = true → t.live.node? path = some n →
    start.node? path = some n

namespace Midway

/-- The tree that a change does not go to. -/
theorem skip (mid : Midway c start files merged (ch :: rest) t) (same : files.get? ch.path = merged.get? ch.path) :
    Midway c start files merged rest t where
  legible := mid.legible
  access := mid.access
  kept := mid.kept
  holds p := by
    rw [mid.holds, List.map_cons]
    by_cases here : p = ch.path
    · rw [if_pos (by rw [here]; exact List.mem_cons_self), here, same, ite_self]
    · simp only [List.mem_cons, here, false_or]
  dirs := mid.dirs
  hidden := mid.hidden

/-- The tree that a change was applied to. -/
theorem change (mid : Midway c start files merged (ch :: rest) t) (taken : Taken ch.path node t.live t'.live)
    (spelled : Spelled ch.path) (small : ∀ f, node = some f → f.bytes.length ≤ maxFile)
    (readable : ∀ f, node = some f → mayRead f.mode = true) (leaf : t.live.node? (place ch.path) ≠ some .dir)
    (reviewed : checkRecoveryExcept c t'.saved [] = .ok ()) (once : ch.path ∉ rest.map (·.path))
    (isNew : node.map (·.fingerprint c) = merged.get? ch.path)
    (wasFile : merged.get? ch.path = none → t.live.node? (parts ch.path) ≠ none) :
    Midway c start files merged rest t' where
  legible := mid.legible.change taken small readable spelled.valid spelled.passable spelled.plain
    (spelled.plain ▸ spelled.shallow) reviewed
  access := taken.dirs.trans mid.access
  kept path found := by
    have before := mid.kept path found
    exact taken.keeps before (fun here => leaf (here ▸ before))
  holds p := by
    rw [scanned_taken taken spelled.valid spelled.plain, mid.holds, List.map_cons]
    by_cases here : p = ch.path
    · rw [if_pos here, here, isNew, if_neg once]
    · simp only [List.mem_cons, here, false_or, if_false]
  dirs path found := by
    rcases taken.cases found with ⟨-, f, -, isFile⟩ | ⟨-, old | ⟨absent, -, below, deeper, within⟩⟩
    · cases isFile
    · exact mid.dirs path old
    · rw [spelled.plain] at within
      refine .inr ⟨ch.path, below, fun gone => ?_, deeper, within⟩
      obtain ⟨n, there⟩ := Option.ne_none_iff_exists'.mp (wasFile gone)
      rw [← within] at there
      rw [Live.dir_above deeper there] at absent
      cases absent
  hidden path n top skipped found := by
    have named := Live.named_of_node? found
    rcases taken.cases found with ⟨here, -⟩ | ⟨-, old | ⟨-, -, below, -, within⟩⟩
    · rw [here, spelled.plain, join_parts, (validPath_eq_ok.mp spelled.valid).2.2] at skipped
      cases skipped
    · exact mid.hidden path n top skipped old
    · rw [spelled.plain] at within
      rw [kept_of_valid spelled.valid spelled.named top within] at skipped
      cases skipped

/-! Between two trees nothing is in the way of a listed path. -/

section

variable {t₀ u₀ : Tree} {p : String}

theorem no_dir (mid : Midway c t₀.live loc merged rest t) (pair : Pairable c t₀ u₀ loc rem)
    (sides : ∀ q, merged.get? q ≠ none → Listed loc rem q) (listed : Listed loc rem p) :
    t.live.node? (parts p) ≠ some .dir := by
  intro isDir
  rcases mid.dirs _ isDir with before | ⟨q, below, present, deeper, within⟩
  · exact pair.no_dir listed before
  · exact deeper (pair.prefix_free listed (sides q present) within)

theorem clear (mid : Midway c t₀.live loc merged rest t) (pair : Pairable c t₀ u₀ loc rem)
    (sides : ∀ q, merged.get? q ≠ none → Listed loc rem q) (listed : Listed loc rem p) :
    Clear t.live (parts p) := by
  have spelled := pair.spelled listed
  refine mid.legible.clear spelled.valid spelled.named (fun dir below top deeper within => ?_)
  have named : ∀ part ∈ dir, Named part := fun part member =>
    spelled.named part (within ▸ List.mem_append_left _ member)
  by_contra present
  rw [← parts_join named top] at within
  rw [← parts_join named top, mid.holds] at present
  have above : Listed loc rem (join dir) := by
    split_ifs at present with later
    · exact .inl present
    · exact sides _ present
  exact deeper (pair.prefix_free above listed within)

/-- The directories on the way to a path are as usable as they were. -/
theorem passage (mid : Midway c start files merged rest t) (passage : Passage start path) : Passage t.live path where
  searched := (Live.searched_congr mid.access).trans passage.searched
  writable dir name below within isDir last := by
    rw [Live.writable, mid.access]
    by_cases before : start.node? dir = some .dir
    · exact passage.writable dir name below within before (fun next => last (mid.kept _ next))
    · have top : dir ≠ [] := by
        rintro rfl
        exact before Live.node?_nil
      rw [Live.dirs_of_leaf top before]
      rfl

/-- A listed path reads as the scan has it. -/
theorem reads (mid : Midway c t₀.live loc merged rest t) (pair : Pairable c t₀ u₀ loc rem)
    (sides : ∀ q, merged.get? q ≠ none → Listed loc rem q) (listed : Listed loc rem p)
    (way : t₀.live.searched (parts p) = true) : ∃ data, read t.live p = .ok data ∧ data.map (·.fingerprint c) = scanned c t.live (parts p) := by
  have spelled := pair.spelled listed
  cases found : scanned c t.live (parts p) with
  | some fp =>
    obtain ⟨f, readable, same⟩ := mid.legible.read_file spelled.valid found
    exact ⟨some f, readable, congrArg some same⟩
  | none =>
    have absent : t.live.node? (parts p) = none := by
      have top : parts p ≠ [] := by simp [parts]
      have kept := kept_of_valid spelled.valid spelled.named top (List.append_nil _)
      cases there : t.live.node? (parts p) with
      | none => rfl
      | some n =>
        rcases mid.legible.kind there top kept with isDir | ⟨f, isFile, -⟩
        · exact absurd (isDir ▸ there) (mid.no_dir pair sides listed)
        · rw [scanned, if_neg (by rw [kept]; simp), Live.file?, there, isFile] at found
          cases found
    have way := (Live.searched_congr mid.access).trans way
    exact ⟨none, read_of_clear mid.legible.opened (mid.clear pair sides listed) way absent spelled.valid
      spelled.passable, rfl⟩

end

end Midway

theorem offered_of_read {data : Option File} (readable : read live ch.path = .ok data)
    (same : data.map (·.fingerprint c) = ch.new) : offered c live ch = .ok data := by
  rw [offered, readable, ok_bind, refuseIf_neg (not_not.mpr same)]
  rfl

end Clix.Pin
