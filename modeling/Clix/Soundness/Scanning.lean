import Clix.Proofs.PinWalk

/-! # Scanning exactly the synchronized files

A scan of regular files and directories within the limits returns each file outside `.git`, and every path it
returns can be used by the other operations. Names that the walk enters but the path check refuses are the
exception: one file at or below a nested directory entry named as the recovery directory fails the whole scan.
-/

namespace Clix.Pin

open Except

variable {c : Crypto} {live : Live} {t : Tree} {listing : List String → List String} {files : Manifest}
  {path : List String} {f : File} {node : Node}

/-- Directories and regular files within the limits of a scan. -/
structure Scannable (live : Live) : Prop where
  plain : ∀ path node, live.node? path = some node → node = .dir ∨ ∃ f, node = .file f
  few : (visited live).length ≤ maxPinEntries
  shallow : ∀ e ∈ visited live, e.1.length ≤ maxDepth
  small : ∀ path f, live.file? path = some f → f.bytes.length ≤ maxFile

/-- The manifest of the files to synchronize, all of them with paths that can be read. -/
structure Exact (c : Crypto) (live : Live) (files : Manifest) : Prop where
  manifest : ∀ rel fp, files.get? rel = some fp ↔
    ".git" ∉ parts rel ∧ ∃ f, live.file? (parts rel) = some f ∧ fp = ⟨c.hash f.bytes, permissions f.mode⟩
  valid : ∀ rel, files.get? rel ≠ none → validPath rel = .ok ()
  readable : ∀ rel, files.get? rel ≠ none → ∃ f, read live rel = .ok (some f)

/-- No path outside `.git` is too long for the kernel or leads a file through a reserved name. The directories on
the way to what is there can be searched, and every file and directory outside `.git` can be read. -/
structure Accepted (live : Live) : Prop where
  passable : ∀ path, path ≠ [] → live.node? path ≠ none → ".git" ∉ path → ensurePassable (join path) = .ok ()
  unreserved : ∀ path f, live.file? path = some f → ".git" ∉ path → recovery ∉ path
  root : live.searchable [] = true
  searched : ∀ path, live.node? path ≠ none → ".git" ∉ path → live.searched path = true
  readable : ∀ path node, live.node? path = some node → ".git" ∉ path → live.readable path node = true

theorem mem_visited_of_clear (below : path ≠ []) (found : live.node? path = some node) (clear : ".git" ∉ path) :
    (path, node) ∈ visited live :=
  mem_visited_iff.mpr ⟨found, below, fun inside => clear (List.dropLast_subset _ inside)⟩

theorem not_excluded (below : path ≠ []) (found : live.node? path = some node) (clear : ".git" ∉ path) :
    excluded (join path) = false := by
  rw [excluded_join (Live.named_of_node? found) below, List.contains_eq_mem, decide_eq_false_iff_not]
  exact clear

theorem ne_nil_of_file? (found : live.file? path = some f) : path ≠ [] := by
  rintro rfl
  rw [Live.file?_eq_some, Live.node?_nil] at found
  cases found

/-- A path of plain names without a reserved one is valid. -/
theorem validPath_join (below : path ≠ []) (found : live.node? path = some node) (clear : ".git" ∉ path)
    (unreserved : recovery ∉ path) : validPath (join path) = .ok () := by
  have named := Live.named_of_node? found
  rw [validPath_eq_ok, isNormal, parts_join named below]
  refine ⟨?_, unreserved, not_excluded below found clear⟩
  obtain ⟨first, rest, rfl⟩ := List.exists_cons_of_ne_nil below
  obtain ⟨plain, others⟩ := List.forall_mem_cons.mp named
  have noParent : ".." ∉ rest := fun inside => (others ".." inside).2.2.1 rfl
  simp [plain.1, plain.2.1, plain.2.2.1, noParent]

/-- What a scan took has accepted paths. -/
theorem accepted_of_scan (success : scan c t = .ok files) : Accepted t.live := by
  have each (path : List String) (node : Node) (below : path ≠ []) (found : t.live.node? path = some node)
      (clear : ".git" ∉ path) : (node = .dir ∧ openRel t.live (join path) = .ok ()) ∨
        ∃ f g, node = .file g ∧ read t.live (join path) = .ok (some f) := by
    obtain ⟨taken, ok⟩ := scan_all success (mem_visited_of_clear below found clear)
    exact scanNode_kind (not_excluded below found clear) ok
  obtain ⟨listable, searchable⟩ := openTree_eq_ok.mp (scan_opens success)
  -- What was taken is below directories that were searched, and was opened.
  have opened (path : List String) (node : Node) (found : t.live.node? path = some node) (clear : ".git" ∉ path) :
      t.live.searched path = true ∧ t.live.readable path node = true := by
    by_cases below : path = []
    · subst below
      rw [Live.node?_nil] at found
      cases found
      exact ⟨rfl, listable⟩
    · have named := Live.named_of_node? found
      rcases each path node below found clear with ⟨rfl, openable⟩ | ⟨f, g, rfl, readable⟩
      · exact (openRel_access named below openable).2
      · have content := (read_eq_ok readable).2.2.1
        obtain ⟨-, way, mode⟩ := read_access readable
        have mode := mode f rfl
        rw [place_join named below] at content way
        rw [Live.file?, found] at content
        cases content
        exact ⟨way, mode⟩
  refine ⟨fun path below present clear => ?_, fun path f there clear => ?_, searchable, fun path present clear => ?_,
    fun path node found clear => (opened path node found clear).2⟩
  · obtain ⟨node, found⟩ := Option.ne_none_iff_exists'.mp present
    rcases each path node below found clear with ⟨-, openable⟩ | ⟨f, g, -, readable⟩
    · exact (openRel_access (Live.named_of_node? found) below openable).1
    · exact read_passable readable
  · have below := ne_nil_of_file? there
    have found := Live.file?_eq_some.mp there
    rcases each path _ below found clear with ⟨isDir, -⟩ | ⟨g, g', -, readable⟩
    · cases isDir
    · have valid := (validPath_eq_ok.mp (read_eq_ok readable).1).2.1
      rwa [parts_join (Live.named_of_node? found) below] at valid
  · obtain ⟨node, found⟩ := Option.ne_none_iff_exists'.mp present
    exact (opened path node found clear).1

/-- Accepted paths within the limits can all be taken. -/
theorem scan_of_accepted (scannable : Scannable t.live) (accepted : Accepted t.live)
    (clean : checkRecoveryExcept c t.saved [] = .ok ()) : ∃ files, scan c t = .ok files := by
  have opened : openTree t.live = .ok () :=
    openTree_eq_ok.mpr ⟨accepted.readable [] .dir Live.node?_nil List.not_mem_nil, accepted.root⟩
  refine scan_isOk opened clean scannable.few scannable.shallow (fun e listed => ?_)
  obtain ⟨found, below, named⟩ := file?_of_visited listed
  by_cases clear : ".git" ∈ e.1
  · unfold scanNode
    rw [if_pos (by rw [excluded_join named below, List.contains_eq_mem, decide_eq_true_eq]; exact clear)]
    exact ⟨_, rfl⟩
  · have passable := accepted.passable e.1 below (by rw [found]; simp) clear
    have way := accepted.searched e.1 (by rw [found]; simp) clear
    have readable := accepted.readable e.1 e.2 found clear
    rcases scannable.plain e.1 e.2 found with isDir | ⟨f, isFile⟩
    · rw [isDir] at found readable ⊢
      exact scanNode_dir opened found below passable way readable
    · rw [isFile] at readable ⊢
      have there : t.live.file? e.1 = some f := Live.file?_eq_some.mpr (isFile ▸ found)
      exact scanNode_file opened there (validPath_join below found clear (accepted.unreserved e.1 f there clear))
        passable way readable (scannable.small e.1 f there)

/-- What a scan returns is exact. -/
theorem exact_of_scan (success : scan c t = .ok files) : Exact c t.live files := by
  have lookup := (scan_eq_ok success).2.2.2
  refine ⟨fun rel fp => ?_, fun rel present => (scan_path success present).1, fun rel present => ?_⟩
  · rw [lookup, scanned, join_parts, excluded, List.contains_eq_mem]
    by_cases clear : ".git" ∈ parts rel
    · simp [clear]
    · simp only [clear, decide_false, Bool.false_eq_true, if_false, Option.map_eq_some_iff, not_false_eq_true,
        true_and]
      exact exists_congr (fun f => and_congr_right (fun _ => eq_comm))
  · obtain ⟨valid, plain, kept⟩ := scan_path success present
    rw [scan_get? success plain kept] at present
    obtain ⟨f, found⟩ := Option.ne_none_iff_exists'.mp (fun absent : t.live.file? (place rel) = none =>
      present (by rw [absent, Option.map_none]))
    have there := Live.file?_eq_some.mp found
    have below := ne_nil_of_file? found
    obtain ⟨taken, ok⟩ := scan_all success (visited_of_file? found (by rw [plain, join_parts]; exact kept))
    rw [plain] at ok
    rcases scanNode_kind (by rw [join_parts]; exact kept) ok with ⟨isDir, -⟩ | ⟨g, g', -, readable⟩
    · cases isDir
    · rw [join_parts] at readable
      exact ⟨g, readable⟩

/-- A scan of regular files and directories within the limits, with a clean recovery directory, is exact if and
only if everything outside `.git` is accepted. -/
theorem scan_exact_iff (lists : Lists t.live listing) (scannable : Scannable t.live)
    (clean : checkRecoveryExcept c t.saved [] = .ok ()) :
    (∃ files, scanTree c listing t = .ok files ∧ Exact c t.live files) ↔ Accepted t.live := by
  simp only [scanTree_eq_ok lists]
  constructor
  · exact fun ⟨files, success, _⟩ => accepted_of_scan success
  · intro accepted
    obtain ⟨files, success⟩ := scan_of_accepted scannable accepted clean
    exact ⟨files, success, exact_of_scan success⟩

namespace ScanExample

def note : File := ⟨[104], 0o644⟩

theorem fits_a : Live.empty.Fits [] "a" := by decide

/-- A nested directory that is named as the recovery directory, with a file. -/
def copied : Live :=
  ((Live.empty.put [] "a" .dir fits_a).put ["a"] recovery .dir (by decide)).put ["a", recovery] "x"
    (.file note) (by decide)

/-- A repository with a file beside its metadata. -/
def repository : Live :=
  ((Live.empty.put [] ".git" .dir (by decide)).put [".git"] "config" (.file note) (by decide)).put [] "x"
    (.file note) (by decide)

theorem scannable_of {live : Live} {entries : List (List String × Node)} (nodes : live.nodes.entries = entries)
    (each : ∀ e ∈ entries, e.1.length ≤ maxDepth ∧ (e.2 = .dir ∨ e.2 = .file note))
    (few : entries.length ≤ maxPinEntries) : Scannable live := by
  have kind (path : List String) (node : Node) (found : live.node? path = some node) :
      node = .dir ∨ node = .file note := by
    by_cases top : path = []
    · subst top
      rw [Live.node?_nil] at found
      cases found
      exact .inl rfl
    · rw [Live.node?_of_ne_nil top] at found
      exact (each (path, node) (nodes ▸ OrdMap.get?_eq_some_iff.mp found)).2
  refine ⟨fun path node found => (kind path node found).imp_right (fun isNote => ⟨note, isNote⟩), ?_, ?_, ?_⟩
  · exact (List.length_filter_le _ _).trans (nodes ▸ few)
  · exact fun e listed => (each e (nodes ▸ (List.mem_filter.mp listed).1)).1
  · intro path f there
    rcases kind path _ (Live.file?_eq_some.mp there) with isDir | isNote
    · cases isDir
    · cases isNote
      decide

theorem copied_scannable : Scannable copied := scannable_of rfl (by decide) (by decide)

/-- One file in a copied recovery directory fails the scan of a whole tree. -/
theorem scan_not_exact : ∃ t : Tree, Scannable t.live ∧
    checkRecoveryExcept Crypto.transparent t.saved [] = .ok () ∧ Lists t.live t.live.listing ∧
    ∀ files, scanTree Crypto.transparent t.live.listing t ≠ .ok files := by
  refine ⟨⟨copied, ∅⟩, copied_scannable, rfl, lists_listing _, fun files success => ?_⟩
  have accepted := accepted_of_scan ((scanTree_eq_ok (lists_listing _)).mp success)
  exact accepted.unreserved ["a", recovery, "x"] note (by decide) (by decide) (by decide)

theorem repository_accepted : Accepted repository := by
  have entry (path : List String) (node : Node) (below : path ≠ []) (found : repository.node? path = some node) :
      (path, node) ∈ repository.nodes.entries := by
    rw [Live.node?_of_ne_nil below] at found
    exact OrdMap.get?_eq_some_iff.mp found
  have passable : ∀ e ∈ repository.nodes.entries, ensurePassable (join e.1) = .ok () := by decide
  have unreserved : ∀ e ∈ repository.nodes.entries, recovery ∉ e.1 := by decide
  have readable : ∀ e ∈ repository.nodes.entries, repository.readable e.1 e.2 = true := by decide
  refine ⟨fun path below present _ => ?_, fun path f there _ => ?_, rfl,
    fun path _ _ => Live.searched_of_made (fun _ => rfl) path, fun path node found _ => ?_⟩
  · obtain ⟨node, found⟩ := Option.ne_none_iff_exists'.mp present
    exact passable (path, node) (entry path node below found)
  · exact unreserved (path, .file f) (entry path (.file f) (ne_nil_of_file? there) (Live.file?_eq_some.mp there))
  · by_cases top : path = []
    · subst top
      rw [Live.node?_nil] at found
      cases found
      rfl
    · exact readable (path, node) (entry path node top found)

/-- A repository is scanned without its metadata. -/
theorem repository_scanned : ∃ files,
    scanTree Crypto.transparent repository.listing ⟨repository, ∅⟩ = .ok files ∧
      Exact Crypto.transparent repository files :=
  (scan_exact_iff (t := ⟨repository, ∅⟩) (lists_listing repository)
    (scannable_of rfl (by decide) (by decide)) rfl).mpr repository_accepted

end ScanExample

end Clix.Pin
