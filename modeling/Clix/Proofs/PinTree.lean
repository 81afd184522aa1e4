import Clix.Model.PinTree
import Clix.Proofs.PinPlan
import Mathlib.Data.List.Induction

/-! # Reading and scanning a tree

A path that can be read leads to one place among the live nodes, however it is spelled. A scan that
succeeds returns exactly the regular files outside excluded directories, under their one plain spelling.
-/

namespace List

variable {ε α : Type} {f : α → Except ε Unit} {l : List α}

/-- A check of every item passes exactly when each does. -/
theorem forM_except_eq_ok : l.forM f = .ok () ↔ ∀ a ∈ l, f a = .ok () := by
  induction l with
  | nil => exact iff_of_true rfl (forall_mem_nil _)
  | cons a rest ih =>
    rw [forall_mem_cons, ← ih]
    change (f a >>= fun _ => rest.forM f) = .ok () ↔ _
    rw [Except.bind_eq_ok]
    exact ⟨fun ⟨⟨⟩, first, others⟩ => ⟨first, others⟩, fun ⟨first, others⟩ => ⟨(), first, others⟩⟩

end List

namespace Clix.Pin

open Except

variable {c : Crypto} {live live' : Live} {t : Tree} {dir path : List String} {rel name : String} {f : File}
  {node : Node} {files : Manifest}

/-! ## Spelling -/

theorem parts_join_of_plain (plain : ∀ name ∈ path, '/' ∉ name.toList) (below : path ≠ []) :
    parts (join path) = path := by
  have plain : ∀ l ∈ path.map String.toList, '/' ∉ l := by
    intro l member
    obtain ⟨name, listed, rfl⟩ := List.mem_map.mp member
    exact plain name listed
  rw [parts, join, String.toList_ofList, List.splitOn_intercalate _ plain (by simpa using below), List.map_map]
  exact (List.map_congr_left (fun name _ => String.ofList_toList)).trans (List.map_id _)

theorem parts_join (named : ∀ name ∈ path, Named name) (below : path ≠ []) : parts (join path) = path :=
  parts_join_of_plain (fun name member => (named name member).2.2.2.1) below

theorem join_parts (rel : String) : join (parts rel) = rel := by
  rw [join, parts, List.map_map]
  have back : (String.toList ∘ String.ofList) = id := funext (fun l => String.toList_ofList)
  rw [back, List.map_id, List.intercalate_splitOn, String.ofList_toList]

/-- The names among some parts of a path. -/
def names (ps : List String) : List String := ps.filter (fun part => part != "" && part != ".")

theorem names_of_named {ps : List String} (named : ∀ part ∈ ps, Named part) : names ps = ps := by
  refine List.filter_eq_self.mpr (fun part member => ?_)
  simp [(named part member).1, (named part member).2.1]

theorem place_join (named : ∀ name ∈ path, Named name) (below : path ≠ []) : place (join path) = path := by
  change names (parts (join path)) = path
  rw [parts_join named below, names_of_named named]

/-! ## Live files -/

namespace Live

/-- The regular file at a path. -/
def file? (live : Live) (path : List String) : Option File :=
  match live.node? path with
  | some (.file f) => some f
  | _ => none

theorem file?_eq_some : live.file? path = some f ↔ live.node? path = some (.file f) := by
  unfold file?
  split <;> simp_all

theorem node?_of_ne_nil (below : path ≠ []) : live.node? path = live.nodes.get? path := if_neg below

theorem node?_nil : live.node? [] = some .dir := if_pos rfl

theorem parent_of_node? (found : live.node? (path ++ [name]) = some node) : live.node? path = some .dir := by
  rw [node?_of_ne_nil (by simp)] at found
  by_cases top : path = []
  · exact top ▸ node?_nil
  · rw [node?_of_ne_nil top]
    exact (live.closed path name node found).resolve_left top

/-- Every proper ancestor of a node is a directory. -/
theorem dir_above {rest : List String} (below : rest ≠ []) (found : live.node? (path ++ rest) = some node) :
    live.node? path = some .dir := by
  induction rest using List.reverseRecOn generalizing node with
  | nil => exact absurd rfl below
  | append_singleton rest last ih =>
    rw [← List.append_assoc] at found
    have parent := parent_of_node? found
    by_cases direct : rest = []
    · rwa [direct, List.append_nil] at parent
    · exact ih direct parent

/-- Nothing is below a path that does not lead to a directory. -/
theorem node?_below (rest : List String) (below : rest ≠ []) (leaf : live.node? path ≠ some .dir) :
    live.node? (path ++ rest) = none := by
  by_contra found
  obtain ⟨node, found⟩ := Option.ne_none_iff_exists'.mp found
  exact leaf (dir_above below found)

theorem searched_iff : live.searched path = true ↔
    ∀ dir rest, rest ≠ [] → dir ++ rest = path → live.searchable dir = true := by
  rw [searched, List.all_eq_true]
  constructor
  · rintro each dir rest below rfl
    have short : dir.length < (dir ++ rest).length := by simpa using List.length_pos_iff.mpr below
    simpa using each dir.length (List.mem_range.mpr short)
  · intro each n member
    have short := List.mem_range.mp member
    refine each (path.take n) (path.drop n) (fun last => ?_) (List.take_append_drop n path)
    exact absurd (List.drop_eq_nil_iff.mp last) (not_le.mpr short)

@[simp] theorem searched_nil : live.searched [] = true := rfl

theorem searched_append_singleton :
    live.searched (path ++ [name]) = true ↔ live.searched path = true ∧ live.searchable path = true := by
  rw [searched_iff, searched_iff]
  constructor
  · intro each
    refine ⟨fun dir rest below same => each dir (rest ++ [name]) (by simp) ?_, each path [name] (by simp) rfl⟩
    rw [← List.append_assoc, same]
  · rintro ⟨above, here⟩ dir rest below same
    rcases List.eq_nil_or_concat rest with top | ⟨others, last, rfl⟩
    · exact absurd top below
    · rw [List.concat_eq_append, ← List.append_assoc] at same
      have parent : dir ++ others = path := (List.append_inj' same rfl).1
      by_cases direct : others = []
      · rw [direct, List.append_nil] at parent
        exact parent ▸ here
      · exact above dir others direct parent

theorem searched_of_append {rest : List String} (whole : live.searched (path ++ rest) = true) :
    live.searched path = true := by
  rw [searched_iff] at whole ⊢
  exact fun dir below deeper same => whole dir (below ++ rest) (by simp [deeper])
    (by rw [← List.append_assoc, same])

theorem searchable_of_searched {rest : List String} (below : rest ≠ [])
    (whole : live.searched (path ++ rest) = true) : live.searchable path = true :=
  searched_iff.mp whole path rest below rfl

/-- What is told about a path that is no directory. -/
theorem dirs_of_leaf (below : path ≠ []) (leaf : live.node? path ≠ some .dir) : live.dirs path = .made :=
  live.unmade path below (by rwa [← node?_of_ne_nil below])

/-- What is missing counts as a directory that is still to be made. -/
theorem searched_of_absent {rest : List String} (above : live.searched path = true)
    (here : live.searchable path = true) (absent : live.node? (path ++ [name]) = none) :
    live.searched (path ++ name :: rest) = true := by
  refine searched_iff.mpr (fun dir below deeper same => ?_)
  rcases List.append_eq_append_iff.mp same with ⟨inside, rfl, -⟩ | ⟨beyond, rfl, next⟩
  · by_cases direct : inside = []
    · rwa [direct, List.append_nil] at here
    · exact searchable_of_searched direct above
  · cases beyond with
    | nil => rwa [List.append_nil]
    | cons first others =>
      obtain ⟨rfl, -⟩ := List.cons.inj next
      have missing : live.node? (path ++ name :: others) ≠ some .dir := by
        rw [List.append_cons]
        by_cases last : others = []
        · rw [last, List.append_nil, absent]
          simp
        · rw [node?_below others last (by rw [absent]; simp)]
          simp
      rw [searchable, dirs_of_leaf (by simp) missing]
      rfl

/-! Where every directory is as this program makes it, each can be used. -/

theorem listable_of_made (made : ∀ dir, live.dirs dir = .made) (path : List String) : live.listable path = true := by
  rw [listable, made]
  rfl

theorem writable_of_made (made : ∀ dir, live.dirs dir = .made) (path : List String) : live.writable path = true := by
  rw [writable, made]
  rfl

theorem searchable_of_made (made : ∀ dir, live.dirs dir = .made) (path : List String) : live.searchable path = true := by
  rw [searchable, made]
  rfl

theorem searched_of_made (made : ∀ dir, live.dirs dir = .made) (path : List String) : live.searched path = true :=
  searched_iff.mpr (fun dir _ _ _ => searchable_of_made made dir)

theorem searched_congr (same : live'.dirs = live.dirs) : live'.searched path = live.searched path := by
  simp only [searched, searchable, same]

end Live

/-! ## Walking -/

/-- An empty part or a dot stays where it is. -/
theorem walk_still {part : String} {rest : List String} {ends : Option (List String × Node)}
    (still : part = "" ∨ part = ".") (success : walk live dir (part :: rest) = .ok ends) :
    walk live dir rest = .ok ends := by
  rw [walk] at success
  split_ifs at success
  · exact success
  · exact success
  · exact absurd still (not_or.mpr ⟨by assumption, by assumption⟩)
  · exact absurd still (not_or.mpr ⟨by assumption, by assumption⟩)

/-- A name is looked up in a directory that can be searched. -/
theorem walk_named {part : String} {rest : List String} {ends : Option (List String × Node)}
    (named : ¬(part = "" ∨ part = ".")) (success : walk live dir (part :: rest) = .ok ends) :
    live.searchable dir = true ∧ (if 255 < part.utf8ByteSize then .error tooLong
      else match live.node? (dir ++ [part]) with
        | none => .ok none
        | some .dir => walk live (dir ++ [part]) rest
        | some (.link _) => .error linkRefused
        | some (.file f) => if rest = [] then .ok (some (dir ++ [part], .file f)) else .error notDirectory
        | some .special => if rest = [] then .ok (some (dir ++ [part], .special)) else .error notDirectory :
          Result (Option (List String × Node))) = .ok ends := by
  rw [not_or] at named
  rw [walk, if_neg named.1] at success
  by_cases closed : live.searchable dir = false
  · rw [if_pos closed] at success
    cases success
  · rw [if_neg closed, if_neg named.2] at success
    exact ⟨by simpa using closed, success⟩

/-- A walk that succeeds ends at the place its parts name. -/
theorem walk_eq_ok {ps : List String} {ends : Option (List String × Node)} (top : live.node? dir = some .dir)
    (success : walk live dir ps = .ok ends) :
    ends = (live.node? (dir ++ names ps)).map (fun node => (dir ++ names ps, node)) := by
  induction ps generalizing dir with
  | nil =>
    cases success
    rw [names, List.filter_nil, List.append_nil, top, Option.map_some]
  | cons part rest ih =>
    by_cases still : part = "" ∨ part = "."
    · have same : names (part :: rest) = names rest := by
        rw [names, List.filter_cons_of_neg (by rcases still with rfl | rfl <;> simp)]
        rfl
      rw [same]
      exact ih top (walk_still still success)
    · obtain ⟨-, success⟩ := walk_named still success
      have plain : names (part :: rest) = part :: names rest := by
        rw [not_or] at still
        rw [names, List.filter_cons_of_pos (by simpa using still)]
        rfl
      have last_of {node : Node} (found : live.node? (dir ++ [part]) = some node)
          (success : (if rest = [] then .ok (some (dir ++ [part], node)) else .error notDirectory) =
            (.ok ends : Result _)) : ends = (live.node? (dir ++ [part] ++ names rest)).map
              (fun node => (dir ++ [part] ++ names rest, node)) := by
        split_ifs at success with last
        cases success
        rw [last, names, List.filter_nil, List.append_nil, found, Option.map_some]
      rw [plain, List.append_cons]
      by_cases long : 255 < part.utf8ByteSize
      · rw [if_pos long] at success
        cases success
      · rw [if_neg long] at success
        split at success
        · next absent =>
          cases success
          by_cases last : names rest = []
          · rw [last, List.append_nil, absent, Option.map_none]
          · rw [Live.node?_below _ last (by rw [absent]; simp), Option.map_none]
        · next found => exact ih found success
        · cases success
        · next found => exact last_of found success
        · next found => exact last_of found success

/-- A walk that succeeds could search every directory above the place its parts name. -/
theorem walk_searched {ps : List String} {ends : Option (List String × Node)} (above : live.searched dir = true)
    (success : walk live dir ps = .ok ends) : live.searched (dir ++ names ps) = true := by
  induction ps generalizing dir with
  | nil => rwa [names, List.filter_nil, List.append_nil]
  | cons part rest ih =>
    by_cases still : part = "" ∨ part = "."
    · have same : names (part :: rest) = names rest := by
        rw [names, List.filter_cons_of_neg (by rcases still with rfl | rfl <;> simp)]
        rfl
      rw [same]
      exact ih above (walk_still still success)
    · obtain ⟨searchable, success⟩ := walk_named still success
      have next : live.searched (dir ++ [part]) = true := Live.searched_append_singleton.mpr ⟨above, searchable⟩
      have plain : names (part :: rest) = part :: names rest := by
        rw [not_or] at still
        rw [names, List.filter_cons_of_pos (by simpa using still)]
        rfl
      have last (only : rest = []) : live.searched (dir ++ part :: names rest) = true := by
        rwa [only, names, List.filter_nil]
      rw [plain]
      split at success
      · cases success
      · split at success
        · next absent => exact Live.searched_of_absent above searchable absent
        · rw [List.append_cons]
          exact ih next success
        · cases success
        · split_ifs at success with only
          exact last only
        · split_ifs at success with only
          exact last only

/-- The plain spelling of a directory or file leads to it. -/
theorem walk_of_node? {rest : List String} (named : ∀ part ∈ rest, Named part)
    (found : live.node? (dir ++ rest) = some node) (kind : ∀ target, node ≠ .link target) (below : rest ≠ [])
    (way : live.searched (dir ++ rest) = true) : walk live dir rest = .ok (some (dir ++ rest, node)) := by
  induction rest generalizing dir with
  | nil => exact absurd rfl below
  | cons part rest ih =>
    obtain ⟨plain, others⟩ := List.forall_mem_cons.mp named
    rw [walk, if_neg plain.1, if_neg (by simp [Live.searchable_of_searched below way]), if_neg plain.2.1,
      if_neg (not_lt.mpr plain.2.2.2.2)]
    rw [List.append_cons] at found way
    rw [List.append_cons dir part rest]
    by_cases last : rest = []
    · subst last
      rw [List.append_nil] at found ⊢
      rw [found]
      cases node with
      | dir => rfl
      | file f => rfl
      | link target => exact absurd rfl (kind target)
      | special => rfl
    · rw [Live.dir_above last found]
      exact ih others found last way

/-! ## Reading -/

theorem openTree_eq_ok : openTree live = .ok () ↔ live.listable [] = true ∧ live.searchable [] = true := by
  rw [openTree, refuseIf_eq_ok, not_or, Bool.not_eq_false, Bool.not_eq_false]

theorem openTree_of_made (made : ∀ dir, live.dirs dir = .made) : openTree live = .ok () :=
  openTree_eq_ok.mpr ⟨Live.listable_of_made made [], Live.searchable_of_made made []⟩

theorem openTree_congr (same : live'.dirs = live.dirs) : openTree live' = openTree live := by
  rw [openTree, openTree, Live.listable, Live.listable, Live.searchable, Live.searchable, same]

/-- What can be opened is where the walk of its parts ends, and it can be read. -/
theorem openat2_eq_ok {found : Option (List String × Node)} : openat2 live rel = .ok found ↔
    openTree live = .ok () ∧ ensurePassable rel = .ok () ∧ walk live [] (parts rel) = .ok found ∧
      ∀ place node, found = some (place, node) → live.readable place node = true := by
  rw [openat2]
  constructor
  · intro success
    obtain ⟨⟨⟩, opened, success⟩ := bind_eq_ok.mp success
    obtain ⟨⟨⟩, passable, success⟩ := bind_eq_ok.mp success
    obtain ⟨ends, walked, success⟩ := bind_eq_ok.mp success
    cases ends with
    | none =>
      cases success
      exact ⟨opened, passable, walked, by simp⟩
    | some e =>
      obtain ⟨place, node⟩ := e
      dsimp only at success
      rw [refuseIf_bind_eq_ok, Bool.not_eq_false] at success
      obtain ⟨readable, success⟩ := success
      cases success
      refine ⟨opened, passable, walked, fun place' node' same => ?_⟩
      cases same
      exact readable
  · rintro ⟨opened, passable, walked, readable⟩
    rw [opened, ok_bind, passable, ok_bind, walked, ok_bind]
    cases found with
    | none => rfl
    | some e =>
      obtain ⟨place, node⟩ := e
      dsimp only
      rw [refuseIf_neg (by rw [readable place node rfl]; simp)]
      rfl

/-- A read that succeeds returns the regular file at the place its path names, or nothing is there. -/
theorem read_eq_ok {found : Option File} (success : read live rel = .ok found) :
    validPath rel = .ok () ∧ rel.utf8ByteSize < 4096 ∧ found = live.file? (place rel) ∧
      (live.node? (place rel)).isSome = found.isSome ∧ ∀ f, found = some f → f.bytes.length ≤ maxFile := by
  rw [read, bind_eq_ok] at success
  obtain ⟨⟨⟩, valid, success⟩ := success
  rw [bind_eq_ok] at success
  obtain ⟨walked, opened, success⟩ := success
  obtain ⟨-, passable, walk, -⟩ := openat2_eq_ok.mp opened
  rw [ensurePassable, refuseIf_bind_eq_ok, refuseIf_eq_ok, not_le] at passable
  have ends := walk_eq_ok Live.node?_nil walk
  rw [List.nil_append] at ends
  change walked = (live.node? (place rel)).map (fun node => (place rel, node)) at ends
  refine ⟨valid, passable.2, ?_⟩
  rw [Live.file?]
  cases there : live.node? (place rel) with
  | none =>
    rw [there, Option.map_none] at ends
    subst ends
    cases success
    exact ⟨rfl, rfl, fun _ absent => absurd absent (by simp)⟩
  | some node =>
    rw [there, Option.map_some] at ends
    subst ends
    cases node with
    | file f =>
      dsimp only at success
      rw [refuseIf_bind_eq_ok] at success
      obtain ⟨small, success⟩ := success
      cases success
      refine ⟨rfl, rfl, fun g same => ?_⟩
      cases same
      exact not_lt.mp small
    | dir => cases success
    | link target => cases success
    | special => cases success

/-- What a read needs of the tree, of the directories on its way, and of a file it returns. -/
theorem read_access {found : Option File} (success : read live rel = .ok found) : openTree live = .ok () ∧
    live.searched (place rel) = true ∧ ∀ f, found = some f → mayRead f.mode = true := by
  have content := (read_eq_ok success).2.2.1
  rw [read, bind_eq_ok] at success
  obtain ⟨⟨⟩, -, success⟩ := success
  rw [bind_eq_ok] at success
  obtain ⟨walked, opened, success⟩ := success
  obtain ⟨tree, -, walk, readable⟩ := openat2_eq_ok.mp opened
  have way := walk_searched Live.searched_nil walk
  rw [List.nil_append] at way
  refine ⟨tree, way, fun f isFile => ?_⟩
  subst isFile
  have ends := walk_eq_ok Live.node?_nil walk
  have there := Live.file?_eq_some.mp content.symm
  rw [List.nil_append] at ends
  change walked = (live.node? (place rel)).map (fun node => (place rel, node)) at ends
  rw [there, Option.map_some] at ends
  subst ends
  exact readable _ _ rfl

theorem mayRead_permissions (mode : UInt32) : mayRead (permissions mode) = mayRead mode := by
  have bits : (0o777 : UInt32) &&& 0o400 = 0o400 := by decide
  rw [mayRead, mayRead, permissions, UInt32.and_assoc, bits]

/-- A file that was read has the permission to be read. -/
theorem mayRead_of_read {fp : Fingerprint} {found : Option File} (success : read live rel = .ok found)
    (same : found.map (·.fingerprint c) = some fp) : mayRead fp.mode = true := by
  obtain ⟨f, isFile, rfl⟩ := Option.map_eq_some_iff.mp same
  exact (mayRead_permissions f.mode).trans ((read_access success).2.2 f isFile)

/-! ## Scanning -/

theorem file?_of_visited {e : List String × Node} (listed : e ∈ visited live) :
    live.node? e.1 = some e.2 ∧ e.1 ≠ [] ∧ ∀ name ∈ e.1, Named name := by
  have found := OrdMap.get?_eq_some_iff.mpr (List.mem_filter.mp listed).1
  obtain ⟨below, named⟩ := live.named _ _ found
  exact ⟨by rw [Live.node?_of_ne_nil below, found], below, named⟩

/-- The file a scan takes from an entry. -/
def scanned (c : Crypto) (live : Live) (path : List String) : Option Fingerprint :=
  if excluded (join path) = true then none else (live.file? path).map (·.fingerprint c)

theorem scanNode_eq_ok {found : Option Fingerprint} (there : live.node? path = some node) (below : path ≠ [])
    (named : ∀ name ∈ path, Named name) (success : scanNode c live path node = .ok found) :
    found = scanned c live path := by
  unfold scanNode at success
  rw [scanned]
  split_ifs at success ⊢ with skipped
  · cases success
    rfl
  · cases node with
    | dir =>
      dsimp only at success
      rw [bind_eq_ok] at success
      obtain ⟨⟨⟩, -, success⟩ := success
      cases success
      rw [Live.file?, there]
      rfl
    | file f =>
      dsimp only at success
      rw [bind_eq_ok] at success
      obtain ⟨content, readable, success⟩ := success
      have same := (read_eq_ok readable).2.2.1
      rw [place_join named below] at same
      rw [← same]
      cases content with
      | none => cases success
      | some g =>
        cases success
        rfl
    | link target => cases success
    | special => cases success

theorem scanNodes_eq_ok {out : Manifest} {entries : List (List String × Node)}
    (listed : ∀ e ∈ entries, live.node? e.1 = some e.2 ∧ e.1 ≠ [] ∧ ∀ name ∈ e.1, Named name)
    (success : scanNodes c live out entries = .ok files) :
    ∀ rel, files.get? rel =
      if parts rel ∈ entries.map (·.1) then (scanned c live (parts rel)).or (out.get? rel) else out.get? rel := by
  induction entries generalizing out with
  | nil =>
    cases success
    simp
  | cons e rest ih =>
    obtain ⟨⟨there, below, named⟩, others⟩ := List.forall_mem_cons.mp listed
    rw [scanNodes, bind_eq_ok] at success
    obtain ⟨found, taken, success⟩ := success
    have added (rel : String) : (found.elim out (out.insert (join e.1))).get? rel =
        if parts rel = e.1 then (scanned c live e.1).or (out.get? rel) else out.get? rel := by
      rw [← scanNode_eq_ok there below named taken]
      cases found with
      | none => rw [Option.elim_none, Option.none_or, ite_self]
      | some fp =>
        rw [Option.elim_some, OrdMap.get?_insert, Option.some_or]
        by_cases here : parts rel = e.1
        · rw [if_pos here, if_pos (by rw [← here, join_parts])]
        · rw [if_neg here, if_neg (fun same => here (by rw [same, parts_join named below]))]
    intro rel
    rw [ih others success, added]
    simp only [List.map_cons, List.mem_cons]
    by_cases here : parts rel = e.1
    · rw [here]
      by_cases later : e.1 ∈ rest.map (·.1) <;> cases scanned c live e.1 <;> simp [later]
    · by_cases later : parts rel ∈ rest.map (·.1) <;> simp [here, later]

/-- The manifest a scan returns: the regular files outside excluded directories. -/
theorem scan_eq_ok (success : scan c t = .ok files) : checkRecoveryExcept c t.saved [] = .ok () ∧
    (visited t.live).length ≤ maxPinEntries ∧ (∀ e ∈ visited t.live, e.1.length ≤ maxDepth) ∧
    ∀ rel, files.get? rel = scanned c t.live (parts rel) := by
  rw [scan, bind_eq_ok] at success
  obtain ⟨⟨⟩, -, success⟩ := success
  rw [bind_eq_ok] at success
  obtain ⟨⟨⟩, recovered, success⟩ := success
  rw [refuseIf_bind_eq_ok, not_or, not_lt] at success
  obtain ⟨⟨few, shallow⟩, success⟩ := success
  push Not at shallow
  refine ⟨recovered, few, shallow, fun rel => ?_⟩
  rw [scanNodes_eq_ok (fun e listed => file?_of_visited listed) success, OrdMap.get?_empty, Option.or_none]
  split_ifs with listed
  · rfl
  · symm
    rw [scanned]
    split_ifs with skipped
    · rfl
    · rw [Option.map_eq_none_iff]
      by_contra present
      obtain ⟨f, present⟩ := Option.ne_none_iff_exists'.mp present
      rw [Live.file?_eq_some] at present
      refine listed (List.mem_map.mpr ⟨(parts rel, .file f), List.mem_filter.mpr ⟨?_, ?_⟩, rfl⟩)
      · have below : parts rel ≠ [] := fun top => by rw [top, Live.node?_nil] at present; simp at present
        rw [Live.node?_of_ne_nil below] at present
        exact OrdMap.get?_eq_some_iff.mp present
      · rw [join_parts, excluded, Bool.not_eq_true, List.contains_eq_mem, decide_eq_false_iff_not] at skipped
        simp only [Bool.not_eq_true', List.contains_eq_mem, decide_eq_false_iff_not]
        exact fun inside => skipped (List.dropLast_subset _ inside)

theorem scanNodes_all {out : Manifest} {entries : List (List String × Node)}
    (success : scanNodes c live out entries = .ok files) :
    ∀ e ∈ entries, ∃ found, scanNode c live e.1 e.2 = .ok found := by
  induction entries generalizing out with
  | nil => exact List.forall_mem_nil _
  | cons e rest ih =>
    rw [scanNodes, bind_eq_ok] at success
    obtain ⟨found, taken, success⟩ := success
    exact List.forall_mem_cons.mpr ⟨⟨found, taken⟩, ih success⟩

theorem scan_nodes (success : scan c t = .ok files) : scanNodes c t.live ∅ (visited t.live) = .ok files := by
  rw [scan, bind_eq_ok] at success
  obtain ⟨⟨⟩, -, success⟩ := success
  rw [bind_eq_ok] at success
  obtain ⟨⟨⟩, -, success⟩ := success
  rw [refuseIf_bind_eq_ok] at success
  exact success.2

/-- Every entry a scan comes across is one it can take. -/
theorem scan_all (success : scan c t = .ok files) {e : List String × Node} (listed : e ∈ visited t.live) :
    ∃ found, scanNode c t.live e.1 e.2 = .ok found := scanNodes_all (scan_nodes success) e listed

/-- A scan opens the tree. -/
theorem scan_opens (success : scan c t = .ok files) : openTree t.live = .ok () := by
  rw [scan, bind_eq_ok] at success
  obtain ⟨⟨⟩, opened, -⟩ := success
  exact opened

theorem visited_of_file? (found : live.file? path = some f) (kept : excluded (join path) = false) :
    (path, .file f) ∈ visited live := by
  rw [Live.file?_eq_some] at found
  have below : path ≠ [] := fun top => by rw [top, Live.node?_nil] at found; simp at found
  have named := Live.named_of_node? found
  rw [Live.node?_of_ne_nil below] at found
  refine List.mem_filter.mpr ⟨OrdMap.get?_eq_some_iff.mp found, ?_⟩
  rw [excluded, parts_join named below, List.contains_eq_mem, decide_eq_false_iff_not] at kept
  simp only [Bool.not_eq_true', List.contains_eq_mem, decide_eq_false_iff_not]
  exact fun inside => kept (List.dropLast_subset _ inside)

/-- The paths of a scan are valid and spelled plainly. -/
theorem scan_path (success : scan c t = .ok files) (present : files.get? rel ≠ none) :
    validPath rel = .ok () ∧ place rel = parts rel ∧ excluded rel = false := by
  have lookup := (scan_eq_ok success).2.2.2 rel
  rw [lookup, scanned, join_parts] at present
  split_ifs at present with skipped
  · exact absurd rfl present
  · rw [Bool.not_eq_true] at skipped
    obtain ⟨f, found⟩ := Option.ne_none_iff_exists'.mp (fun absent : t.live.file? (parts rel) = none =>
      present (by rw [absent, Option.map_none]))
    have named := Live.named_of_node? (Live.file?_eq_some.mp found)
    obtain ⟨taken, ok⟩ := scan_all success (visited_of_file? found (by rw [join_parts]; exact skipped))
    refine ⟨?_, names_of_named named, skipped⟩
    unfold scanNode at ok
    rw [join_parts, if_neg (by rw [skipped]; simp)] at ok
    dsimp only at ok
    rw [bind_eq_ok] at ok
    obtain ⟨content, readable, -⟩ := ok
    exact (read_eq_ok readable).1

/-- A scan has the fingerprint of the live file under every plain path outside excluded directories. -/
theorem scan_get? (success : scan c t = .ok files) (plain : place rel = parts rel) (kept : excluded rel = false) :
    files.get? rel = (t.live.file? (place rel)).map (·.fingerprint c) := by
  rw [(scan_eq_ok success).2.2.2 rel, scanned, join_parts, if_neg (by rw [kept]; simp), plain]

end Clix.Pin
