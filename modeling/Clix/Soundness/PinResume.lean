import Clix.Proofs.PinForward
import Clix.Proofs.PinUnderway

/-! # Resuming an interrupted synchronization

Wherever a session stops, the two machines are ready for what is left of it: each path is either untouched or
done, and a baseline was recorded only after both trees were the merge. So a later session, from either
machine, plans the rest and ends with both trees and both baselines at the merge of the interrupted one. All
trees in between must be within the limits of a scan and their listings within a frame, which an application
does not check.
-/

namespace Clix.Pin

open Except

section

variable {c : Crypto} {here there : Side} {draw : String → Ids} {m n : Machine} {changes : List Change}
  {merged : Manifest}

/-! ## Whole sessions -/

/-- The two machines after some planned changes were applied. -/
def between (c : Crypto) (here there : Side) (draw : String → Ids) (done : List Change) (m n : Machine) :
    Machine × Machine := (syncChanges c here.host there.host draw done m n).2

/-- A session that can be planned, and all of whose changes the destinations can apply. The IDs an application
draws are new where they are used. -/
structure Feasible (c : Crypto) (here there : Side) (draw : String → Ids) (m n : Machine) (changes : List Change)
    (merged : Manifest) : Prop where
  caller : Partner m here.peer
  callee : Partner n there.peer
  planned : ∃ af bf, scan c m.tree = .ok af ∧ scan c n.tree = .ok bf ∧
    syncPlan (baseline m.store here.peer.ownerPk) af ⟨bf, baseline n.store there.peer.ownerPk⟩ m.store.bodyName
      here.peer.name.name = .ok (changes, merged)
  applicable : (syncChanges c here.host there.host draw changes m n).1 = .ok ()
  fresh : ∀ done ch rest, changes = done ++ ch :: rest → (draw ch.path).Fresh
    (if ch.toRemote then (between c here there draw done m n).2
      else (between c here there draw done m n).1).tree.saved []

/-- After any number of the changes, no tree has more entries than a scan takes, and both can be listed. -/
def Within (c : Crypto) (here there : Side) (draw : String → Ids) (m n : Machine) (changes : List Change) : Prop :=
  ∀ done rest, changes = done ++ rest →
    Listable c (between c here there draw done m n).1 here.peer ∧
      Listable c (between c here there draw done m n).2 there.peer

theorem doable_of (applicable : (syncChanges c here.host there.host draw changes m n).1 = .ok ())
    (fresh : ∀ done ch rest, changes = done ++ ch :: rest → (draw ch.path).Fresh
      (if ch.toRemote then (between c here there draw done m n).2
        else (between c here there draw done m n).1).tree.saved [])
    (within : Within c here there draw m n changes) : Doable c here there draw changes m n := by
  induction changes generalizing m n with
  | nil => trivial
  | cons ch rest ih =>
    rw [syncChanges] at applicable
    cases ran : syncChange c here.host there.host (draw ch.path) ch m n with
    | mk outcome machines =>
      obtain ⟨m', n'⟩ := machines
      rw [ran] at applicable
      rcases outcome with e | ⟨⟨⟩⟩
      · cases applicable
      · have later (done : List Change) : between c here there draw (ch :: done) m n =
            between c here there draw done m' n' := by
          rw [between, syncChanges, ran]
          rfl
        have one := within [ch] rest rfl
        rw [later] at one
        refine ⟨fresh [] ch rest rfl, m', n', ran, one.1, one.2, ih applicable (fun done x others same => ?_)
          (fun done others same => ?_)⟩
        · have := fresh (ch :: done) x others (by rw [same]; rfl)
          rwa [later] at this
        · have := within (ch :: done) others (by rw [same]; rfl)
          rwa [later] at this

theorem Feasible.ready (feasible : Feasible c here there draw m n changes merged)
    (within : Within c here there draw m n changes) (closing : Closing merged) :
    Ready c here there draw m n changes merged := by
  obtain ⟨af, bf, scannedA, scannedB, planned⟩ := feasible.planned
  rw [syncPlan, bind_eq_ok] at planned
  obtain ⟨base, common, planned⟩ := planned
  exact ⟨feasible.caller, feasible.callee, ⟨af, bf, base, scannedA, scannedB, common, planned⟩,
    doable_of feasible.applicable feasible.fresh within, (within [] changes rfl).1.2, (within [] changes rfl).2.2,
    closing⟩

/-- A session that stops anywhere resumes. Let a session be planned, let the destinations be able to apply all
of its changes, let the trees in between be within the limits of a scan, and let their listings and that of the
merge be within a frame. However far the session came, with whichever answer lost, a later session from either machine is planned without a conflict, does not fail,
and ends with both trees and both baselines at the merge of the first one. -/
theorem sync_resumes (c : Crypto) (here there : Side) (draw : String → Ids) (m n : Machine) (changes : List Change)
    (merged : Manifest) (deliveries : List Delivery) (stopped : Call)
    (feasible : Feasible c here there draw m n changes merged) (within : Within c here there draw m n changes)
    (closing : Closing merged) (calm : ∀ d ∈ deliveries, d.Calm)
    (ran : (Call.start here.peer.name.name m n).run c here there draw deliveries = stopped) :
    Resumes c here there draw merged stopped.caller stopped.callee ∧
      Resumes c there here draw merged stopped.callee stopped.caller := by
  subst ran
  obtain ⟨rest, ready, -, -⟩ := ((feasible.ready within closing).start.mono (Nat.le_add_left _ deliveries.length)).run calm
  exact ⟨ready.resumes, ready.swap.resumes⟩

end

namespace ResumeExample

set_option maxRecDepth 40000

/-- A directory name for each number. -/
def letter (i : ℕ) : String := String.ofList [Char.ofNat (256 + i)]

theorem toNat_letter {i : ℕ} (small : i < 4096) : (Char.ofNat (256 + i)).toNat = 256 + i := by
  have valid : (256 + i).isValidChar := .inl (by omega)
  rw [Char.ofNat, dif_pos valid]
  rfl

theorem letter_injective {i j : ℕ} (left : i < 4096) (right : j < 4096) (same : letter i = letter j) : i = j := by
  have chars := List.singleton_injective (String.ofList_injective same)
  have codes := congrArg Char.toNat chars
  rw [toNat_letter left, toNat_letter right] at codes
  omega

/-- A text of plain letters is none of these names. -/
theorem letter_ne {i : ℕ} (small : i < 4096) {text : String} (plain : text.toList.all (·.toNat < 256) = true) :
    letter i ≠ text := by
  intro same
  have listed : Char.ofNat (256 + i) ∈ text.toList := by
    rw [← same, letter, String.toList_ofList]
    exact List.mem_singleton_self _
  have := of_decide_eq_true (List.all_eq_true.mp plain _ listed)
  rw [toNat_letter small] at this
  omega

theorem letter_named {i : ℕ} (small : i < 4096) : Named (letter i) := by
  refine ⟨fun same => ?_, letter_ne small (by decide), letter_ne small (by decide), fun slash => ?_, ?_⟩
  · have := congrArg String.toList same
    rw [letter, String.toList_ofList] at this
    cases this
  · rw [letter, String.toList_ofList, List.mem_singleton] at slash
    have := congrArg Char.toNat slash
    rw [toNat_letter small] at this
    have code : '/'.toNat = 47 := rfl
    omega
  · have := Char.utf8Size_le_four (Char.ofNat (256 + i))
    have size : (letter i).utf8ByteSize = (Char.ofNat (256 + i)).utf8Size := by
      simp [letter]
    omega

/-- A tree of so many empty directories. -/
def folders : ℕ → Live
  | 0 => Live.empty
  | k + 1 =>
    if fits : (folders k).Fits [] (letter k) then (folders k).put [] (letter k) .dir fits else folders k

theorem folders_nodes {k : ℕ} (small : k ≤ 4096) :
    (∀ path, path ≠ [] → (folders k).node? path = none ∨
      ((folders k).node? path = some .dir ∧ ∃ i < k, path = [letter i])) ∧ (folders k).nodes.size = k := by
  induction k with
  | zero =>
    refine ⟨fun path below => .inl ?_, rfl⟩
    rw [Live.node?_of_ne_nil below]
    rfl
  | succ k ih =>
    obtain ⟨nodes, size⟩ := ih (by omega)
    have absent : (folders k).node? [letter k] = none := by
      refine (nodes _ (by simp)).resolve_right ?_
      rintro ⟨-, i, less, same⟩
      have := letter_injective (by omega) (by omega) (List.singleton_injective same)
      omega
    have fits : (folders k).Fits [] (letter k) := by
      refine ⟨Live.node?_nil, letter_named (by omega), ?_, ?_⟩
      · rw [List.nil_append, absent]
        simp
      · rw [List.nil_append, List.head?_cons]
        exact fun same => letter_ne (by omega) (by decide) (Option.some.inj same)
    rw [folders, dif_pos fits]
    refine ⟨fun path below => ?_, ?_⟩
    · rw [Live.node?_put, List.nil_append]
      by_cases here : path = [letter k]
      · rw [if_pos here]
        exact .inr ⟨rfl, k, by omega, here⟩
      · rw [if_neg here]
        rcases nodes path below with none | ⟨dir, i, less, same⟩
        · exact .inl none
        · exact .inr ⟨dir, i, by omega, same⟩
    · rw [Live.node?_of_ne_nil (by simp)] at absent
      have grown := OrdMap.size_insert_of_none Node.dir absent
      rw [size] at grown
      exact grown

/-- In a tree without files in directories, everything is visited. -/
theorem visited_flat {live : Live} (flat : ∀ path, live.node? path ≠ none → path.length ≤ 1) :
    (visited live).length = live.nodes.size := by
  rw [visited, List.filter_eq_self.mpr]
  · rfl
  · intro e listed
    have found := OrdMap.get?_eq_some_iff.mpr listed
    have below := (live.named _ _ found).1
    have short := flat e.1 (by rw [Live.node?_of_ne_nil below, found]; simp)
    have top : e.1.dropLast = [] := List.length_eq_zero_iff.mp (by rw [List.length_dropLast]; omega)
    rw [top]
    rfl

def crypto : Crypto := Crypto.transparent

def old : File := ⟨[104], 0o644⟩

def new : File := ⟨[105], 0o644⟩

theorem folders_absent {name : String} (plain : name.toList.all (·.toNat < 256) = true) :
    (folders 4095).node? [name] = none := by
  refine ((folders_nodes (by omega)).1 _ (by simp)).resolve_right ?_
  rintro ⟨-, i, less, same⟩
  exact letter_ne (by omega) plain (List.singleton_injective same).symm

theorem folders_fits {name : String} (named : Named name) (plain : name.toList.all (·.toNat < 256) = true)
    (foreign : name ≠ recovery) : (folders 4095).Fits [] name := by
  refine ⟨Live.node?_nil, named, by rw [List.nil_append, folders_absent plain]; simp, ?_⟩
  rw [List.nil_append, List.head?_cons]
  exact fun same => foreign (Option.some.inj same)

/-- As many entries as a scan takes: empty directories and one file. -/
def wide : Live := (folders 4095).put [] "z" (.file old) (folders_fits (by decide) (by decide) (by decide))

theorem wide_node? (path : List String) (below : path ≠ []) : (path = ["z"] ∧ wide.node? path = some (.file old)) ∨
    (path ≠ ["z"] ∧ (wide.node? path = none ∨
      (wide.node? path = some .dir ∧ ∃ i < 4095, path = [letter i]))) := by
  rw [wide, Live.node?_put, List.nil_append]
  by_cases file : path = ["z"]
  · rw [if_pos file]
    exact .inl ⟨file, rfl⟩
  · rw [if_neg file]
    exact .inr ⟨file, (folders_nodes (by omega)).1 path below⟩

theorem wide_flat (path : List String) (present : wide.node? path ≠ none) : path.length ≤ 1 := by
  by_cases below : path = []
  · rw [below]
    exact Nat.zero_le _
  · rcases wide_node? path below with ⟨file, -⟩ | ⟨-, absent | ⟨-, i, -, folder⟩⟩
    · rw [file]
      exact le_rfl
    · exact absurd absent present
    · rw [folder]
      exact le_rfl

theorem wide_size : wide.nodes.size = 4096 := by
  have absent : (folders 4095).nodes.get? ["z"] = none := by
    rw [← Live.node?_of_ne_nil (by simp), folders_absent (by decide)]
  have grown := OrdMap.size_insert_of_none (Node.file old) absent
  rw [(folders_nodes (by omega)).2] at grown
  exact grown

/-- The directories are as this program makes them. -/
theorem folders_made (k : ℕ) (dir : List String) : (folders k).dirs dir = .made := by
  induction k with
  | zero => rfl
  | succ k ih =>
    rw [folders]
    split
    · exact ih
    · exact ih

theorem wide_made (dir : List String) : wide.dirs dir = .made := by
  rw [wide, Live.dirs_put, folders_made]

def alicePeer : Peer := ⟨⟨"alice"⟩, List.replicate 32 1, none⟩

def bobPeer : Peer := ⟨⟨"bob"⟩, List.replicate 32 2, none⟩

def side (name : String) (peer : Peer) : Side where
  host := {
    root := ["home", name, "src"]
    canonicalize _ _ := none
    absolute binary := .ok (place binary)
    hasRecovery := false }
  peer := peer

/-- What both machines last agreed on: the one file that only the caller still has. -/
def agreed : Manifest := (∅ : Manifest).insert "z" (old.fingerprint crypto)

def store (name : String) (seed : UInt8) (peer : Peer) : Store :=
  { Store.first crypto "epoch" name (List.replicate 32 seed) with
    pinEnabled := true
    peers := [peer]
    pinIndex := { PinIndex.default with peers := (∅ : OrdMap String Manifest).insert (key peer.ownerPk) agreed } }

def alice : Machine := ⟨store "alice" 1 bobPeer, "src", ⟨wide, ∅⟩⟩

theorem fits_a : Live.empty.Fits [] "a" := by decide

/-- The callee has deleted the file, and has a new one. -/
def bob : Machine := ⟨store "bob" 2 alicePeer, "src", ⟨Live.empty.put [] "a" (.file new) fits_a, ∅⟩⟩

def creation : Change := ⟨"a", none, some (new.fingerprint crypto), false⟩

def deletion : Change := ⟨"z", some (old.fingerprint crypto), none, false⟩

def merged : Manifest := (∅ : Manifest).insert "a" (new.fingerprint crypto)

def draw (path : String) : Ids := ⟨"v" ++ path, "t" ++ path, "u" ++ path⟩

theorem free {path : String} (few : path = "a" ∨ path = "z") : (draw path).Free ∅ := by
  have id : IsId (draw path).version := by
    rcases few with rfl | rfl
    · exact ⟨by decide, by decide, by decide, by decide⟩
    · exact ⟨by decide, by decide, by decide, by decide⟩
  exact ⟨⟨id, rfl, rfl, rfl, (fun _ _ _ found => by cases found), List.not_mem_nil,
    List.not_mem_nil⟩, rfl⟩

theorem agreed_recorded : Recorded agreed := by
  refine ⟨fun path present => ?_, by decide⟩
  rw [agreed, OrdMap.get?_insert] at present
  split_ifs at present with here
  · rw [here]
    decide
  · exact absurd rfl present

theorem baseline_store (name : String) (seed : UInt8) (peer : Peer) :
    baseline (store name seed peer) peer.ownerPk = agreed := by
  have found : (store name seed peer).pinIndex.peers.get? (key peer.ownerPk) = some agreed :=
    OrdMap.get?_insert_self _ _ _
  rw [baseline, found, Option.getD_some, withoutExcluded_of_valid agreed_recorded.valid]

theorem partner (name : String) (seed : UInt8) (peer : Peer) (root : String) (tree : Tree) :
    Partner ⟨store name seed peer, root, tree⟩ peer where
  known := by
    have peers : (store name seed peer).peers = [peer] := rfl
    dsimp only
    rw [peers, List.find?_cons_of_pos (by simp)]
  enabled := rfl
  writable := by
    dsimp only [store]
    unfold Store.first History.refreshTrust
    dsimp only
    split_ifs <;> rfl
  recorded := by
    rw [baseline_store]
    exact agreed_recorded

theorem join_single (name : String) : join [name] = name := by
  rw [join, List.map_singleton, List.intercalate_singleton, String.ofList_toList]

theorem clear_top {live : Live} (made : ∀ dir, live.dirs dir = .made) {name : String} (named : Named name)
    (foreign : name ≠ recovery) : Clear live [name] where
  named := by simpa using named
  foreign := by simpa using foreign
  above dir rest deeper same := by
    rcases List.append_eq_singleton_iff.mp same with ⟨top, -⟩ | ⟨-, last⟩
    · rw [top]
      exact .inr Live.node?_nil
    · exact absurd last deeper
  listable dir _ _ _ := Live.listable_of_made made dir

theorem scan_wide : scan crypto alice.tree = .ok agreed := by
  have each (e : List String × Node) (listed : e ∈ visited wide) :
      e.1.length ≤ maxDepth ∧ ∃ found, scanNode crypto wide e.1 e.2 = .ok found := by
    obtain ⟨found, below, -⟩ := file?_of_visited listed
    have short := wide_flat e.1 (by rw [found]; simp)
    refine ⟨short.trans (by decide), ?_⟩
    rcases wide_node? e.1 below with ⟨file, isFile⟩ | ⟨-, absent | ⟨isDir, i, small, folder⟩⟩
    · rw [found] at isFile
      rw [file, Option.some.inj isFile]
      have live : wide.file? ["z"] = some old := Live.file?_eq_some.mpr (by rw [← file, found, isFile])
      exact scanNode_file (openTree_of_made wide_made) live (by decide) (by decide) (Live.searched_of_made wide_made _)
        (by decide) (by decide)
    · rw [found] at absent
      cases absent
    · rw [found] at isDir
      rw [folder, Option.some.inj isDir]
      unfold scanNode
      split_ifs
      · exact ⟨_, rfl⟩
      · have passable : ensurePassable (join [letter i]) = .ok () := by
          have size := (letter_named (i := i) (by omega)).2.2.2.2
          rw [join_single, ensurePassable_eq_ok]
          refine ⟨fun zero => ?_, by omega⟩
          rw [letter, String.toList_ofList, List.mem_singleton] at zero
          have codes := congrArg Char.toNat zero
          rw [toNat_letter (by omega)] at codes
          have code : (Char.ofNat 0).toNat = 0 := rfl
          omega
        have opened : openRel wide (join [letter i]) = .ok () :=
          (openRel_eq_ok _).mpr ⟨_, openat2_of_node? (openTree_of_made wide_made) (by rw [← folder, found, isDir])
            (by simp) (by simp) passable (Live.searched_of_made wide_made _) (Live.listable_of_made wide_made _)⟩
        dsimp only
        rw [opened]
        exact ⟨_, rfl⟩
  obtain ⟨files, success⟩ := scan_isOk (t := alice.tree) (openTree_of_made wide_made) (by rfl)
    (by rw [show alice.tree.live = wide from rfl, visited_flat wide_flat, wide_size]; decide)
    (fun e listed => (each e listed).1) (fun e listed => (each e listed).2)
  rw [success]
  refine congrArg Except.ok (OrdMap.ext_get? (fun rel => ?_))
  rw [(scan_eq_ok success).2.2.2, agreed, OrdMap.get?_insert, scanned, join_parts]
  have below : parts rel ≠ [] := by simp [parts]
  by_cases here : rel = "z"
  · subst here
    have there : wide.file? ["z"] = some old := by
      rw [Live.file?_eq_some]
      exact ((wide_node? ["z"] (by simp)).resolve_right (fun other => other.1 rfl)).2
    have file : (alice.tree.live.file? (parts "z")).map (·.fingerprint crypto) = some (old.fingerprint crypto) := by
      rw [show parts "z" = ["z"] by decide]
      exact congrArg _ there
    rw [if_pos rfl, file, if_neg (by decide)]
  · have elsewhere : parts rel ≠ ["z"] := fun same => here (by rw [← join_parts rel, same, join_single])
    have none : alice.tree.live.file? (parts rel) = none := by
      rcases wide_node? (parts rel) below with ⟨file, -⟩ | ⟨-, absent | ⟨isDir, -⟩⟩
      · exact absurd file elsewhere
      · rw [Live.file?, show alice.tree.live = wide from rfl, absent]
      · rw [Live.file?, show alice.tree.live = wide from rfl, isDir]
    rw [if_neg here, none, Option.map_none, ite_self]
    rfl

theorem scan_bob : scan crypto bob.tree = .ok merged := by rfl

theorem brief {m : Machine} {peer : Peer} {files : Manifest} (scanned : scan crypto m.tree = .ok files)
    (recorded : baseline m.store peer.ownerPk = agreed)
    (short : (Answer.listing (.ok ⟨files, agreed⟩)).text.length ≤ Limits.meshFrameBytes) : Brief crypto m peer := by
  intro files' success
  cases scanned.symm.trans success
  rw [recorded]
  exact short

theorem listings_short : (Answer.listing (.ok ⟨∅, agreed⟩)).text.length ≤ Limits.meshFrameBytes ∧
    (Answer.listing (.ok ⟨merged, agreed⟩)).text.length ≤ Limits.meshFrameBytes ∧ Closing merged := by
  unfold Closing
  decide

theorem planned : syncPlan agreed agreed ⟨merged, agreed⟩ "alice" "bob" = .ok ([creation, deletion], merged) := by
  rfl

/-- A change to a path at the top makes no directories. -/
theorem taken_top {rel : String} {node : Option File} {live live' : Live} (taken : Taken rel node live live')
    (top : parentDir rel = []) (path : List String) :
    live'.node? path = if path = place rel then node.map .file else live.node? path := by
  obtain ⟨middle, opens, sets⟩ := taken.effect
  rw [sets.nodes]
  split_ifs
  · rfl
  · rcases opens.nodes path with same | ⟨absent, -, within⟩
    · exact same
    · rw [top, List.isPrefixOf_iff_prefix, List.prefix_nil] at within
      rw [within, Live.node?_nil] at absent
      cases absent

def host : Host := (side "alice" bobPeer).host

theorem locked_made {live : Live} (made : ∀ dir, live.dirs dir = .made) : recoveryLock host live = .ok () :=
  recoveryLock_eq_ok.mpr ⟨Live.searchable_of_made made [], .inr (Live.writable_of_made made [])⟩

theorem missing : read wide "a" = .ok none := by
  have absent : wide.node? ([] ++ ["a"]) = none := by
    rcases wide_node? ["a"] (by simp) with ⟨file, -⟩ | ⟨-, absent | ⟨-, i, small, folder⟩⟩
    · exact absurd file (by decide)
    · exact absent
    · exact absurd (List.singleton_injective folder).symm (letter_ne (by omega) (by decide))
  have walked : walk wide [] ["a"] = .ok none := by
    have searchable : wide.searchable [] = true := Live.searchable_of_made wide_made []
    rw [walk, if_neg (by decide), if_neg (by rw [searchable]; decide), if_neg (by decide), if_neg (by decide), absent]
  have valid : validPath "a" = .ok () := by decide
  have passable : ensurePassable "a" = .ok () := by decide
  have split : parts "a" = ["a"] := by decide
  have found : openat2 wide "a" = .ok none :=
    openat2_eq_ok.mpr ⟨openTree_of_made wide_made, passable, by rw [split, walked], by simp⟩
  rw [read, valid, ok_bind, found]
  rfl

/-- The caller creates the new file. -/
theorem creates : ∃ t, apply crypto host alice.store creation (some new.bytes) (draw "a") alice.tree = (.ok (), t) ∧
    t.saved = ∅ ∧ t.live.dirs = wide.dirs ∧
    ∀ path, t.live.node? path = if path = ["a"] then some (.file new) else wide.node? path := by
  have checked : applyChecks crypto host alice.store alice.tree creation (some new.bytes) [] = .ok true :=
    applyChecks_eq_ok.mpr ⟨none, ⟨by rfl, by rfl, by decide, missing⟩,
      .inr ⟨rfl, by decide, rfl, rfl, by decide⟩⟩
  have locked : recoveryLock host wide = .ok () := locked_made wide_made
  obtain ⟨t, applied⟩ := apply_succeeds (t := alice.tree) locked checked (free (.inl rfl)) (by decide)
    (clear_top wide_made (by decide) (by decide)) (.of_made wide_made _)
  have due : (alice.tree.live.file? (place creation.path)).map (·.fingerprint crypto) ≠ creation.new := by
    have absent : none = wide.file? (place "a") := (read_eq_ok missing).2.2.1
    rw [show alice.tree.live.file? (place creation.path) = none from absent.symm]
    decide
  obtain ⟨-, taken, -⟩ := apply_done (free (.inl rfl)).fresh applied due
  refine ⟨t, applied, apply_creation (free (.inl rfl)).fresh applied rfl, taken.dirs, fun path => ?_⟩
  have places := taken_top taken (by decide) path
  rwa [show place creation.path = ["a"] by decide] at places

variable {t : Tree}

/-- With the new file the caller has one entry more than a scan takes. -/
theorem crowded (nodes : ∀ path, t.live.node? path = if path = ["a"] then some (.file new) else wide.node? path) :
    ¬∃ files, scan crypto t = .ok files := by
  have absent : wide.nodes.get? ["a"] = none := by
    have node := (read_eq_ok missing).2.2.2.1
    rw [show place "a" = ["a"] by decide, Option.isSome_none, Option.isSome_eq_false_iff,
      Option.isNone_iff_eq_none, Live.node?_of_ne_nil (by simp)] at node
    exact node
  have same : t.live.nodes = wide.nodes.insert ["a"] (.file new) := by
    refine OrdMap.ext_get? (fun path => ?_)
    by_cases below : path = []
    · have top (live : Live) : live.nodes.get? [] = none := by
        by_contra found
        obtain ⟨node, found⟩ := Option.ne_none_iff_exists'.mp found
        exact (live.named _ _ found).1 rfl
      rw [below, top, OrdMap.get?_insert, if_neg (by simp), top]
    · rw [← Live.node?_of_ne_nil below, nodes, OrdMap.get?_insert, Live.node?_of_ne_nil below]
      split_ifs <;> rfl
  have flat (path : List String) (present : t.live.node? path ≠ none) : path.length ≤ 1 := by
    rw [nodes] at present
    split_ifs at present with here
    · rw [here]
      exact le_rfl
    · exact wide_flat path present
  have count : (visited t.live).length = 4097 := by
    rw [visited_flat flat, same, OrdMap.size_insert_of_none _ absent, wide_size]
  rintro ⟨files, success⟩
  have few := (scan_eq_ok success).2.1
  rw [count] at few
  exact absurd few (by decide)

/-- The caller deletes the old file. -/
theorem deletes (saved : t.saved = ∅) (access : t.live.dirs = wide.dirs)
    (nodes : ∀ path, t.live.node? path = if path = ["a"] then some (.file new) else wide.node? path) :
    ∃ t', apply crypto host alice.store deletion none (draw "z") t = (.ok (), t') := by
  have made (dir : List String) : t.live.dirs dir = .made := by rw [access, wide_made]
  have there : t.live.file? ["z"] = some old := by
    rw [Live.file?_eq_some, nodes, if_neg (by decide)]
    exact ((wide_node? ["z"] (by simp)).resolve_right (fun other => other.1 rfl)).2
  have readable : read t.live "z" = .ok (some old) := by
    have plain := read_of_file? (openTree_of_made made) there (by decide) (by decide) (Live.searched_of_made made _) (by decide)
      (by decide)
    rwa [join_single] at plain
  have checked : applyChecks crypto host alice.store t deletion none [] = .ok true :=
    applyChecks_eq_ok.mpr ⟨some old, ⟨by rfl, by rw [saved]; rfl, rfl, readable⟩,
      .inr ⟨rfl, by decide, rfl, rfl, by rw [saved]; decide⟩⟩
  exact apply_succeeds (locked_made made) checked (saved ▸ free (.inr rfl)) (by decide) (clear_top made (by decide) (by decide))
    (.of_made made _)

def here : Side := side "alice" bobPeer

def there : Side := side "bob" alicePeer

theorem offers : offered crypto bob.tree.live creation = .ok (some new) ∧
    offered crypto bob.tree.live deletion = .ok none := by decide

theorem feasible : Feasible crypto here there draw alice bob [creation, deletion] merged := by
  obtain ⟨t, created, saved, access, nodes⟩ := creates
  obtain ⟨t', deleted⟩ := deletes saved access nodes
  have first : syncChange crypto here.host there.host (draw creation.path) creation alice bob =
      (.ok (), { alice with tree := t }, bob) := syncChange_pull rfl offers.1 created
  have second : syncChange crypto here.host there.host (draw deletion.path) deletion { alice with tree := t } bob =
      (.ok (), { alice with tree := t' }, bob) := syncChange_pull rfl offers.2 deleted
  refine ⟨partner "alice" 1 bobPeer "src" _, partner "bob" 2 alicePeer "src" _,
    ⟨agreed, merged, scan_wide, scan_bob, ?_⟩, ?_, ?_⟩
  · have left : baseline alice.store here.peer.ownerPk = agreed := baseline_store "alice" 1 bobPeer
    have right : baseline bob.store there.peer.ownerPk = agreed := baseline_store "bob" 2 alicePeer
    rw [left, right]
    exact planned
  · rw [syncChanges, first]
    dsimp only
    rw [syncChanges, second]
    rfl
  · intro done ch rest same
    rcases done with _ | ⟨one, _ | ⟨two, others⟩⟩
    · cases same
      exact (free (.inl rfl)).fresh
    · cases same
      have after : between crypto here there draw [creation] alice bob = ({ alice with tree := t }, bob) := by
        rw [between, syncChanges, first]
        rfl
      rw [after, if_neg (by decide), saved]
      exact (free (.inr rfl)).fresh
    · exact absurd (congrArg List.length same) (by simp)

def quiet : Weather := ⟨.ok "epoch", none, 0⟩

/-- A session of these machines that stops after the first application. -/
def stopped : Call :=
  (Call.start here.peer.name.name alice bob).run crypto here there draw (List.replicate 7 ⟨false, quiet, quiet⟩)

theorem stopped_tree : ∃ t, stopped.caller.tree = t ∧
    ∀ path, t.live.node? path = if path = ["a"] then some (.file new) else wide.node? path := by
  obtain ⟨t, created, -, -, nodes⟩ := creates
  have plan' : syncPlan (baseline alice.store bobPeer.ownerPk) agreed ⟨merged, agreed⟩ alice.store.bodyName "bob" =
      .ok ([creation, deletion], merged) := by
    rw [show baseline alice.store bobPeer.ownerPk = agreed from baseline_store "alice" 1 bobPeer]
    exact planned
  have listed : rpcList crypto bob alicePeer = .ok ⟨merged, agreed⟩ := by
    have other : baseline bob.store alicePeer.ownerPk = agreed := baseline_store "bob" 2 alicePeer
    rw [rpcList, ensureEnabled_eq_ok.mpr rfl, ok_bind, scan_bob, ok_bind, other]
    rfl
  have served : rpcGet crypto bob "a" (new.fingerprint crypto) = .ok (Crypto.hex new.bytes) := by decide
  have text : unhex (Crypto.hex new.bytes) = .ok new.bytes := by decide
  have one : (Call.start here.peer.name.name alice bob).step crypto here there draw ⟨false, quiet, quiet⟩ =
      ⟨.scanning bobPeer "src" alice.store.bodyName, alice, bob⟩ := by
    have known : sessionPeer alice.store bobPeer.name.name = .ok bobPeer :=
      (partner "alice" 1 bobPeer "src" ⟨wide, ∅⟩).sessionPeer
    rw [step_local rfl]
    dsimp only [Call.start, syncStep]
    rw [show here.peer = bobPeer from rfl, known]
    rfl
  have two : (Call.step crypto here there draw ⟨.scanning bobPeer "src" alice.store.bodyName, alice, bob⟩
      ⟨false, quiet, quiet⟩) = ⟨.listing bobPeer "src" alice.store.bodyName agreed, alice, bob⟩ := by
    rw [step_local rfl]
    dsimp only [syncStep]
    rw [scan_wide]
    rfl
  have three : (Call.step crypto here there draw ⟨.listing bobPeer "src" alice.store.bodyName agreed, alice, bob⟩
      ⟨false, quiet, quiet⟩) = ⟨.comparing bobPeer "src" alice.store.bodyName agreed ⟨merged, agreed⟩, alice, bob⟩ := by
    have answered : serve crypto there.host quiet (draw "") there.peer bob .list =
        (bob, .listing (.ok ⟨merged, agreed⟩)) := by
      rw [serve, show there.peer = alicePeer from rfl, listed]
    rw [step_remote rfl Request.list_short answered, if_neg (not_silent listings_short.2.1)]
    dsimp only [syncStep]
    rw [ok_bind, validateListing_of (.of_scan scan_bob) agreed_recorded]
    rfl
  have four : (Call.step crypto here there draw
      ⟨.comparing bobPeer "src" alice.store.bodyName agreed ⟨merged, agreed⟩, alice, bob⟩ ⟨false, quiet, quiet⟩) =
      ⟨.working bobPeer "src" [creation, deletion] merged, alice, bob⟩ := by
    rw [step_local rfl]
    dsimp only [syncStep]
    rw [show bobPeer.name.name = "bob" from rfl, plan']
    rfl
  have five : (Call.step crypto here there draw ⟨.working bobPeer "src" [creation, deletion] merged, alice, bob⟩
      ⟨false, quiet, quiet⟩) =
      ⟨.pulling bobPeer "src" creation (new.fingerprint crypto) [deletion] merged, alice, bob⟩ := rfl
  have six : (Call.step crypto here there draw
      ⟨.pulling bobPeer "src" creation (new.fingerprint crypto) [deletion] merged, alice, bob⟩ ⟨false, quiet, quiet⟩) =
      ⟨.placing bobPeer "src" creation (some new.bytes) [deletion] merged, alice, bob⟩ := by
    have answered : serve crypto there.host quiet (draw "") there.peer bob (.get "a" (new.fingerprint crypto)) =
        (bob, .content (.ok (Crypto.hex new.bytes))) := by
      rw [serve, served]
    obtain ⟨sent, short⟩ := get_short_of_offered offers.1 rfl
    rw [step_remote rfl sent answered, if_neg (not_silent short)]
    dsimp only [syncStep]
    rw [ok_bind, text]
    rfl
  have seven : (Call.step crypto here there draw
      ⟨.placing bobPeer "src" creation (some new.bytes) [deletion] merged, alice, bob⟩ ⟨false, quiet, quiet⟩) =
      ⟨.working bobPeer "src" [deletion] merged, { alice with tree := t }, bob⟩ := by
    have authority : currentSyncAuthority alice bobPeer "src" = .ok () :=
      (partner "alice" 1 bobPeer "src" ⟨wide, ∅⟩).authority
    rw [step_local rfl]
    dsimp only [syncStep, Stage.path]
    rw [authority]
    dsimp only
    rw [show here.host = host from rfl, show creation.path = "a" from rfl, created]
    rfl
  refine ⟨t, ?_, nodes⟩
  rw [stopped, Call.run, List.replicate, List.foldl, one, List.replicate, List.foldl, two, List.replicate, List.foldl,
    three, List.replicate, List.foldl, four, List.replicate, List.foldl, five, List.replicate, List.foldl, six,
    List.replicate, List.foldl, seven]
  rfl

/-- The session could be planned and applied, but after the stop no later one can scan the caller's tree. -/
theorem crowded_stop : Feasible crypto here there draw alice bob [creation, deletion] merged ∧
    ¬Resumes crypto here there draw merged stopped.caller stopped.callee := by
  obtain ⟨t, same, nodes⟩ := stopped_tree
  refine ⟨feasible, fun resumes => ?_⟩
  obtain ⟨af, bf, rest, scanned, -⟩ := resumes.planned
  exact crowded nodes ⟨af, same ▸ scanned⟩

/-- The caller has deleted the file that the machines last agreed on, as the callee has. -/
def emptied : Machine := { alice with tree := ⟨Live.empty, ∅⟩ }

/-- The last answer, to the commit, is lost. -/
def deliveries : List Delivery := List.replicate 9 ⟨false, quiet, quiet⟩ ++ [⟨true, quiet, quiet⟩]

theorem lost_commit_resumes :
    let stopped := (Call.start here.peer.name.name emptied bob).run crypto here there draw deliveries
    Resumes crypto here there draw merged stopped.caller stopped.callee ∧
      Resumes crypto there here draw merged stopped.callee stopped.caller := by
  have left : baseline emptied.store here.peer.ownerPk = agreed := baseline_store "alice" 1 bobPeer
  have right : baseline bob.store there.peer.ownerPk = agreed := baseline_store "bob" 2 alicePeer
  refine sync_resumes crypto here there draw emptied bob [creation] merged deliveries _
    ⟨partner "alice" 1 bobPeer "src" _, partner "bob" 2 alicePeer "src" _, ⟨∅, merged, rfl, scan_bob, ?_⟩,
      by decide, ?_⟩ ?_ listings_short.2.2 ?_ rfl
  · rw [left, right]
    rfl
  · intro done ch rest same
    rcases done with _ | ⟨one, others⟩
    · cases same
      exact (free (.inl rfl)).fresh
    · exact absurd (congrArg List.length same) (by simp)
  · have other : Listable crypto bob there.peer := ⟨by decide, brief scan_bob right listings_short.2.1⟩
    intro done rest same
    rcases done with _ | ⟨one, _ | ⟨two, others⟩⟩
    · exact ⟨⟨by decide, brief rfl left listings_short.1⟩, other⟩
    · cases same
      exact ⟨⟨by decide, brief rfl left listings_short.2.1⟩, other⟩
    · exact absurd (congrArg List.length same) (by simp)
  · intro d listed
    have quiet_ : d.caller = quiet ∧ d.callee = quiet := by
      rcases List.mem_append.mp listed with early | last
      · rw [List.eq_of_mem_replicate early]
        exact ⟨rfl, rfl⟩
      · rw [List.mem_singleton.mp last]
        exact ⟨rfl, rfl⟩
    rw [Delivery.Calm, quiet_.1, quiet_.2]
    exact ⟨rfl, rfl⟩

end ResumeExample
end Clix.Pin
