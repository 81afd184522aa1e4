import Clix.Proofs.PinMidway
import Clix.Proofs.PinUnderway
import Mathlib.Data.Finset.Card

/-! # Which plans can be carried out

A plan looks at paths one by one, while the trees have directories with permissions and a limit on their entries,
and a merge is committed in one message. Carried out, a plan makes both trees the merge exactly when no file of one
tree is a directory of the other, on each side the directories that stay and the merge with its directories are not
too many for a scan, the directories on the way to each change let it be made, and the merge fits in a frame.
-/

namespace Clix.Pin

open Except

section

variable {c : Crypto} {host hostA hostB : Host} {draw : String → Ids} {ids : Ids} {m m' n n' : Machine}
  {t t' t₀ u₀ : Tree} {live live' start : Live} {loc rem base merged files : Manifest} {a b p q : String}
  {changes rest : List Change} {ch : Change} {path below : List String} {s : Store} {bytes : Option Bytes}

/-! ## What is needed -/

/-- A path with the directories above it. -/
def withAbove (p : String) : List (List String) := (parts p).inits.tail

/-- What stays in a tree whatever is synchronized: directories, and what is excluded. -/
def staying (live : Live) : List (List String) :=
  ((visited live).filter (fun e => e.2 = .dir || excluded (join e.1))).map (·.1)

/-- The entries of a tree once it has some files, with what stays in it. -/
def needed (live : Live) (files : List String) : Finset (List String) :=
  (staying live ++ files.flatMap withAbove).toFinset

theorem Midway.ended (mid : Midway c start files merged [] t) (p : String) :
    scanned c t.live (parts p) = merged.get? p := by
  rw [mid.holds, List.map_nil, if_neg List.not_mem_nil]

theorem Midway.scan (mid : Midway c start files merged [] t) (few : (visited t.live).length ≤ maxPinEntries) :
    scan c t = .ok merged := by
  obtain ⟨found, success⟩ := mid.legible.scan few
  rw [success]
  refine congrArg Except.ok (OrdMap.ext_get? (fun p => ?_))
  rw [(scan_eq_ok success).2.2.2, mid.ended]

/-! ## What a tree keeps -/

/-- Directories and what is excluded stay, as do permissions, and only directories that can be written change. -/
structure Persists (live live' : Live) : Prop where
  dirs : ∀ path, live.node? path = some .dir → live'.node? path = some .dir
  hidden : ∀ path n, path ≠ [] → excluded (join path) = true → live.node? path = some n → live'.node? path = some n
  access : live'.dirs = live.dirs
  writes : live.Writes live'

theorem Persists.refl (live : Live) : Persists live live :=
  ⟨fun _ found => found, fun _ _ _ _ found => found, rfl, .refl live⟩

theorem Persists.trans {live'' : Live} (first : Persists live live') (second : Persists live' live'') :
    Persists live live'' :=
  ⟨fun path found => second.dirs path (first.dirs path found),
    fun path n top skipped found => second.hidden path n top skipped (first.hidden path n top skipped found),
    second.access.trans first.access, first.writes.trans second.writes first.access first.dirs⟩

/-- What a destination has to provide for one change besides its tree: new IDs, room for the version it
displaces, and no granted binary in its place. -/
structure Admits (c : Crypto) (host : Host) (ids : Ids) (ch : Change) (source dest : Machine) : Prop where
  free : ids.Free dest.tree.saved
  ungranted : dest.store.grants.forM (checkGranted host dest.tree.live (host.root ++ place ch.path)) = .ok ()
  room : admitRecovery dest.tree.saved ((dest.tree.live.file? (place ch.path)).elim 0 (·.bytes.length) +
    (source.tree.live.file? (place ch.path)).elim 0 (·.bytes.length)) 4 = .ok ()

/-- The two machines after some changes. -/
def reached (c : Crypto) (hostA hostB : Host) (draw : String → Ids) (done : List Change) (m n : Machine) :
    Machine × Machine := (syncChanges c hostA hostB draw done m n).2

/-- No change of a list is refused for another reason than what is live. -/
structure Supplied (c : Crypto) (hostA hostB : Host) (draw : String → Ids) (m n : Machine) (changes : List Change) :
    Prop where
  caller : Store.ensureWritable m.store = .ok ()
  callee : Store.ensureWritable n.store = .ok ()
  admits : ∀ done ch rest, changes = done ++ ch :: rest → Admits c (if ch.toRemote then hostB else hostA)
    (draw ch.path) ch
    (if ch.toRemote then (reached c hostA hostB draw done m n).1 else (reached c hostA hostB draw done m n).2)
    (if ch.toRemote then (reached c hostA hostB draw done m n).2 else (reached c hostA hostB draw done m n).1)

theorem Supplied.next (supplied : Supplied c hostA hostB draw m n (ch :: rest))
    (ran : syncChange c hostA hostB (draw ch.path) ch m n = (.ok (), m', n')) :
    Supplied c hostA hostB draw m' n' rest := by
  have stores := syncChange_store c hostA hostB (draw ch.path) ch m n
  rw [ran] at stores
  refine ⟨by rw [stores.1]; exact supplied.caller, by rw [stores.2]; exact supplied.callee,
    fun done x others same => ?_⟩
  have later : reached c hostA hostB draw (ch :: done) m n = reached c hostA hostB draw done m' n' := by
    rw [reached, syncChanges, ran]
    rfl
  have admits := supplied.admits (ch :: done) x others (by rw [same]; rfl)
  rwa [later] at admits

/-- A source offers what is planned. -/
theorem Midway.offers (mid : Midway c t₀.live loc merged (ch :: rest) t) (pair : Pairable c t₀ u₀ loc rem)
    (sides : ∀ q, merged.get? q ≠ none → Listed loc rem q) (listed : Listed loc rem ch.path)
    (new : ch.new = loc.get? ch.path) (way : t₀.live.searched (parts ch.path) = true) : ∃ data,
      offered c t.live ch = .ok data ∧ data.map (·.fingerprint c) = ch.new ∧
      data = t.live.file? (place ch.path) ∧ (∀ f, data = some f → f.bytes.length ≤ maxFile) ∧
      ∀ new, ch.new = some new → mayRead new.mode = true := by
  obtain ⟨data, readable, same⟩ := mid.reads pair sides listed way
  rw [mid.holds, if_pos (by rw [List.map_cons]; exact List.mem_cons_self), ← new] at same
  obtain ⟨-, -, found, -, small⟩ := read_eq_ok readable
  exact ⟨data, offered_of_read readable same, same, found, small,
    fun _ hasNew => mayRead_of_read readable (same.trans hasNew)⟩

end

namespace RealizeExample

set_option maxRecDepth 40000

def crypto : Crypto := Crypto.transparent

def host : Host where
  root := ["home", "alice", "src"]
  canonicalize _ _ := none
  absolute binary := .ok (place binary)
  hasRecovery := false

def store (name : String) (seed : UInt8) : Store := Store.first crypto "epoch" name (List.replicate 32 seed)

def content : File := ⟨[104], 0o644⟩

def print : Fingerprint := content.fingerprint crypto

def drawn (path : String) : Ids := ⟨"v" ++ path, "t" ++ path, "u" ++ path⟩

/-- A machine with two files. -/
def alice : Machine := ⟨store "alice" 1, "src",
  ⟨(Live.empty.put [] "0" (.file content) (by decide)).put [] "a" (.file content) (by decide), ∅⟩⟩

theorem fits_a : Live.empty.Fits [] "a" := by decide

theorem fits_b : (Live.empty.put [] "a" .dir fits_a).Fits ["a"] "b" := by decide

/-- A machine on which one of the two names is a directory. -/
def bob : Machine := ⟨store "bob" 2, "src",
  ⟨(Live.empty.put [] "a" .dir fits_a).put ["a"] "b" (.file content) fits_b, ∅⟩⟩

def aliceFiles : Manifest := ((∅ : Manifest).insert "0" print).insert "a" print

def planned : List Change := [⟨"0", none, some print, true⟩, ⟨"a", none, some print, true⟩, ⟨"a/b", none, some print, false⟩]

def merged : Manifest := aliceFiles.insert "a/b" print

/-- A machine with one file, and one with none. -/
def carol : Machine := ⟨store "carol" 3, "src", ⟨Live.empty.put [] "0" (.file content) (by decide), ∅⟩⟩

def dave : Machine := ⟨store "dave" 4, "src", ⟨Live.empty, ∅⟩⟩

end RealizeExample

end Clix.Pin
