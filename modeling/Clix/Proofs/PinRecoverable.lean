import Clix.Proofs.PinInterrupted

/-! # Directories that can be cleared

A directory is recoverable when every receipt in it can be read back, tells of data of its own, and has a path at
which nothing but a file may be. Each operation of an application or an owner action keeps this, so it holds wherever
they stop.
-/

namespace Clix.Pin

open Except

variable {c : Crypto} {host : Host} {s : Store} {ids : Ids} {t u : Tree} {live live' : Live} {path tmp name n : String}
  {r r' : RecoveryReceipt} {steps : ℕ} {outcome : Option (Result Unit)} {ch : Change} {ignored : List String}

/-! ## Paths under a directory -/

/-- A path under a directory, at which nothing but a file that can be read may be. -/
structure Anchored (live : Live) (path : String) : Prop where
  valid : validPath path = .ok ()
  passable : ensurePassable path = .ok ()
  named : Named (fileName path)
  parent : live.node? (parentDir path) = some .dir
  searched : live.searched (parentDir path ++ [fileName path]) = true
  leaf : ∀ node, live.node? (place path) = some node → ∃ f, node = .file f ∧ mayRead f.mode = true

/-- The way to a directory of the tree leads there. -/
theorem walk_through {dir init rest : List String} {last : String} (there : live.node? (dir ++ names init) = some .dir)
    (way : live.searched (dir ++ names init ++ [last]) = true) :
    walk live dir (init ++ rest) = walk live (dir ++ names init) rest := by
  induction init generalizing dir with
  | nil => rw [names, List.filter_nil, List.append_nil, List.nil_append]
  | cons part init ih =>
    rw [List.cons_append]
    have whole : live.searched (dir ++ (names (part :: init) ++ [last])) = true := by rwa [← List.append_assoc]
    have here : live.searchable dir = true := Live.searchable_of_searched (by simp) whole
    by_cases skip : part = "" ∨ part = "."
    · have same : names (part :: init) = names init := by
        rw [names, List.filter_cons_of_neg (by rcases skip with rfl | rfl <;> decide)]
        rfl
      rw [same] at there way ⊢
      rw [walk]
      rcases skip with rfl | rfl
      · rw [if_pos rfl, ih there way]
      · rw [if_neg (by decide), if_neg (by simp [here]), if_pos rfl, ih there way]
    · have more : names (part :: init) = part :: names init := by
        rw [not_or] at skip
        rw [names, List.filter_cons_of_pos (by simpa using skip)]
        rfl
      rw [more, List.append_cons] at there
      rw [more, List.append_cons dir part] at way
      have short : Named part := Live.named_of_node? there part (by simp)
      have above : live.node? (dir ++ [part]) = some .dir := by
        by_cases last : names init = []
        · rwa [last, List.append_nil] at there
        · exact Live.dir_above last there
      rw [not_or] at skip
      rw [walk, if_neg skip.1, if_neg (by simp [here]), if_neg skip.2, if_neg (not_lt.mpr short.2.2.2.2), above]
      dsimp only
      rw [ih there way, more, List.append_assoc]
      rfl

namespace Anchored

theorem placed (anchored : Anchored live path) : place path = parentDir path ++ [fileName path] := by
  refine place_eq (fun part member => ?_)
  rcases List.mem_append.mp member with above | last
  · exact Live.named_of_node? anchored.parent part above
  · exact List.mem_singleton.mp last ▸ anchored.named

theorem settled (anchored : Anchored live path) (tree : openTree live = .ok ()) : Settled live path := by
  have inside : names (parts path).dropLast = parentDir path := names_above (Live.named_of_node? anchored.parent)
  refine ⟨tree, anchored.passable, ?_⟩
  have there : live.node? ([] ++ names (parts path).dropLast) = some .dir := by
    rw [List.nil_append, inside, anchored.parent]
  have way : live.searched ([] ++ names (parts path).dropLast ++ [fileName path]) = true := by
    rw [List.nil_append, inside, anchored.searched]
  have here : live.searchable (parentDir path) = true := (Live.searched_append_singleton.mp anchored.searched).2
  have named := anchored.named
  have leaf := anchored.leaf
  rw [anchored.placed] at leaf
  rw [parts_split, walk_through there way, List.nil_append, inside, walk, if_neg named.1, if_neg (by simp [here]),
    if_neg named.2.1, if_neg (not_lt.mpr named.2.2.2.2)]
  cases found : live.node? (parentDir path ++ [fileName path]) with
  | none => exact .inl rfl
  | some node =>
    obtain ⟨f, rfl, readable⟩ := leaf node found
    exact .inr ⟨_, f, rfl, readable⟩

end Anchored

/-! ## Receipts -/

/-- A receipt as it is written by an application or an owner action. -/
structure Written (c : Crypto) (t : Tree) (r : RecoveryReceipt) : Prop where
  path : (r.path = "" ∧ r.state = .discarding) ∨ Anchored t.live r.path
  version : validRecoveryName r.version = .ok ()
  data : isReceiptName r.version = false
  temporary : endsWith r.version ".tmp" = true → r.state = .discarding
  expected : ∀ fp, r.expected = some fp → fp.hash.utf8ByteSize = 64
  replacement : ∀ fp, r.replacement = some fp → fp.hash.utf8ByteSize = 64
  source : ∀ id, r.sourceReceipt = some id → id.utf8ByteSize ≤ 200
  token : ∀ token, r.discardToken = some token → token.utf8ByteSize = 64 ∧ r.state = .discarding
  begun : r.state = .discarding → r.discardToken ≠ none ∧ ∀ a, t.saved.get? r.version = some a →
    a.file?.map (·.fingerprint c) = r.expected

theorem utf8ByteSize_le_of_valid (valid : validRecoveryName name = .ok ()) : name.utf8ByteSize ≤ 200 := by
  rw [validRecoveryName, refuseIf_eq_ok, not_or, not_or] at valid
  omega

namespace Written

theorem parsed (written : Written c t r) : parseReceipt r = .ok r := by
  refine parseReceipt_eq_ok.mpr ⟨rfl, ?_, written.version, ?_⟩
  · rw [validReceiptPath]
    split_ifs with needed
    · rcases written.path with ⟨none, isDiscarding⟩ | anchored
      · exact absurd needed (by simp [none, isDiscarding])
      · exact anchored.valid
    · rfl
  · have data := written.data
    rw [isReceiptName] at data
    rw [data]
    rintro (⟨json, -⟩ | ⟨tmp, kept⟩)
    · cases json
    · exact kept (written.temporary tmp)

theorem small (written : Written c t r) : (Json.toVec r).length ≤ maxReceipt := by
  refine size_receipt_le ?_ (utf8ByteSize_le_of_valid written.version) written.expected written.replacement written.source
    (fun token same => (written.token token same).1)
  rcases written.path with ⟨none, -⟩ | anchored
  · rw [none]
    decide
  · exact (ensurePassable_eq_ok.mp anchored.passable).2

theorem mono (written : Written c t r) (anchored : Anchored t.live r.path → Anchored u.live r.path)
    (version : ∀ a, u.saved.get? r.version = some a → t.saved.get? r.version = some a) : Written c u r :=
  { written with
    path := written.path.imp_right anchored
    begun := fun isDiscarding => ⟨(written.begun isDiscarding).1, fun a there =>
      (written.begun isDiscarding).2 a (version a there)⟩ }

end Written

/-! ## Directories -/

theorem ofReceipt_inj (same : Artifact.ofReceipt r = .ofReceipt r') : r = r' := (Artifact.receipt.inj same).2

/-- A receipt of this program is in the directory. -/
def HasReceipt (saved : OrdMap String Artifact) (name : String) (r : RecoveryReceipt) : Prop :=
  isReceiptName name = true ∧ saved.get? name = some (.ofReceipt r)

structure Recoverable (c : Crypto) (t : Tree) : Prop where
  named : ∀ name a, t.saved.get? name = some a → validRecoveryName name = .ok ()
  plain : ∀ name a, t.saved.get? name = some a → a.Readable
  opened : ∀ name, t.saved.get? name ≠ none → openTree t.live = .ok ()
  receipts : ∀ name a, t.saved.get? name = some a → isReceiptName name = true → ∃ r, a = .ofReceipt r ∧ Written c t r
  unique : ∀ name name' r r', HasReceipt t.saved name r → HasReceipt t.saved name' r' → r.version = r'.version →
    name = name'

namespace Recoverable

theorem written (rec : Recoverable c t) (has : HasReceipt t.saved name r) : Written c t r := by
  obtain ⟨r', same, written⟩ := rec.receipts name _ has.2 has.1
  exact ofReceipt_inj same ▸ written

theorem read (rec : Recoverable c t) (has : HasReceipt t.saved name r) : readAndParse t.saved name = .ok r :=
  readAndParse_of_get? has.2 (rec.named name _ has.2) (rec.written has).small (rec.written has).parsed

/-- Other receipts are as they were, with their versions or without, and one receipt may be new. -/
theorem change (rec : Recoverable c t) (named : ∀ name a, u.saved.get? name = some a → validRecoveryName name = .ok ())
    (plain : ∀ name a, u.saved.get? name = some a → a.Readable)
    (opened : ∀ name, u.saved.get? name ≠ none → openTree u.live = .ok ())
    (old : ∀ name a, isReceiptName name = true → name ≠ n → u.saved.get? name = some a → t.saved.get? name = some a)
    (anchored : ∀ name r, HasReceipt t.saved name r → Anchored t.live r.path → Anchored u.live r.path)
    (versions : ∀ name r, HasReceipt t.saved name r → name ≠ n → ∀ a, u.saved.get? r.version = some a →
      t.saved.get? r.version = some a)
    (new : ∀ a, isReceiptName n = true → u.saved.get? n = some a → ∃ r, a = .ofReceipt r ∧ Written c u r ∧
      ∀ name r', HasReceipt t.saved name r' → name ≠ n → r'.version ≠ r.version) : Recoverable c u where
  named := named
  plain := plain
  opened := opened
  receipts name a there json := by
    by_cases here : name = n
    · subst here
      obtain ⟨r, same, written, -⟩ := new a json there
      exact ⟨r, same, written⟩
    · have before := old name a json here there
      obtain ⟨r, same, written⟩ := rec.receipts name a before json
      have has : HasReceipt t.saved name r := ⟨json, same ▸ before⟩
      exact ⟨r, same, written.mono (anchored name r has) (versions name r has here)⟩
  unique name name' r r' has has' same := by
    have apart {a b : String} {x y : RecoveryReceipt} (here : a = n) (there : b ≠ n) (first : HasReceipt u.saved a x)
        (second : HasReceipt u.saved b y) : y.version ≠ x.version := by
      subst here
      obtain ⟨z, same, -, own⟩ := new _ first.1 first.2
      rw [ofReceipt_inj same]
      exact own b y ⟨second.1, old b _ second.1 there second.2⟩ there
    by_cases here : name = n
    · by_cases there : name' = n
      · rw [here, there]
      · exact absurd same.symm (apart here there has has')
    · by_cases there : name' = n
      · exact absurd same (apart there here has' has)
      · exact rec.unique name name' r r' ⟨has.1, old name _ has.1 here has.2⟩ ⟨has'.1, old name' _ has'.1 there has'.2⟩
          same

/-- Taking something away keeps what is left as it is. -/
theorem erase (rec : Recoverable c t) (name : String) : Recoverable c { t with saved := t.saved.erase name } := by
  have kept {other : String} {a : Artifact} (there : (t.saved.erase name).get? other = some a) :
      t.saved.get? other = some a ∧ other ≠ name := by
    rw [OrdMap.get?_erase] at there
    split_ifs at there with same
    exact ⟨there, same⟩
  refine rec.change (n := name) (fun other a there => rec.named other a (kept there).1)
    (fun other a there => rec.plain other a (kept there).1) (fun other present => ?_)
    (fun other a _ _ there => (kept there).1) (fun _ _ _ anchored => anchored) (fun _ _ _ _ a there => (kept there).1) (fun a _ there => ?_)
  · obtain ⟨a, there⟩ := Option.ne_none_iff_exists'.mp present
    exact rec.opened other (by rw [(kept there).1]; simp)
  · exact absurd rfl (kept there).2

end Recoverable

/-! ## Entries are files under valid names -/

/-- Every entry has a valid name and can be read. -/
def Files (saved : OrdMap String Artifact) : Prop :=
  ∀ name a, saved.get? name = some a → validRecoveryName name = .ok () ∧ a.Readable

theorem Recoverable.files (rec : Recoverable c t) : Files t.saved :=
  fun name a there => ⟨rec.named name a there, rec.plain name a there⟩

namespace Files

variable {saved : OrdMap String Artifact} {a : Artifact}

theorem insert (files : Files saved) (valid : validRecoveryName name = .ok ()) (plain : a.Readable) :
    Files (saved.insert name a) := by
  intro other b there
  rw [OrdMap.get?_insert] at there
  split_ifs at there with same
  · cases there
    exact ⟨same ▸ valid, plain⟩
  · exact files other b there

theorem erase (files : Files saved) (name : String) : Files (saved.erase name) := by
  intro other b there
  rw [OrdMap.get?_erase] at there
  split_ifs at there
  exact files other b there

end Files

def KeepsFiles (op : Op) : Prop := ∀ t t', op t = .ok t' → Files t.saved → Files t'.saved

section Ops

variable {a : Artifact} {rel version target : String}

theorem readable_blank : (Artifact.file ⟨[], 0o600⟩).Readable := ⟨_, rfl, by decide⟩

theorem keepsFiles_createExcl (valid : validRecoveryName name = .ok ()) (plain : a.Readable) :
    KeepsFiles (createExcl name a) := by
  intro t t' done files
  rw [(createExcl_eq_ok done).2]
  exact files.insert valid plain

theorem keepsFiles_writeSaved (valid : validRecoveryName name = .ok ()) (plain : a.Readable) :
    KeepsFiles (writeSaved name a) := by
  intro t t' done files
  cases done
  exact files.insert valid plain

theorem keepsFiles_renameSaved (valid : validRecoveryName target = .ok ()) : KeepsFiles (renameSaved name target) := by
  intro t t' done files
  obtain ⟨a, found, rfl⟩ := renameSaved_eq_ok done
  exact (files.erase name).insert valid (files name a found).2

theorem keepsFiles_unlinkSaved : KeepsFiles (unlinkSaved name) := by
  intro t t' done files
  rw [unlinkSaved_eq_ok done]
  exact files.erase name

theorem keepsFiles_writeReceipt (temporary : validRecoveryName (tmp ++ ".tmp") = .ok ())
    (valid : validRecoveryName name = .ok ()) : ∀ op ∈ writeReceipt tmp name r, KeepsFiles op := by
  simp only [writeReceipt, List.forall_mem_cons, List.not_mem_nil, false_implies, implies_true, and_true]
  exact ⟨keepsFiles_createExcl temporary readable_blank,
    keepsFiles_writeSaved temporary (Artifact.readable_receipt _ _), keepsFiles_renameSaved valid⟩

theorem keepsFiles_stageOps {content : Bytes} {mode : UInt32} (valid : validRecoveryName version = .ok ())
    (readable : mayRead mode = true) :
    ∀ op ∈ stageOps version content mode, KeepsFiles op := by
  simp only [stageOps, List.forall_mem_cons, List.not_mem_nil, false_implies, implies_true, and_true]
  exact ⟨keepsFiles_createExcl valid readable_blank, keepsFiles_writeSaved valid ⟨_, rfl, (by decide : mayRead 0o600)⟩,
    keepsFiles_writeSaved valid ⟨_, rfl, readable⟩⟩

end Ops

theorem IsId.valid_append {ending : String} (id : IsId tmp) (short : ending.utf8ByteSize ≤ 100)
    (plain : '/' ∉ ending.toList) (apart : ∀ other ∈ ["", ".lock", ".", ".."], Pin.endsWith other ending = false) :
    validRecoveryName (tmp ++ ending) = .ok () := by
  have size : (tmp ++ ending).utf8ByteSize = tmp.utf8ByteSize + ending.utf8ByteSize := String.utf8ByteSize_append
  have bound := id.2.1
  have ends : Pin.endsWith (tmp ++ ending) ending = true := endsWith_append _ _
  have whole : '/' ∉ (tmp ++ ending).toList := by
    rw [String.toList_append, List.mem_append, not_or]
    exact ⟨id.2.2.2, plain⟩
  have differs : ∀ other ∈ ["", ".lock", ".", ".."], tmp ++ ending ≠ other := by
    rintro other listed rfl
    rw [apart _ listed] at ends
    cases ends
  rw [validRecoveryName, refuseIf_eq_ok, parts_of_no_slash whole]
  rintro (same | large | same | same | same | many)
  · exact differs _ (by decide) same
  · omega
  · exact differs _ (by decide) same
  · exact differs _ (by decide) same
  · exact differs _ (by decide) same
  · exact many rfl

theorem IsId.validTemporary (id : IsId tmp) : validRecoveryName (tmp ++ ".tmp") = .ok () :=
  id.valid_append (by decide) (by decide) (by decide)

theorem IsId.validReceipt (id : IsId tmp) : validRecoveryName (tmp ++ ".json") = .ok () :=
  id.valid_append (by decide) (by decide) (by decide)

/-! ## Writing a receipt -/

theorem tmp_not_receipt (tmp : String) : isReceiptName (tmp ++ ".tmp") = false := by
  rw [← Bool.not_eq_true]
  intro json
  exact tmp_ne json rfl

theorem Written.version_ne (written : Written c t r) (json : isReceiptName n = true) : r.version ≠ n := by
  intro same
  rw [← same, written.data] at json
  cases json

/-- One receipt is new or replaced. -/
theorem Recoverable.insert (rec : Recoverable c t) (json : isReceiptName n = true)
    (valid : validRecoveryName n = .ok ()) (written : Written c t r)
    (own : ∀ name r', HasReceipt t.saved name r' → name ≠ n → r'.version ≠ r.version)
    (tree : openTree t.live = .ok ()) (live : u.live = t.live) (saved : u.saved = t.saved.insert n (.ofReceipt r)) : Recoverable c u := by
  have files : Files u.saved := saved ▸ rec.files.insert valid (Artifact.readable_receipt _ _)
  have anchored (path : String) (before : Anchored t.live path) : Anchored u.live path := live ▸ before
  have lookup (other : String) : u.saved.get? other = if other = n then some (.ofReceipt r) else t.saved.get? other := by
    rw [saved, OrdMap.get?_insert]
  refine rec.change (n := n) (fun name a there => (files name a there).1)
    (fun name a there => (files name a there).2) (fun _ _ => live ▸ tree) (fun name a _ here there => ?_)
    (fun _ r _ => anchored r.path)
    (fun name r' has _ a there => ?_) (fun a _ there => ?_)
  · rwa [lookup, if_neg here] at there
  · rwa [lookup, if_neg ((rec.written has).version_ne json)] at there
  · rw [lookup, if_pos rfl] at there
    cases there
    refine ⟨r, rfl, written.mono (anchored r.path) (fun a there => ?_), own⟩
    rwa [lookup, if_neg (written.version_ne json)] at there

/-- A receipt of an application or an owner action may be written, however far that comes. -/
theorem Recoverable.writing (rec : Recoverable c t) (id : IsId tmp)
    (unnamed : ∀ name r, HasReceipt t.saved name r → r.version ≠ tmp ++ ".tmp") (json : isReceiptName n = true)
    (valid : validRecoveryName n = .ok ()) (written : Written c t r)
    (own : ∀ name r', HasReceipt t.saved name r' → name ≠ n → r'.version ≠ r.version)
    (tree : openTree t.live = .ok ()) (ran : perform (writeReceipt tmp n r) steps t = (outcome, u)) : Recoverable c u ∧ u.live = t.live := by
  have live : u.live = t.live := perform_inv (P := fun u => u.live = t.live)
    (fun op member _ _ same done => (writeReceipt_live op member _ _ done).trans same) rfl ran
  have files : Files u.saved := perform_inv (P := fun u => Files u.saved)
    (fun op member _ _ files done => keepsFiles_writeReceipt id.validTemporary valid op member _ _ done files) rec.files ran
  refine ⟨?_, live⟩
  rcases perform_writeReceipt ran with ⟨-, same⟩ | ⟨-, absent, saved⟩
  · refine rec.change (n := tmp ++ ".tmp") (fun name a there => (files name a there).1)
      (fun name a there => (files name a there).2) (fun _ _ => live ▸ tree) (fun name a _ here there => ?_)
      (fun _ _ _ anchored => live ▸ anchored) (fun name r has _ a there => ?_) (fun a json _ => ?_)
    · rwa [same name here] at there
    · rwa [same r.version (unnamed name r has)] at there
    · rw [tmp_not_receipt] at json
      cases json
  · exact rec.insert json valid written own tree live (saved.trans (noted_of_absent absent))

end Clix.Pin
