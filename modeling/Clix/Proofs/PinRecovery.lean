import Clix.Proofs.PinApply
import Clix.Model.Encode

/-! # The recovery directory under review

A synchronization needs every receipt to be settled, the version each names to be as it was displaced, and
no data without a receipt. A settled receipt with the version it names, both under new names, keeps it so; a
pending receipt ends it.
-/

namespace Clix.Pin

open Except

variable {c : Crypto} {saved saved' : OrdMap String Artifact} {ignored : List String} {name : String}
  {r : RecoveryReceipt} {text : Bytes} {f : File} {ids : Ids}

/-- The recovery directory as a synchronization needs it. -/
structure Reviewed (c : Crypto) (saved : OrdMap String Artifact) (ignored : List String) : Prop where
  named : ∀ name, saved.get? name ≠ none → validRecoveryName name = .ok ()
  bytes : (saved.entries.map (fun e => e.2.size)).sum ≤ maxRecoveryBytes
  entries : saved.size ≤ maxRecoveryEntries
  receipts : ∀ name, saved.get? name ≠ none → isReceiptName name = true → name ∉ ignored →
    checkReceipt c saved name = .ok ()
  owned : ∀ name, saved.get? name ≠ none → isReceiptName name = false →
    (∀ id, saved.get? id ≠ none → isReceiptName id = true → id ∉ ignored → versionOf saved id ≠ some name) →
    ignored.any (ownedBy saved name) = true

theorem mem_keys_iff_ne_none {α : Type} {saved : OrdMap String α} :
    name ∈ saved.keys ↔ saved.get? name ≠ none := by
  rw [OrdMap.mem_keys_iff, OrdMap.contains_eq_true_iff, Option.ne_none_iff_exists']

theorem recoveryUsage_eq_ok {usage : ℕ × ℕ} : recoveryUsage saved = .ok usage ↔
    (∀ name, saved.get? name ≠ none → validRecoveryName name = .ok ()) ∧
      usage = ((saved.entries.map (fun e => e.2.size)).sum, saved.size) := by
  rw [recoveryUsage, bind_eq_ok]
  constructor
  · rintro ⟨⟨⟩, checked, success⟩
    cases success
    exact ⟨fun name present => List.forM_except_eq_ok.mp checked name (mem_keys_iff_ne_none.mpr present), rfl⟩
  · rintro ⟨named, rfl⟩
    exact ⟨(), List.forM_except_eq_ok.mpr (fun name member => named name (mem_keys_iff_ne_none.mp member)), rfl⟩

theorem checkRecoveryExcept_eq_ok :
    checkRecoveryExcept c saved ignored = .ok () ↔ Reviewed c saved ignored := by
  have receipt (id : String) : id ∈ saved.keys.filter (fun name => isReceiptName name && !ignored.contains name) ↔
      saved.get? id ≠ none ∧ isReceiptName id = true ∧ id ∉ ignored := by
    simp only [List.mem_filter, mem_keys_iff_ne_none, Bool.and_eq_true, Bool.not_eq_true', List.contains_eq_mem,
      decide_eq_false_iff_not]
  constructor
  · intro checked
    rw [checkRecoveryExcept, bind_eq_ok] at checked
    obtain ⟨⟨total, count⟩, usage, checked⟩ := checked
    obtain ⟨named, sums⟩ := recoveryUsage_eq_ok.mp usage
    cases sums
    dsimp only at checked
    rw [refuseIf_bind_eq_ok, not_or, not_lt, not_lt] at checked
    obtain ⟨⟨bytes, entries⟩, checked⟩ := checked
    rw [bind_eq_ok] at checked
    obtain ⟨keys, listed, checked⟩ := checked
    rw [recoveryNames, refuseIf_bind_eq_ok] at listed
    cases listed.2
    rw [bind_eq_ok] at checked
    obtain ⟨⟨⟩, receipts, checked⟩ := checked
    refine ⟨named, bytes, entries, fun name present json unignored => ?_, fun name present data unnamed => ?_⟩
    · exact List.forM_except_eq_ok.mp receipts name ((receipt name).mpr ⟨present, json, unignored⟩)
    · have each := List.forM_except_eq_ok.mp checked name (List.mem_filter.mpr
        ⟨mem_keys_iff_ne_none.mpr present, by
          rw [data]
          simp only [Bool.not_false, Bool.true_and, Bool.not_eq_true', List.contains_eq_mem,
            decide_eq_false_iff_not, List.mem_filterMap, not_exists, not_and]
          intro id listed
          obtain ⟨there, json, unignored⟩ := (receipt id).mp (by simpa using listed)
          exact unnamed id there json unignored⟩)
      rw [refuseIf_eq_ok, Bool.not_eq_false] at each
      exact each
  · rintro ⟨named, bytes, entries, receipts, owned⟩
    rw [checkRecoveryExcept, recoveryUsage_eq_ok.mpr ⟨named, rfl⟩, ok_bind]
    dsimp only
    rw [refuseIf_neg (not_or.mpr ⟨not_lt.mpr bytes, not_lt.mpr entries⟩), ok_bind, recoveryNames,
      refuseIf_neg (not_lt.mpr (by omega)), ok_bind, pure_eq_ok, ok_bind]
    have all : (saved.keys.filter (fun name => isReceiptName name && !ignored.contains name)).forM
        (checkReceipt c saved) = .ok () := List.forM_except_eq_ok.mpr (fun name listed => by
      obtain ⟨there, json, unignored⟩ := (receipt name).mp listed
      exact receipts name there json unignored)
    rw [all, ok_bind]
    refine List.forM_except_eq_ok.mpr (fun name listed => ?_)
    obtain ⟨member, unnamed⟩ := List.mem_filter.mp listed
    simp only [Bool.and_eq_true, Bool.not_eq_true', List.contains_eq_mem, decide_eq_false_iff_not,
      List.mem_filterMap, not_exists, not_and] at unnamed
    rw [refuseIf_eq_ok, Bool.not_eq_false]
    exact owned name (mem_keys_iff_ne_none.mp member) unnamed.1 (fun id there json unignored =>
      unnamed.2 id (by simpa using (receipt id).mpr ⟨there, json, unignored⟩))

/-! ## One receipt -/

/-- An entry that can be opened: a regular file with the permission to read it. -/
def Artifact.Readable (a : Artifact) : Prop := ∃ f, a.file? = some f ∧ mayRead f.mode = true

/-- A receipt of any text can be opened. -/
theorem Artifact.readable_receipt (text : Bytes) (r : RecoveryReceipt) : (Artifact.receipt text r).Readable :=
  ⟨⟨text, 0o600⟩, rfl, (by decide : mayRead 0o600 = true)⟩

theorem openInternal_eq_ok {found : Option File} : openInternal saved name = .ok found ↔
    validRecoveryName name = .ok () ∧ (∀ a, saved.get? name = some a → a.Readable) ∧
      found = (saved.get? name).bind (·.file?) := by
  rw [openInternal]
  constructor
  · intro success
    obtain ⟨⟨⟩, valid, success⟩ := bind_eq_ok.mp success
    refine ⟨valid, ?_⟩
    cases there : saved.get? name with
    | none =>
      rw [there] at success
      cases success
      exact ⟨by simp, rfl⟩
    | some a =>
      rw [there] at success
      dsimp only at success
      cases isFile : a.file? with
      | none =>
        rw [isFile] at success
        cases success
      | some f =>
        rw [isFile] at success
        dsimp only at success
        rw [refuseIf_bind_eq_ok, Bool.not_eq_false] at success
        obtain ⟨readable, success⟩ := success
        cases success
        refine ⟨fun b same => ?_, isFile.symm⟩
        cases same
        exact ⟨f, isFile, readable⟩
  · rintro ⟨valid, plain, rfl⟩
    rw [valid, ok_bind]
    cases there : saved.get? name with
    | none => rfl
    | some a =>
      obtain ⟨f, isFile, readable⟩ := plain a there
      dsimp only
      rw [isFile, Option.bind_some, isFile]
      dsimp only
      rw [refuseIf_neg (by rw [readable]; simp)]
      rfl

/-- The receipt under a name is opened with its text. -/
theorem openInternal_receipt (found : saved.get? name = some (.receipt text r)) (valid : validRecoveryName name = .ok ()) :
    openInternal saved name = .ok (some ⟨text, 0o600⟩) := by
  refine openInternal_eq_ok.mpr ⟨valid, fun a there => ?_, by rw [found]; rfl⟩
  rw [found] at there
  cases there
  exact Artifact.readable_receipt text r

theorem openInternal_congr (same : saved'.get? name = saved.get? name) :
    openInternal saved' name = openInternal saved name := by
  rw [openInternal, openInternal, same]

theorem readReceipt_congr (same : saved'.get? name = saved.get? name) :
    readReceipt saved' name = readReceipt saved name := by
  rw [readReceipt, readReceipt, openInternal_congr same, same]

theorem ownedBy_congr {id : String} (same : saved'.get? id = saved.get? id) :
    ownedBy saved' name id = ownedBy saved name id := by
  rw [ownedBy, ownedBy, readReceipt_congr same]

theorem readReceipt_eq_ok (success : readReceipt saved name = .ok r) :
    ∃ text, saved.get? name = some (.receipt text r) := by
  rw [readReceipt, bind_eq_ok] at success
  obtain ⟨found, -, success⟩ := success
  cases found with
  | none => cases success
  | some f =>
    dsimp only at success
    rw [refuseIf_bind_eq_ok] at success
    obtain ⟨-, success⟩ := success
    split at success
    · cases success
    · next value found =>
      cases success
      obtain ⟨artifact, there, value⟩ := Option.bind_eq_some_iff.mp found
      cases artifact with
      | receipt text r' =>
        cases value
        exact ⟨text, there⟩
      | file f => cases value
      | other n => cases value

theorem parseReceipt_eq_ok {r' : RecoveryReceipt} : parseReceipt r = .ok r' ↔ r' = r ∧
    validReceiptPath r = .ok () ∧ validRecoveryName r.version = .ok () ∧
    ¬((endsWith r.version ".json" = true ∧ ¬(r.state = .discarding ∧ r.path = "")) ∨
      (endsWith r.version ".tmp" = true ∧ r.state ≠ .discarding)) := by
  rw [parseReceipt, bind_eq_ok]
  constructor
  · rintro ⟨⟨⟩, path, parsed⟩
    rw [bind_eq_ok] at parsed
    obtain ⟨⟨⟩, version, parsed⟩ := parsed
    rw [refuseIf_bind_eq_ok] at parsed
    obtain ⟨data, parsed⟩ := parsed
    cases parsed
    exact ⟨rfl, path, version, data⟩
  · rintro ⟨rfl, path, version, data⟩
    exact ⟨(), path, by rw [version, ok_bind, refuseIf_neg data]; rfl⟩

/-- The parts of a receipt that is in order. -/
theorem checkReceipt_eq_ok (checked : checkReceipt c saved name = .ok ()) : ∃ text r,
    saved.get? name = some (.receipt text r) ∧ (r.state = .retained ∨ r.state = .resolved) ∧
      parseReceipt r = .ok r ∧ internalSnapshot c saved r.version = .ok r.expected := by
  rw [checkReceipt, bind_eq_ok] at checked
  obtain ⟨r, readable, checked⟩ := checked
  obtain ⟨text, found⟩ := readReceipt_eq_ok readable
  rw [refuseIf_bind_eq_ok] at checked
  obtain ⟨settled, checked⟩ := checked
  rw [bind_eq_ok] at checked
  obtain ⟨r', parsed, checked⟩ := checked
  have same := (parseReceipt_eq_ok.mp parsed).1
  subst same
  rw [bind_eq_ok] at checked
  obtain ⟨actual, snapshot, checked⟩ := checked
  rw [refuseIf_eq_ok, not_not] at checked
  subst checked
  exact ⟨text, r', found, by tauto, parsed, snapshot⟩

/-- A receipt and its version in two directories. -/
theorem checkReceipt_congr (same : saved'.get? name = saved.get? name)
    (version : ∀ text r, saved.get? name = some (.receipt text r) → saved'.get? r.version = saved.get? r.version) :
    checkReceipt c saved' name = checkReceipt c saved name := by
  rw [checkReceipt, checkReceipt, readReceipt_congr same]
  cases readable : readReceipt saved name with
  | error e => rfl
  | ok r =>
    obtain ⟨text, found⟩ := readReceipt_eq_ok readable
    rw [ok_bind, ok_bind]
    congr 1
    funext _
    cases parsed : parseReceipt r with
    | error e => rfl
    | ok r' =>
      have same := (parseReceipt_eq_ok.mp parsed).1
      subst same
      rw [ok_bind, ok_bind, internalSnapshot, internalSnapshot, openInternal_congr (version text r' found)]

/-- A pending receipt stops every synchronization. -/
theorem not_reviewed_of_pending (found : saved.get? name = some (.receipt text r)) (pending : r.state = .pending)
    (json : isReceiptName name = true) : checkRecoveryExcept c saved [] ≠ .ok () := by
  intro checked
  have inOrder := (checkRecoveryExcept_eq_ok.mp checked).receipts name (by rw [found]; simp) json List.not_mem_nil
  obtain ⟨text', r', found', settled, -, -⟩ := checkReceipt_eq_ok inOrder
  rw [found] at found'
  cases found'
  rw [pending] at settled
  rcases settled with settled | settled <;> cases settled

/-! ## New names -/

/-- The shape of a random ID. -/
def IsId (id : String) : Prop := id ≠ "" ∧ id.utf8ByteSize ≤ 64 ∧ '.' ∉ id.toList ∧ '/' ∉ id.toList

/-- The random IDs of an application are new in the recovery directory: nothing has their names, and no
receipt names their version. -/
structure Ids.Fresh (ids : Ids) (saved : OrdMap String Artifact) (ignored : List String) : Prop where
  version : IsId ids.version
  noVersion : saved.get? ids.version = none
  noReceipt : saved.get? ids.receiptName = none
  noTemporary : saved.get? (ids.first ++ ".tmp") = none
  unnamed : ∀ name text r, saved.get? name = some (.receipt text r) → r.version ≠ ids.version
  unignored : ids.version ∉ ignored ∧ ids.receiptName ∉ ignored

theorem parts_of_no_slash (plain : '/' ∉ name.toList) : parts name = [name] := by
  have whole : name.toList = ['/'].intercalate [name.toList] := by simp
  rw [parts, whole, List.splitOn_intercalate _ (by simpa using plain) (by simp)]
  simp

theorem validRecoveryName_of {name : String} (long : 6 ≤ name.utf8ByteSize) (short : name.utf8ByteSize ≤ 200)
    (plain : '/' ∉ name.toList) : validRecoveryName name = .ok () := by
  rw [validRecoveryName, refuseIf_eq_ok, parts_of_no_slash plain]
  rintro (same | large | same | same | same | many)
  · rw [same] at long
    exact absurd long (by decide)
  · omega
  · rw [same] at long
    exact absurd long (by decide)
  · rw [same] at long
    exact absurd long (by decide)
  · rw [same] at long
    exact absurd long (by decide)
  · exact many rfl

theorem IsId.validName (id : IsId name) : validRecoveryName name = .ok () := by
  rw [validRecoveryName, refuseIf_eq_ok, parts_of_no_slash id.2.2.2]
  have dots : ∀ other : String, '.' ∈ other.toList → name ≠ other := fun other dot same =>
    id.2.2.1 (same ▸ dot)
  rintro (same | large | same | same | same | many)
  · exact id.1 same
  · have := id.2.1
    omega
  · exact dots _ (by decide) same
  · exact dots _ (by decide) same
  · exact dots _ (by decide) same
  · exact many rfl

theorem endsWith_append (name ending : String) : endsWith (name ++ ending) ending = true := by
  rw [endsWith, List.isSuffixOf_iff_suffix, String.toList_append]
  exact List.suffix_append _ _

/-- An ID ends in no extension. -/
theorem IsId.endsWith {ending : String} (id : IsId name) (dot : '.' ∈ ending.toList) :
    endsWith name ending = false := by
  rw [← Bool.not_eq_true, Pin.endsWith, List.isSuffixOf_iff_suffix]
  exact fun suffix => id.2.2.1 (suffix.subset dot)

theorem Ids.Fresh.receiptName_valid (fresh : ids.Fresh saved ignored) :
    validRecoveryName ids.receiptName = .ok () := by
  have size : ids.receiptName.utf8ByteSize = ids.version.utf8ByteSize + 5 := String.utf8ByteSize_append
  have short := fresh.version.2.1
  have long : 0 < ids.version.utf8ByteSize := by
    rw [Nat.pos_iff_ne_zero, ne_eq, String.utf8ByteSize_eq_zero_iff]
    exact fresh.version.1
  refine validRecoveryName_of (by omega) (by omega) ?_
  rw [Ids.receiptName, String.toList_append, List.mem_append, not_or]
  exact ⟨fresh.version.2.2.2, by decide⟩

theorem Ids.receiptName_isReceiptName (ids : Ids) : isReceiptName ids.receiptName = true := endsWith_append _ _

/-- Names with different endings differ. -/
theorem receiptName_ne_tmp (ids : Ids) (tmp : String) : ids.receiptName ≠ tmp ++ ".tmp" := by
  intro same
  have last := congrArg (fun name : String => name.toList.getLast?) same
  simp only [Ids.receiptName, String.toList_append] at last
  rw [List.getLast?_append_of_ne_nil _ (by decide), List.getLast?_append_of_ne_nil _ (by decide)] at last
  revert last
  decide

theorem IsId.ne_append {ending other : String} (id : IsId name) (dot : '.' ∈ ending.toList) :
    name ≠ other ++ ending := by
  intro same
  refine id.2.2.1 ?_
  rw [same, String.toList_append]
  exact List.mem_append_right _ dot

/-! ## Settling a change -/

/-- What settles a change keeps the directory in order: a settled receipt, and the version it names. -/
theorem Reviewed.settle {was : Option File} (before : Reviewed c saved ignored) (fresh : ids.Fresh saved ignored)
    (readable : ∀ f, was = some f → mayRead f.mode = true)
    (entries : ∀ name, saved'.get? name = if name = ids.version then was.map .file
      else if name = ids.receiptName then some (.ofReceipt r) else saved.get? name)
    (version : r.version = ids.version) (state : r.state = .retained ∨ r.state = .resolved)
    (path : validPath r.path = .ok ()) (expected : r.expected = was.map (·.fingerprint c))
    (small : Json.size r ≤ maxReceipt)
    (bytes : (saved.entries.map (fun e => e.2.size)).sum + Json.size r + was.elim 0 (·.bytes.length) ≤
      maxRecoveryBytes)
    (count : saved.size + 2 ≤ maxRecoveryEntries) : Reviewed c saved' ignored := by
  have distinct : ids.receiptName ≠ ids.version := Ne.symm (fresh.version.ne_append (by decide))
  have atVersion : saved'.get? ids.version = was.map .file := by rw [entries, if_pos rfl]
  have atReceipt : saved'.get? ids.receiptName = some (.ofReceipt r) := by
    rw [entries, if_neg distinct, if_pos rfl]
  have elsewhere (name : String) (notVersion : name ≠ ids.version) (notReceipt : name ≠ ids.receiptName) :
      saved'.get? name = saved.get? name := by rw [entries, if_neg notVersion, if_neg notReceipt]
  have old {name : String} (present : saved.get? name ≠ none) : name ≠ ids.version ∧ name ≠ ids.receiptName :=
    ⟨fun same => present (same ▸ fresh.noVersion), fun same => present (same ▸ fresh.noReceipt)⟩
  -- The directory with its entries counted.
  have built : saved' = was.elim (saved.insert ids.receiptName (.ofReceipt r))
      (fun f => (saved.insert ids.receiptName (.ofReceipt r)).insert ids.version (.file f)) := by
    refine OrdMap.ext_get? (fun name => ?_)
    rw [entries]
    cases was with
    | none =>
      rw [Option.elim_none, OrdMap.get?_insert]
      by_cases here : name = ids.version
      · rw [if_pos here, here, if_neg (Ne.symm distinct), fresh.noVersion]
        rfl
      · rw [if_neg here]
    | some f =>
      rw [Option.elim_some, OrdMap.get?_insert, OrdMap.get?_insert]
      rfl
  have first := OrdMap.sum_insert_of_none (fun e => e.2.size) (Artifact.ofReceipt r) fresh.noReceipt
  have firstCount := OrdMap.size_insert_of_none (Artifact.ofReceipt r) fresh.noReceipt
  have absent : (saved.insert ids.receiptName (.ofReceipt r)).get? ids.version = none := by
    rw [OrdMap.get?_insert, if_neg (Ne.symm distinct), fresh.noVersion]
  refine ⟨fun name present => ?_, ?_, ?_, fun name present json unignored => ?_, fun name present data unnamed => ?_⟩
  · by_cases here : name = ids.version
    · exact here ▸ fresh.version.validName
    · by_cases there : name = ids.receiptName
      · exact there ▸ fresh.receiptName_valid
      · exact before.named name (by rwa [elsewhere name here there] at present)
  · cases was with
    | none =>
      rw [built, Option.elim_none, first]
      exact bytes
    | some f =>
      have second := OrdMap.sum_insert_of_none (fun e => e.2.size) (Artifact.file f) absent
      rw [built, Option.elim_some, second, first]
      exact bytes
  · cases was with
    | none =>
      rw [built, Option.elim_none, firstCount]
      omega
    | some f =>
      rw [built, Option.elim_some, OrdMap.size_insert_of_none (Artifact.file f) absent, firstCount]
      omega
  · by_cases there : name = ids.receiptName
    · subst there
      have opened : readReceipt saved' ids.receiptName = .ok r := by
        rw [readReceipt, openInternal_receipt atReceipt fresh.receiptName_valid, ok_bind, atReceipt]
        dsimp only
        have fits : ¬maxReceipt < (Json.toVec r).length := not_lt.mpr small
        rw [refuseIf_neg fits, ok_bind]
        rfl
      have named : validReceiptPath r = .ok () := by
        rw [validReceiptPath, path, ite_self]
      have data : ¬((endsWith r.version ".json" = true ∧ ¬(r.state = .discarding ∧ r.path = "")) ∨
          (endsWith r.version ".tmp" = true ∧ r.state ≠ .discarding)) := by
        rw [version, fresh.version.endsWith (by decide), fresh.version.endsWith (by decide)]
        simp
      have parsed := parseReceipt_eq_ok.mpr ⟨rfl, named, version ▸ fresh.version.validName, data⟩
      have snapshot : internalSnapshot c saved' r.version = .ok r.expected := by
        have opened : openInternal saved' ids.version = .ok was := by
          refine openInternal_eq_ok.mpr ⟨fresh.version.validName, fun a there => ?_, ?_⟩ <;> rw [atVersion] at *
          · obtain ⟨f, isFile, rfl⟩ := Option.map_eq_some_iff.mp there
            exact ⟨f, rfl, readable f isFile⟩
          · cases was <;> rfl
        rw [internalSnapshot, version, opened, ok_bind, expected]
        rfl
      rw [checkReceipt, opened, ok_bind, refuseIf_neg (by rcases state with same | same <;> simp [same]), ok_bind,
        parsed, ok_bind, snapshot, ok_bind, refuseIf_neg (not_not.mpr rfl)]
    · have here : name ≠ ids.version := fun same => by
        rw [same, isReceiptName, fresh.version.endsWith (by decide)] at json
        cases json
      rw [elsewhere name here there] at present
      have inOrder := before.receipts name present json unignored
      rw [checkReceipt_congr (elsewhere name here there), inOrder]
      intro text r' found
      obtain ⟨text', r'', found', -, parsed, -⟩ := checkReceipt_eq_ok inOrder
      rw [found] at found'
      cases found'
      refine elsewhere _ (fresh.unnamed name text r' found) (fun same => ?_)
      obtain ⟨-, -, -, data⟩ := parseReceipt_eq_ok.mp parsed
      rw [same, Ids.receiptName, endsWith_append] at data
      obtain ⟨text'', r₂, found'', settled, -, -⟩ := checkReceipt_eq_ok inOrder
      rw [found] at found''
      cases found''
      refine data (.inl ⟨rfl, fun discarded => ?_⟩)
      rw [discarded.1] at settled
      rcases settled with settled | settled <;> cases settled
  · by_cases here : name = ids.version
    · subst here
      refine absurd ?_ (unnamed ids.receiptName (by rw [atReceipt]; simp) ids.receiptName_isReceiptName
        fresh.unignored.2)
      rw [versionOf, atReceipt]
      exact congrArg some version
    · have there : name ≠ ids.receiptName := fun same => by
        rw [same, ids.receiptName_isReceiptName] at data
        cases data
      rw [elsewhere name here there] at present
      have owned := before.owned name present data (fun id present json unignored => ?_)
      · rw [List.any_eq_true] at owned ⊢
        obtain ⟨id, member, owns⟩ := owned
        refine ⟨id, member, ?_⟩
        rw [ownedBy_congr (elsewhere id (fun same => fresh.unignored.1 (same ▸ member))
          (fun same => fresh.unignored.2 (same ▸ member)))]
        exact owns
      · have same := elsewhere id (old present).1 (old present).2
        have still := unnamed id (by rw [same]; exact present) json unignored
        rwa [versionOf, same, ← versionOf] at still

theorem size_fingerprint_le {fp : Option Fingerprint} (digest : ∀ f, fp = some f → f.hash.utf8ByteSize = 64) :
    Json.size fp ≤ 500 := by
  cases fp with
  | none => decide
  | some f =>
    have hash := Json.length_string_le f.hash
    rw [digest f rfl] at hash
    have mode : (Json.digits f.mode.toNat).length ≤ 10 :=
      (Json.length_digits_le_iff (by omega)).mpr (f.mode.toNat_lt.trans (by decide))
    change (Json.object [Json.field "hash" (Json.string f.hash),
      Json.field "mode" (Json.digits f.mode.toNat)]).length ≤ 500
    have h : (Json.string "hash").length = 6 := by decide
    have m : (Json.string "mode").length = 6 := by decide
    rw [Json.length_object]
    simp only [List.map_cons, List.map_nil, List.sum_cons, List.sum_nil, Json.length_field, h, m]
    omega

/-- A receipt of this program is not too long to be read back. -/
theorem size_receipt_le (path : r.path.utf8ByteSize < 4096) (version : r.version.utf8ByteSize ≤ 200)
    (expected : ∀ fp, r.expected = some fp → fp.hash.utf8ByteSize = 64)
    (replacement : ∀ fp, r.replacement = some fp → fp.hash.utf8ByteSize = 64)
    (source : ∀ id, r.sourceReceipt = some id → id.utf8ByteSize ≤ 200)
    (token : ∀ token, r.discardToken = some token → token.utf8ByteSize = 64) : Json.size r ≤ maxReceipt := by
  have pathText := Json.length_string_le r.path
  have versionText := Json.length_string_le r.version
  have stateText : (Json.string r.state.text).length ≤ 12 := by cases r.state <;> decide
  have left : (Json.toVec r.expected).length ≤ 500 := size_fingerprint_le expected
  have right : (Json.toVec r.replacement).length ≤ 500 := size_fingerprint_le replacement
  have optional (key : String) (short : (Json.string key).length ≤ 20) (text : Option String)
      (bound : ∀ value, text = some value → value.utf8ByteSize ≤ 200) :
      ((text.map (fun value => Json.field key (Json.toVec value))).toList.map (fun item => item.length + 1)).sum ≤
        1300 := by
    cases present : text with
    | none => exact Nat.zero_le _
    | some value =>
      have valueText := Json.length_string_le value
      have small := bound value present
      change ([Json.field key (Json.string value)].map (fun item => item.length + 1)).sum ≤ 1300
      simp only [List.map_cons, List.map_nil, List.sum_cons, List.sum_nil, Json.length_field]
      omega
  have sourceText := optional "source_receipt" (by decide) r.sourceReceipt source
  have tokenText := optional "discard_token" (by decide) r.discardToken (fun value same => by rw [token value same]; omega)
  have e : (Json.string "expected").length = 10 := by decide
  have p : (Json.string "path").length = 6 := by decide
  have n : (Json.string "replacement").length = 13 := by decide
  have t : (Json.string "state").length = 7 := by decide
  have v : (Json.string "version").length = 9 := by decide
  change (Json.object _).length ≤ maxReceipt
  rw [Json.length_object]
  simp only [List.map_append, List.sum_append, List.map_cons, List.map_nil, List.sum_cons, List.sum_nil,
    Json.length_field, e, p, n, t, v]
  have limit : maxReceipt = 65536 := rfl
  change (Json.toVec r.path).length ≤ _ at pathText
  change (Json.toVec r.version).length ≤ _ at versionText
  omega

end Clix.Pin
