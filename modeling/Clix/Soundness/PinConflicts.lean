import Clix.Proofs.PinPlan

/-! # Conflict inspection and synchronization

A synchronization is refused as a whole when the two baselines differ; the inspection goes path by
path. They agree except on one kind of state: the baselines differ, and a path on which the trees differ has
one baseline and was changed on one side. Once the owner has resolved what such a state shows, or where it shows
nothing, synchronizations are still refused.
-/

namespace Clix.Pin

open Except

variable {c : Crypto} {peer : Peer} {own loc : Manifest} {remote list : Listing} {a b path : String}

/-- A manifest of paths that synchronization accepts, as every scan returns. -/
def Valid (m : Manifest) : Prop := ∀ path, m.get? path ≠ none → validPath path = .ok ()

theorem validateListing_valid (success : validateListing list = .ok remote) :
    Valid remote.files ∧ Valid remote.baseline := by
  rw [validateListing, refuseIf_bind_eq_ok] at success
  obtain ⟨-, success⟩ := success
  dsimp only at success
  rw [bind_eq_ok] at success
  obtain ⟨⟨⟩, checked, success⟩ := success
  cases success
  have each : ∀ paths : List String, paths.forM validPath = .ok () → ∀ p ∈ paths, validPath p = .ok () := by
    intro paths passed
    induction paths with
    | nil => simp
    | cons p rest ih =>
      change (validPath p >>= fun _ => rest.forM validPath) = .ok () at passed
      rw [bind_eq_ok] at passed
      obtain ⟨⟨⟩, first, others⟩ := passed
      exact List.forall_mem_cons.mpr ⟨first, ih others⟩
  have listed := each _ checked
  constructor
  · intro path present
    exact listed path (List.mem_append_left _ (OrdMap.mem_keys_iff.mpr (Option.isSome_iff_ne_none.mpr present)))
  · intro path present
    exact listed path (List.mem_append_right _ (OrdMap.mem_keys_iff.mpr (Option.isSome_iff_ne_none.mpr present)))

/-- A path on which the trees differ that the inspection would show: what the machines last agreed on is
not the same there, or both have changed it. -/
def Shown (own loc : Manifest) (remote : Listing) (path : String) : Prop :=
  loc.get? path ≠ remote.files.get? path ∧ (own.get? path ≠ remote.baseline.get? path ∨
    (loc.get? path ≠ own.get? path ∧ remote.files.get? path ≠ own.get? path))

theorem isConflict_iff : isConflict (loc.get? path) (remote.files.get? path) (own.get? path)
    (remote.baseline.get? path) = true ↔ Shown own loc remote path := by
  simp [isConflict, Shown]

/-- The paths that the inspection lists. -/
def listed (own loc : Manifest) (remote : Listing) : List String :=
  (paths [loc, remote.files, own, remote.baseline]).filter (fun path =>
    isConflict (loc.get? path) (remote.files.get? path) (own.get? path) (remote.baseline.get? path))

/-- What the inspection says of a path. -/
def snapshot (c : Crypto) (peer : Peer) (own loc : Manifest) (remote : Listing) (path : String) :
    PinConflictSnapshot :=
  conflictSnapshot c peer path (loc.get? path) (remote.files.get? path) (own.get? path) (remote.baseline.get? path)

theorem conflicts_eq (c : Crypto) (peer : Peer) (own loc : Manifest) (remote : Listing) :
    (inspectPeerConflicts c peer own loc remote).conflicts =
      (listed own loc remote).map (snapshot c peer own loc remote) := rfl

/-- The inspection lists every path that it would show. -/
theorem mem_listed : path ∈ listed own loc remote ↔ Shown own loc remote path := by
  rw [listed, List.mem_filter, isConflict_iff]
  refine and_iff_right_of_imp (fun shown => mem_paths.mpr ?_)
  by_cases present : loc.get? path = .none
  · exact ⟨remote.files, by simp, fun absent => shown.1 (present.trans absent.symm)⟩
  · exact ⟨loc, by simp, present⟩

theorem conflicts_eq_nil_iff : (inspectPeerConflicts c peer own loc remote).conflicts = [] ↔
    ∀ path, ¬Shown own loc remote path := by
  rw [conflicts_eq, List.map_eq_nil_iff, List.eq_nil_iff_forall_not_mem]
  simp only [mem_listed]

/-! ## Resolving what is listed -/

/-- A manifest with another version of one path, or without it. -/
def settle (path : String) (version : Option Fingerprint) (m : Manifest) : Manifest :=
  match version with
  | some file => m.insert path file
  | none => m.erase path

theorem get?_settle (p : String) (version : Option Fingerprint) (m : Manifest) :
    (settle p version m).get? path = if path = p then version else m.get? path := by
  cases version with
  | some file => exact OrdMap.get?_insert ..
  | none => exact OrdMap.get?_erase ..

/-- The two trees after each conflict of a list was resolved, by taking the peer's version here or this machine's
version there. -/
def takeVersions (here : PinConflictSnapshot → Bool) :
    List PinConflictSnapshot → Manifest × Manifest → Manifest × Manifest
  | [], m => m
  | s :: rest, m => takeVersions here rest
    (if here s then (settle s.path s.remote m.1, m.2) else (m.1, settle s.path s.local_ m.2))

theorem get?_takeVersions (here : PinConflictSnapshot → Bool) (ps : List String) (m : Manifest × Manifest) :
    (takeVersions here (ps.map (snapshot c peer own loc remote)) m).1.get? path =
      (if path ∈ ps ∧ here (snapshot c peer own loc remote path) = true then remote.files.get? path
        else m.1.get? path) ∧
    (takeVersions here (ps.map (snapshot c peer own loc remote)) m).2.get? path =
      (if path ∈ ps ∧ here (snapshot c peer own loc remote path) = false then loc.get? path
        else m.2.get? path) := by
  induction ps generalizing m with
  | nil => simp [takeVersions]
  | cons p rest ih =>
    obtain ⟨first, second⟩ := ih (if here (snapshot c peer own loc remote p)
      then (settle p (remote.files.get? p) m.1, m.2) else (m.1, settle p (loc.get? p) m.2))
    rw [List.map_cons, takeVersions]
    refine ⟨first.trans ?_, second.trans ?_⟩
    · by_cases same : path = p
      · subst same
        cases side : here (snapshot c peer own loc remote path) <;> simp [get?_settle]
      · cases here (snapshot c peer own loc remote p) <;> simp [get?_settle, same]
    · by_cases same : path = p
      · subst same
        cases side : here (snapshot c peer own loc remote path) <;> simp [get?_settle]
      · cases here (snapshot c peer own loc remote p) <;> simp [get?_settle, same]

/-- The trees once every listed conflict is resolved. -/
def reconciled (c : Crypto) (peer : Peer) (own loc : Manifest) (remote : Listing) (here : PinConflictSnapshot → Bool) :
    Manifest × Manifest :=
  takeVersions here (inspectPeerConflicts c peer own loc remote).conflicts (loc, remote.files)

/-- They agree on every path that was listed, and are as they were on the others. -/
theorem reconciled_cases (here : PinConflictSnapshot → Bool) (path : String) :
    (Shown own loc remote path → (reconciled c peer own loc remote here).1.get? path =
      (reconciled c peer own loc remote here).2.get? path) ∧
    (¬Shown own loc remote path → (reconciled c peer own loc remote here).1.get? path = loc.get? path ∧
      (reconciled c peer own loc remote here).2.get? path = remote.files.get? path) := by
  obtain ⟨first, second⟩ : (takeVersions here ((listed own loc remote).map (snapshot c peer own loc remote))
      (loc, remote.files)).1.get? path = _ ∧ _ := get?_takeVersions here (listed own loc remote) (loc, remote.files)
  rw [reconciled, conflicts_eq, first, second]
  refine ⟨fun shown => ?_, fun unshown => ?_⟩
  · cases side : here (snapshot c peer own loc remote path) <;> simp [mem_listed.mpr shown]
  · simp [mt mem_listed.mp unshown]

/-- Over one baseline, the inspection shows exactly the paths that cannot be merged. -/
theorem not_shown_iff_agree (same : own = remote.baseline) : ¬Shown own loc remote path ↔
    ThreeWay.Agree (loc.get? path) (remote.files.get? path) (own.get? path) := by
  unfold Shown ThreeWay.Agree
  rw [same]
  tauto

theorem syncPlan_isOk (scanned : Valid loc) (files : Valid remote.files) (based : Valid remote.baseline) :
    (∃ planned, syncPlan own loc remote a b = .ok planned) ↔
      (own = remote.baseline ∧ ∀ path, ¬Shown own loc remote path) ∨ loc = remote.files := by
  have planned (base : Manifest) (valid : Valid base) :
      (∃ planned, plan loc remote.files base a b = .ok planned) ↔
        ∀ p, ThreeWay.Agree (loc.get? p) (remote.files.get? p) (base.get? p) := by
    rw [plan_isOk]
    constructor
    · intro plannable p
      by_cases listed : p ∈ paths [loc, remote.files, base]
      · exact (plannable p listed).2
      · rw [mem_paths] at listed
        push Not at listed
        simp only [List.mem_cons, List.not_mem_nil, or_false, forall_eq_or_imp, forall_eq] at listed
        exact .inl (listed.1.trans listed.2.1.symm)
    · intro agree p listed
      obtain ⟨m, member, present⟩ := mem_paths.mp listed
      simp only [List.mem_cons, List.not_mem_nil, or_false] at member
      refine ⟨?_, agree p⟩
      rcases member with rfl | rfl | rfl
      · exact scanned p present
      · exact files p present
      · exact valid p present
  simp only [syncPlan, bind_eq_ok, commonBaseline_eq_ok]
  constructor
  · rintro ⟨_, base, ⟨same, rfl⟩ | ⟨-, equal, -⟩, success⟩
    · refine .inl ⟨same, fun path => (not_shown_iff_agree same).mpr ?_⟩
      exact (planned base (same ▸ based)).mp ⟨_, success⟩ path
    · exact .inr equal
  · rintro (⟨same, none⟩ | equal)
    · obtain ⟨result, success⟩ := (planned own (same ▸ based)).mpr
        (fun p => (not_shown_iff_agree same).mp (none p))
      exact ⟨result, own, .inl ⟨same, rfl⟩, success⟩
    · by_cases same : own = remote.baseline
      · obtain ⟨result, success⟩ := (planned own (same ▸ based)).mpr (fun p => .inl (by rw [equal]))
        exact ⟨result, own, .inl ⟨same, rfl⟩, success⟩
      · obtain ⟨result, success⟩ := (planned loc scanned).mpr (fun p => .inl (by rw [equal]))
        exact ⟨result, loc, .inr ⟨same, equal, rfl⟩, success⟩

/-- Inspection agrees with synchronization: it lists nothing exactly when a synchronization is planned, and once
everything it lists is resolved, whichever version is taken, the next one is planned. -/
structure InspectionAgrees (c : Crypto) (peer : Peer) (own loc : Manifest) (remote : Listing) (a b : String) :
    Prop where
  listed : (inspectPeerConflicts c peer own loc remote).conflicts = [] ↔
    ∃ planned, syncPlan own loc remote a b = .ok planned
  reconciled : ∀ here, ∃ planned, syncPlan own (reconciled c peer own loc remote here).1
    ⟨(reconciled c peer own loc remote here).2, remote.baseline⟩ a b = .ok planned

theorem reconciled_valid (scanned : Valid loc) (files : Valid remote.files) (here : PinConflictSnapshot → Bool) :
    Valid (reconciled c peer own loc remote here).1 ∧ Valid (reconciled c peer own loc remote here).2 := by
  have each (path : String) (version : Option Fingerprint)
      (one : version = loc.get? path ∨ version = remote.files.get? path) (present : version ≠ none) :
      validPath path = .ok () := by
    rcases one with rfl | rfl
    · exact scanned path present
    · exact files path present
  have both (path : String) :
      (takeVersions here ((listed own loc remote).map (snapshot c peer own loc remote)) (loc, remote.files)).1.get? path =
        _ ∧ _ := get?_takeVersions here (listed own loc remote) (loc, remote.files)
  constructor
  · intro path
    refine each path _ ?_
    rw [reconciled, conflicts_eq, (both path).1]
    split_ifs
    · exact .inr rfl
    · exact .inl rfl
  · intro path
    refine each path _ ?_
    rw [reconciled, conflicts_eq, (both path).2]
    split_ifs
    · exact .inl rfl
    · exact .inr rfl

/-- The next synchronization is planned over one baseline, or when the inspection lists every path on which the trees
differ. -/
theorem syncPlan_reconciled (scanned : Valid loc) (files : Valid remote.files) (based : Valid remote.baseline)
    (here : PinConflictSnapshot → Bool) :
    (∃ planned, syncPlan own (reconciled c peer own loc remote here).1
      ⟨(reconciled c peer own loc remote here).2, remote.baseline⟩ a b = .ok planned) ↔
    own = remote.baseline ∨ ∀ path, loc.get? path ≠ remote.files.get? path → Shown own loc remote path := by
  obtain ⟨hereValid, thereValid⟩ := @reconciled_valid c peer own loc remote scanned files here
  rw [@syncPlan_isOk own _ ⟨(reconciled c peer own loc remote here).2, remote.baseline⟩ a b hereValid thereValid based]
  constructor
  · rintro (⟨same, -⟩ | equal)
    · exact .inl same
    · refine .inr (fun path differ => by_contra (fun unshown => differ ?_))
      obtain ⟨first, second⟩ := (reconciled_cases here path).2 unshown
      rw [← first, ← second]
      exact congrArg (OrdMap.get? · path) equal
  · rintro (same | all)
    · refine .inl ⟨same, fun path shown => ?_⟩
      by_cases before : Shown own loc remote path
      · exact shown.1 ((reconciled_cases here path).1 before)
      · obtain ⟨first, second⟩ := (reconciled_cases here path).2 before
        rw [Shown, first, second] at shown
        exact before shown
    · refine .inr (OrdMap.ext_get? (fun path => ?_))
      by_cases before : Shown own loc remote path
      · exact (reconciled_cases here path).1 before
      · obtain ⟨first, second⟩ := (reconciled_cases here path).2 before
        refine first.trans (Eq.trans (by_contra fun differ => before (all path differ)) second.symm)

/-- Inspection and synchronization agree exactly when the two baselines are one, or every path on which the trees
differ has two baselines or was changed on both sides. -/
theorem conflicts_agree_iff (c : Crypto) (peer : Peer) (own : Manifest) (a b : String) (scanned : Valid loc)
    (validated : validateListing list = .ok remote) :
    InspectionAgrees c peer own loc remote a b ↔
    own = remote.baseline ∨ ∀ path, loc.get? path ≠ remote.files.get? path →
      own.get? path ≠ remote.baseline.get? path ∨
        (loc.get? path ≠ own.get? path ∧ remote.files.get? path ≠ own.get? path) := by
  obtain ⟨files, based⟩ := validateListing_valid validated
  have next (here : PinConflictSnapshot → Bool) :=
    @syncPlan_reconciled c peer own loc remote a b scanned files based here
  have shown (path : String) (differ : loc.get? path ≠ remote.files.get? path) : Shown own loc remote path ↔
      own.get? path ≠ remote.baseline.get? path ∨
        (loc.get? path ≠ own.get? path ∧ remote.files.get? path ≠ own.get? path) := and_iff_right differ
  constructor
  · intro agrees
    refine ((next (fun _ => true)).mp (agrees.reconciled _)).imp id (fun all path differ => ?_)
    exact (shown path differ).mp (all path differ)
  · intro condition
    have all : own = remote.baseline ∨ ∀ path, loc.get? path ≠ remote.files.get? path → Shown own loc remote path :=
      condition.imp id (fun each path differ => (shown path differ).mpr (each path differ))
    refine ⟨?_, fun here => (next here).mpr all⟩
    rw [conflicts_eq_nil_iff, syncPlan_isOk scanned files based]
    refine ⟨fun none => all.imp (fun same => ⟨same, none⟩) (fun each => OrdMap.ext_get? (fun path => ?_)), ?_⟩
    · exact by_contra (fun differ => none path (each path differ))
    · rintro (⟨-, none⟩ | equal) path
      · exact none path
      · exact fun differ => differ.1 (by rw [equal])

namespace ConflictExample

def seen : Fingerprint := ⟨"1", 420⟩

def edited : Fingerprint := ⟨"2", 420⟩

/-- What the peer has, and has recorded as agreed on. -/
def theirs : Listing := ⟨OrdMap.insert ∅ "a" seen, OrdMap.insert ∅ "a" seen⟩

theorem valid_insert {m : Manifest} {path : String} {file : Fingerprint} (valid : Valid m)
    (accepted : validPath path = .ok ()) : Valid (m.insert path file) := by
  intro other present
  rw [OrdMap.get?_insert] at present
  split_ifs at present with same
  · exact same ▸ accepted
  · exact valid other present

theorem valid_empty : Valid ∅ := fun _ present => absurd rfl present

/-- After an interrupted commit, an edit of the file itself is listed, and whichever version is taken, the next
synchronization is planned. -/
theorem edited_agrees :
    (inspectPeerConflicts Crypto.transparent ⟨⟨"peer"⟩, [], none⟩ ∅ (OrdMap.insert ∅ "a" edited) theirs).conflicts.map
        (·.path) = ["a"] ∧
      InspectionAgrees Crypto.transparent ⟨⟨"peer"⟩, [], none⟩ ∅ (OrdMap.insert ∅ "a" edited) theirs "here" "peer" := by
  have validated : validateListing theirs = .ok theirs := by decide
  refine ⟨by decide, (conflicts_agree_iff Crypto.transparent ⟨⟨"peer"⟩, [], none⟩ ∅ "here" "peer"
    (valid_insert valid_empty (by rfl)) validated).mpr (.inr (fun path differ => .inl ?_))⟩
  by_cases here : path = "a"
  · subst here
    decide
  · refine absurd ?_ differ
    rw [OrdMap.get?_insert_of_ne _ _ here, theirs, OrdMap.get?_insert_of_ne _ _ here]

/-- After an interrupted commit, an edit of another file is not synchronized, and the inspection shows no conflict. -/
theorem hidden_conflict : Valid (OrdMap.insert (OrdMap.insert ∅ "a" seen) "b" edited) ∧
    validateListing theirs = .ok theirs ∧
    (inspectPeerConflicts Crypto.transparent ⟨⟨"peer"⟩, [], none⟩ ∅
      (OrdMap.insert (OrdMap.insert ∅ "a" seen) "b" edited) theirs).conflicts = [] ∧
    syncPlan ∅ (OrdMap.insert (OrdMap.insert ∅ "a" seen) "b" edited) theirs "here" "peer" =
      .error (conflict "(sync baseline)" "local baseline" "peer baseline") ∧
    ¬InspectionAgrees Crypto.transparent ⟨⟨"peer"⟩, [], none⟩ ∅
      (OrdMap.insert (OrdMap.insert ∅ "a" seen) "b" edited) theirs "here" "peer" := by
  have nothing : (inspectPeerConflicts Crypto.transparent ⟨⟨"peer"⟩, [], none⟩ ∅
      (OrdMap.insert (OrdMap.insert ∅ "a" seen) "b" edited) theirs).conflicts = [] := by decide
  have refused : syncPlan ∅ (OrdMap.insert (OrdMap.insert ∅ "a" seen) "b" edited) theirs "here" "peer" =
      .error (conflict "(sync baseline)" "local baseline" "peer baseline") := by decide
  refine ⟨valid_insert (valid_insert valid_empty (by rfl)) (by rfl), by decide, nothing, refused, fun agrees => ?_⟩
  obtain ⟨planned, success⟩ := agrees.listed.mp nothing
  rw [refused] at success
  cases success

end ConflictExample

end Clix.Pin
