import Clix.Proofs.PinSession
import Clix.Soundness.PinConflicts

/-! # Merging two trees

A plan exists exactly when no path was changed in two ways. Applied to the two sides it makes both the merge,
keeps every edit, and does not depend on which side is called local. A synchronization of two trees that
returns has made both trees the merge and recorded it on both sides; one that cannot be planned has changed
nothing.
-/

namespace OrdMap

variable {κ : Type} [LinearOrder κ]

/-- A set is determined by the keys put into it. -/
theorem extend_congr {ks ks' : List κ} (same : ∀ k, k ∈ ks ↔ k ∈ ks') :
    (∅ : OrdSet κ).extend ks = (∅ : OrdSet κ).extend ks' := by
  refine ext_get? (fun k => ?_)
  have equal : ((∅ : OrdSet κ).extend ks).contains k = ((∅ : OrdSet κ).extend ks').contains k := by
    rw [contains_extend, contains_extend, contains_empty, Bool.false_or, Bool.false_or]
    exact Bool.eq_iff_iff.mpr (by simpa using same k)
  unfold contains at equal
  cases left : ((∅ : OrdSet κ).extend ks).get? k <;> cases right : ((∅ : OrdSet κ).extend ks').get? k <;>
    rw [left, right] at equal
  · cases equal
  · cases equal

end OrdMap

namespace Clix.Pin

open Except

variable {c : Crypto} {loc rem base merged : Manifest} {a b path : String} {changes : List Change} {ch : Change}
  {l r v : Option Fingerprint} {hostA hostB : Host} {wa wb : Weather} {ids : String → Ids} {m n m' n' : Machine}
  {result : Result Unit}

/-! ## Plans and manifests -/

/-- A change taken by a manifest. -/
def Change.applyTo (files : Manifest) (ch : Change) : Manifest := ch.new.elim (files.erase ch.path) (files.insert ch.path)

/-- The same change seen from the other side. -/
def Change.flip (ch : Change) : Change := { ch with toRemote := !ch.toRemote }

theorem get?_applyTo (files : Manifest) (ch : Change) (p : String) :
    (ch.applyTo files).get? p = if p = ch.path then ch.new else files.get? p := by
  rw [Change.applyTo]
  cases ch.new with
  | none => rw [Option.elim_none, OrdMap.get?_erase]
  | some fp => rw [Option.elim_some, OrdMap.get?_insert]

/-- Changes of different paths, taken one after another. -/
theorem get?_foldl_applyTo (files : Manifest) {changes : List Change} (distinct : (changes.map (·.path)).Nodup) :
    (∀ ch ∈ changes, (changes.foldl Change.applyTo files).get? ch.path = ch.new) ∧
      ∀ p, p ∉ changes.map (·.path) → (changes.foldl Change.applyTo files).get? p = files.get? p := by
  induction changes generalizing files with
  | nil => exact ⟨List.forall_mem_nil _, fun _ _ => rfl⟩
  | cons ch rest ih =>
    obtain ⟨first, others⟩ := List.nodup_cons.mp distinct
    obtain ⟨taken, untouched⟩ := ih (ch.applyTo files) others
    rw [List.foldl_cons]
    refine ⟨List.forall_mem_cons.mpr ⟨?_, taken⟩, fun p absent => ?_⟩
    · rw [untouched _ first, get?_applyTo, if_pos rfl]
    · rw [List.map_cons, List.mem_cons, not_or] at absent
      rw [untouched p absent.2, get?_applyTo, if_neg absent.1]

theorem changeAt_path (needed : changeAt path l r v = some ch) : ch.path = path := by
  rw [changeAt] at needed
  split_ifs at needed <;> cases needed <;> rfl

theorem map_path_filterMap (ps : List String) :
    ((ps.filterMap (changeFor loc rem base)).map (·.path)) = ps.filter (fun p => (changeFor loc rem base p).isSome) := by
  induction ps with
  | nil => rfl
  | cons p rest ih =>
    rw [List.filterMap_cons, List.filter_cons]
    cases needed : changeFor loc rem base p with
    | none => simpa using ih
    | some ch => simp [ih, changeAt_path needed]

/-- A path has at most one change. -/
theorem plan_nodup (planned : plan loc rem base a b = .ok (changes, merged)) :
    (changes.map (·.path)).Nodup := by
  obtain ⟨-, rfl, -⟩ := plan_eq_ok.mp planned
  rw [map_path_filterMap]
  exact (paths_nodup _).filter _

theorem mem_paths_of_ne (differs : loc.get? path ≠ rem.get? path) : path ∈ paths [loc, rem, base] := by
  rw [mem_paths]
  by_cases absent : loc.get? path = none
  · exact ⟨rem, by simp, fun none => differs (absent.trans none.symm)⟩
  · exact ⟨loc, by simp, absent⟩

/-- The changes of a plan: where the sides differ, the side that did not change takes the other's value. -/
theorem plan_mem (planned : plan loc rem base a b = .ok (changes, merged)) :
    ch ∈ changes ↔ changeFor loc rem base ch.path = some ch := by
  obtain ⟨-, rfl, -⟩ := plan_eq_ok.mp planned
  rw [List.mem_filterMap]
  constructor
  · rintro ⟨p, -, needed⟩
    rwa [changeAt_path needed]
  · intro needed
    refine ⟨ch.path, mem_paths_of_ne (fun same => ?_), needed⟩
    rw [changeFor, changeAt, if_pos same] at needed
    cases needed

theorem plan_agree (planned : plan loc rem base a b = .ok (changes, merged)) (path : String) :
    ThreeWay.Agree (loc.get? path) (rem.get? path) (base.get? path) := by
  by_cases listed : path ∈ paths [loc, rem, base]
  · exact ((plan_eq_ok.mp planned).1 path listed).2
  · rw [mem_paths] at listed
    push Not at listed
    exact .inl ((listed loc (by simp)).trans (listed rem (by simp)).symm)

theorem plan_expected (planned : plan loc rem base a b = .ok (changes, merged)) (member : ch ∈ changes) :
    ch.expected = (if ch.toRemote then rem else loc).get? ch.path ∧
      ch.new = (if ch.toRemote then loc else rem).get? ch.path ∧ ch.new = merged.get? ch.path ∧
      ch.expected ≠ ch.new := by
  have needed := (plan_mem planned).mp member
  rw [(plan_eq_ok.mp planned).2.2, mergeFor, ThreeWay.merge]
  rw [changeFor, changeAt] at needed
  split_ifs at needed with same kept
  · have parts := Option.some.inj needed
    rw [if_neg same, if_pos kept, ← parts]
    exact ⟨rfl, rfl, rfl, same⟩
  · have parts := Option.some.inj needed
    rw [if_neg same, if_neg kept, ← parts]
    exact ⟨rfl, rfl, rfl, Ne.symm same⟩

/-- A side whose value is not the merged one has a change. -/
theorem plan_change (planned : plan loc rem base a b = .ok (changes, merged)) :
    (merged.get? path ≠ loc.get? path → ∃ ch ∈ changes, ch.path = path ∧ ch.toRemote = false) ∧
    (merged.get? path ≠ rem.get? path → ∃ ch ∈ changes, ch.path = path ∧ ch.toRemote = true) := by
  rw [(plan_eq_ok.mp planned).2.2, mergeFor, ThreeWay.merge]
  split_ifs with same kept
  · exact ⟨fun differs => absurd rfl differs, fun differs => absurd same differs⟩
  · refine ⟨fun _ => ⟨⟨path, loc.get? path, rem.get? path, false⟩, (plan_mem planned).mpr ?_, rfl, rfl⟩,
      fun differs => absurd rfl differs⟩
    rw [changeFor, changeAt, if_neg same, if_pos kept]
  · refine ⟨fun differs => absurd rfl differs, fun _ =>
      ⟨⟨path, rem.get? path, loc.get? path, true⟩, (plan_mem planned).mpr ?_, rfl, rfl⟩⟩
    rw [changeFor, changeAt, if_neg same, if_neg kept]

/-- The side that takes the changes of one direction ends at the merge. -/
theorem foldl_eq_merged {side : Manifest} {toRemote : Bool}
    (planned : plan loc rem base a b = .ok (changes, merged))
    (changed : ∀ p, merged.get? p ≠ side.get? p → ∃ ch ∈ changes, ch.path = p ∧ ch.toRemote = toRemote) :
    (changes.filter (fun ch => ch.toRemote = toRemote)).foldl Change.applyTo side = merged := by
  have distinct : ((changes.filter (fun ch => ch.toRemote = toRemote)).map (·.path)).Nodup :=
    (plan_nodup planned).sublist (List.filter_sublist.map _)
  obtain ⟨taken, untouched⟩ := get?_foldl_applyTo side distinct
  refine OrdMap.ext_get? (fun p => ?_)
  by_cases listed : p ∈ (changes.filter (fun ch => ch.toRemote = toRemote)).map (·.path)
  · obtain ⟨ch, member, rfl⟩ := List.mem_map.mp listed
    rw [taken ch member, (plan_expected planned (List.mem_filter.mp member).1).2.2.1]
  · rw [untouched p listed]
    by_contra differs
    obtain ⟨ch, member, rfl, direction⟩ := changed p (Ne.symm differs)
    exact listed (List.mem_map.mpr ⟨ch, List.mem_filter.mpr ⟨member, by simpa using direction⟩, rfl⟩)

theorem paths_swap : paths [rem, loc, base] = paths [loc, rem, base] := by
  unfold paths
  rw [OrdMap.extend_congr (fun k => ?_)]
  simp only [List.flatMap_cons, List.mem_append]
  tauto

theorem changeAt_swap (agree : ThreeWay.Agree l r v) :
    changeAt path r l v = (changeAt path l r v).map Change.flip := by
  unfold changeAt
  by_cases same : l = r
  · rw [if_pos same, if_pos same.symm]
    rfl
  · rw [if_neg same, if_neg (Ne.symm same)]
    by_cases kept : l = v
    · rw [if_pos kept, if_neg (fun other : r = v => same (kept.trans other.symm))]
      rfl
    · rw [if_neg kept, if_pos ((agree.resolve_left same).resolve_left kept)]
      rfl

/-- Swapping the sides gives the same merge and the same changes in the other direction. -/
theorem plan_swap (planned : plan loc rem base a b = .ok (changes, merged)) :
    plan rem loc base b a = .ok (changes.map Change.flip, merged) := by
  obtain ⟨plannable, rfl, lookup⟩ := plan_eq_ok.mp planned
  have swap : paths [rem, loc, base] = paths [loc, rem, base] := paths_swap
  refine plan_eq_ok.mpr ⟨?_, ?_, fun p => ?_⟩
  · rw [swap]
    exact fun p listed => ⟨(plannable p listed).1, (plannable p listed).2.symm⟩
  · rw [swap, List.map_filterMap]
    exact (List.filterMap_congr (fun p listed => changeAt_swap (plannable p listed).2)).symm
  · rw [lookup, mergeFor, mergeFor, ThreeWay.merge_comm (plan_agree planned p)]

/-- What a plan promises of its changes and its merged manifest. -/
structure Merges (loc rem base : Manifest) (a b : String) (changes : List Change) (merged : Manifest) : Prop where
  remote : (changes.filter (fun ch => ch.toRemote = true)).foldl Change.applyTo rem = merged
  local_ : (changes.filter (fun ch => ch.toRemote = false)).foldl Change.applyTo loc = merged
  once : (changes.map (·.path)).Nodup
  expected : ∀ ch ∈ changes, ch.expected = (if ch.toRemote then rem else loc).get? ch.path
  keepsLocal : ∀ p, loc.get? p ≠ base.get? p → merged.get? p = loc.get? p
  keepsRemote : ∀ p, rem.get? p ≠ base.get? p → merged.get? p = rem.get? p
  swapped : plan rem loc base b a = .ok (changes.map Change.flip, merged)

theorem plan_merges (planned : plan loc rem base a b = .ok (changes, merged)) :
    Merges loc rem base a b changes merged where
  remote := foldl_eq_merged planned (fun _ => (plan_change planned).2)
  local_ := foldl_eq_merged planned (fun _ => (plan_change planned).1)
  once := plan_nodup planned
  expected _ member := (plan_expected planned member).1
  keepsLocal p changed := by
    rw [(plan_eq_ok.mp planned).2.2, mergeFor, ThreeWay.merge_of_left_ne changed]
  keepsRemote p changed := by
    rw [(plan_eq_ok.mp planned).2.2, mergeFor, ThreeWay.merge_of_right_ne (plan_agree planned p) changed]
  swapped := plan_swap planned

theorem plan_isOk_iff (localValid : Valid loc) (remoteValid : Valid rem) (baseValid : Valid base) :
    (∃ planned, plan loc rem base a b = .ok planned) ↔
      ∀ p ∈ paths [loc, rem, base], ThreeWay.Agree (loc.get? p) (rem.get? p) (base.get? p) := by
  rw [plan_isOk]
  refine forall₂_congr (fun p listed => and_iff_right ?_)
  obtain ⟨m, member, present⟩ := mem_paths.mp listed
  simp only [List.mem_cons, List.not_mem_nil, or_false] at member
  rcases member with rfl | rfl | rfl
  · exact localValid p present
  · exact remoteValid p present
  · exact baseValid p present

/-! ## Two trees -/

theorem syncChange_store (c : Crypto) (hostA hostB : Host) (drawn : Ids) (ch : Change) (m n : Machine) :
    (syncChange c hostA hostB drawn ch m n).2.1.store = m.store ∧
    (syncChange c hostA hostB drawn ch m n).2.2.store = n.store := by
  unfold syncChange
  split
  · exact ⟨rfl, rfl⟩
  · split_ifs <;> exact ⟨rfl, rfl⟩

theorem syncChanges_store (c : Crypto) (hostA hostB : Host) (ids : String → Ids) (changes : List Change)
    (m n : Machine) : (syncChanges c hostA hostB ids changes m n).2.1.store = m.store ∧
    (syncChanges c hostA hostB ids changes m n).2.2.store = n.store := by
  induction changes generalizing m n with
  | nil => exact ⟨rfl, rfl⟩
  | cons ch rest ih =>
    have first := syncChange_store c hostA hostB (ids ch.path) ch m n
    rw [syncChanges]
    generalize syncChange c hostA hostB (ids ch.path) ch m n = outcome at first ⊢
    obtain ⟨_ | ⟨⟨⟩⟩, m₁, n₁⟩ := outcome
    · exact first
    · exact ⟨(ih m₁ n₁).1.trans first.1, (ih m₁ n₁).2.trans first.2⟩

/-- What a synchronization that returns leaves: one tree on both sides, which both have recorded. -/
structure Synced (c : Crypto) (m n : Machine) (merged : Manifest) (m' n' : Machine) : Prop where
  local_ : scan c m'.tree = .ok merged
  remote : scan c n'.tree = .ok merged
  localBaseline : m'.store.pinIndex.peers.get? (key (ownKey c n)) = some merged
  remoteBaseline : n'.store.pinIndex.peers.get? (key (ownKey c m)) = some merged

theorem sync_ok (ran : sync c hostA hostB wa wb ids m n = (.ok (), m', n')) :
    ∃ changes merged, syncStart c m n = .ok (changes, merged) ∧ Synced c m n merged m' n' := by
  rw [sync] at ran
  split at ran
  · cases ran
  · next changes merged started =>
    refine ⟨changes, merged, started, ?_⟩
    have stores := syncChanges_store c hostA hostB ids changes m n
    generalize applied : syncChanges c hostA hostB ids changes m n = outcome at ran stores
    obtain ⟨_ | ⟨⟨⟩⟩, m₁, n₁⟩ := outcome
    · cases ran
    · dsimp only at ran stores
      split at ran
      · cases ran
      · next final =>
        rw [bind_eq_ok] at final
        obtain ⟨af, scannedA, final⟩ := final
        rw [refuseIf_bind_eq_ok, not_not] at final
        obtain ⟨rfl, final⟩ := final
        rw [bind_eq_ok] at final
        obtain ⟨bf, scannedB, final⟩ := final
        rw [refuseIf_eq_ok, not_not] at final
        subst final
        split at ran
        · cases ran
        · next store recordedA =>
          have savedA := (record_cases recordedA).2
          generalize recordedB : record c wb (ownKey c m₁) bf n₁.store = saved at ran
          obtain ⟨store', result⟩ := saved
          have savedB := (record_cases recordedB).2
          cases ran
          have first := (savedA.resolve_left (fun failed => failed.1 rfl)).2.1
          have second := (savedB.resolve_left (fun failed => failed.1 rfl)).2.1
          refine ⟨scannedA, scannedB, ?_, ?_⟩
          · dsimp only
            rw [first, ownKey, stores.2]
            exact OrdMap.get?_insert_self _ _ _
          · dsimp only
            rw [second, ownKey, stores.1]
            exact OrdMap.get?_insert_self _ _ _

theorem sync_of_start_error {e : ClixError} (refused : syncStart c m n = .error e) :
    sync c hostA hostB wa wb ids m n = (.error e, m, n) := by
  rw [sync, refused]

theorem syncStart_eq_ok (started : syncStart c m n = .ok (changes, merged)) : ∃ af bf base,
    scan c m.tree = .ok af ∧ scan c n.tree = .ok bf ∧
      commonBaseline (baseline m.store (ownKey c n)) (baseline n.store (ownKey c m)) af bf = .ok base ∧
      plan af bf base m.store.bodyName n.store.bodyName = .ok (changes, merged) := by
  rw [syncStart, bind_eq_ok] at started
  obtain ⟨⟨⟩, -, started⟩ := started
  rw [bind_eq_ok] at started
  obtain ⟨⟨⟩, -, started⟩ := started
  rw [bind_eq_ok] at started
  obtain ⟨af, scannedA, started⟩ := started
  rw [bind_eq_ok] at started
  obtain ⟨bf, scannedB, started⟩ := started
  rw [bind_eq_ok] at started
  obtain ⟨base, common, planned⟩ := started
  exact ⟨af, bf, base, scannedA, scannedB, common, planned⟩

/-- A plan exists exactly when no path was changed in two ways, and merges the two sides without losing an
edit. A synchronization that returns has made both trees the merge of the two scans and recorded it on both
sides; one that is refused before its first change leaves both machines as they were. -/
theorem sync_merges (c : Crypto) :
    (∀ (loc rem base : Manifest) (a b : String), Valid loc → Valid rem → Valid base →
      ((∃ planned, plan loc rem base a b = .ok planned) ↔
        ∀ p ∈ paths [loc, rem, base], ThreeWay.Agree (loc.get? p) (rem.get? p) (base.get? p)) ∧
      ∀ changes merged, plan loc rem base a b = .ok (changes, merged) →
        Merges loc rem base a b changes merged) ∧
    ∀ (hostA hostB : Host) (wa wb : Weather) (ids : String → Ids) (m n m' n' : Machine) (result : Result Unit),
      sync c hostA hostB wa wb ids m n = (result, m', n') →
      (result = .ok () → ∃ af bf base changes merged, scan c m.tree = .ok af ∧ scan c n.tree = .ok bf ∧
        commonBaseline (baseline m.store (ownKey c n)) (baseline n.store (ownKey c m)) af bf = .ok base ∧
        plan af bf base m.store.bodyName n.store.bodyName = .ok (changes, merged) ∧
        Synced c m n merged m' n') ∧
      (∀ e, syncStart c m n = .error e → result = .error e ∧ m' = m ∧ n' = n) := by
  refine ⟨fun loc rem base a b localValid remoteValid baseValid =>
    ⟨plan_isOk_iff localValid remoteValid baseValid, fun changes merged => plan_merges⟩, ?_⟩
  intro hostA hostB wa wb ids m n m' n' result ran
  constructor
  · rintro rfl
    obtain ⟨changes, merged, started, synced⟩ := sync_ok ran
    obtain ⟨af, bf, base, scannedA, scannedB, common, planned⟩ := syncStart_eq_ok started
    exact ⟨af, bf, base, changes, merged, scannedA, scannedB, common, planned, synced⟩
  · intro e refused
    rw [sync_of_start_error refused] at ran
    cases ran
    exact ⟨rfl, rfl, rfl⟩

end Clix.Pin
