import Clix.Model.PinWalk
import Clix.Proofs.PinMidway

/-! # The walk of a scan

A walk comes across each entry outside excluded directories once, in whatever order directories list their
names. So it succeeds exactly when a scan of the entries by their names does, with the same manifest.
-/

namespace List

variable {m : Type → Type} [Monad m] [LawfulMonad m] {σ α β : Type} {f : σ → α → m σ} {h : σ → β → m σ}
  {g : α → List β} {l : List α}

/-- A run whose steps are runs themselves is one run. -/
theorem foldlM_eq_foldlM_flatMap (step : ∀ a ∈ l, ∀ out, f out a = (g a).foldlM h out) (out : σ) :
    l.foldlM f out = (l.flatMap g).foldlM h out := by
  induction l generalizing out with
  | nil => rfl
  | cons a rest ih =>
    obtain ⟨first, others⟩ := forall_mem_cons.mp step
    rw [foldlM_cons, flatMap_cons, foldlM_append, first]
    exact bind_congr (fun out => ih others out)

end List

namespace Clix.Pin

open Except

variable {c : Crypto} {live : Live} {t : Tree} {listing : List String → List String} {fuel : ℕ}
  {dir path : List String} {name : String} {node : Node} {out out' : Manifest × ℕ} {files : Manifest}
  {e : List String × Node}

/-! ## The entries in the order of a walk -/

/-- The entries below a directory in the order in which a walk comes across them. -/
def walked (live : Live) (listing : List String → List String) : ℕ → List String → List (List String × Node)
  | 0, _ => []
  | fuel + 1, dir => (listing dir).flatMap (fun name =>
    match live.node? (dir ++ [name]) with
    | none => []
    | some node => (dir ++ [name], node) ::
      (if node = .dir ∧ name ≠ ".git" then walked live listing fuel (dir ++ [name]) else []))

theorem mem_walked_succ : e ∈ walked live listing (fuel + 1) dir ↔ ∃ name ∈ listing dir, ∃ node,
    live.node? (dir ++ [name]) = some node ∧ (e = (dir ++ [name], node) ∨
      (node = .dir ∧ name ≠ ".git" ∧ e ∈ walked live listing fuel (dir ++ [name]))) := by
  rw [walked, List.mem_flatMap]
  refine exists_congr (fun name => and_congr_right (fun _ => ?_))
  cases live.node? (dir ++ [name]) with
  | none => simp
  | some node =>
    simp only [List.mem_cons, Option.some.injEq, exists_eq_left']
    split_ifs with inside
    · simp [inside.1, inside.2]
    · simp only [List.not_mem_nil, or_false]
      exact ⟨.inl, fun found => found.resolve_right (fun ⟨isDir, kept, _⟩ => inside ⟨isDir, kept⟩)⟩

/-- What a walk below a directory comes across, by induction on the depth it still has. -/
theorem mem_walked (lists : Lists live listing) : e ∈ walked live listing fuel dir ↔
    ∃ rest, rest ≠ [] ∧ rest.length ≤ fuel ∧ e.1 = dir ++ rest ∧ live.node? e.1 = some e.2 ∧
      ".git" ∉ rest.dropLast := by
  induction fuel generalizing dir with
  | zero =>
    refine iff_of_false (List.not_mem_nil) (fun ⟨rest, below, shallow, _⟩ => below ?_)
    exact List.length_eq_zero_iff.mp (Nat.le_zero.mp shallow)
  | succ fuel ih =>
    rw [mem_walked_succ]
    constructor
    · rintro ⟨name, -, node, found, rfl | ⟨-, kept, inside⟩⟩
      · exact ⟨[name], by simp, by simp, rfl, found, by simp⟩
      · obtain ⟨rest, below, shallow, spelled, there, clear⟩ := ih.mp inside
        refine ⟨name :: rest, by simp, by simpa using shallow, by rw [spelled, ← List.append_cons], there, ?_⟩
        rw [List.dropLast_cons_of_ne_nil below, List.mem_cons, not_or]
        exact ⟨kept.symm, clear⟩
    · rintro ⟨rest, below, shallow, spelled, there, clear⟩
      obtain ⟨name, rest, rfl⟩ := List.exists_cons_of_ne_nil below
      rw [List.append_cons] at spelled
      by_cases last : rest = []
      · subst last
        rw [List.append_nil] at spelled
        rw [spelled] at there
        exact ⟨name, lists.complete dir name (by rw [there]; simp), e.2, there, .inl (Prod.ext spelled rfl)⟩
      · rw [List.dropLast_cons_of_ne_nil last, List.mem_cons, not_or] at clear
        have above : live.node? (dir ++ [name]) = some .dir := Live.dir_above last (spelled ▸ there)
        refine ⟨name, lists.complete dir name (by rw [above]; simp), .dir, above,
          .inr ⟨rfl, Ne.symm clear.1, ih.mpr ⟨rest, last, ?_, spelled, there, clear.2⟩⟩⟩
        simpa using shallow

/-- A walk comes across no entry twice. -/
theorem walked_nodup (lists : Lists live listing) : (walked live listing fuel dir).Nodup := by
  induction fuel generalizing dir with
  | zero => exact List.nodup_nil
  | succ fuel ih =>
    have deeper (name : String) : (dir ++ [name]) ∉ (walked live listing fuel (dir ++ [name])).map (·.1) := by
      intro again
      obtain ⟨e, inside, same⟩ := List.mem_map.mp again
      obtain ⟨rest, below, -, spelled, -⟩ := (mem_walked lists).mp inside
      exact below (by simpa using spelled.symm.trans same)
    rw [walked, List.nodup_flatMap]
    refine ⟨fun name _ => ?_, (lists.nodup dir).imp (fun {a b} differs => ?_)⟩
    · cases live.node? (dir ++ [name]) with
      | none => exact List.nodup_nil
      | some node =>
        refine List.nodup_cons.mpr ⟨fun again => ?_, ?_⟩
        · split_ifs at again
          · exact deeper name (List.mem_map_of_mem again)
          · exact List.not_mem_nil again
        · split_ifs
          · exact ih
          · exact List.nodup_nil
    · -- Entries of one name are below it, so entries of two names differ.
      have within (name : String) (e : List String × Node) (listed : e ∈ (match live.node? (dir ++ [name]) with
          | none => []
          | some node => (dir ++ [name], node) ::
            (if node = Node.dir ∧ name ≠ ".git" then walked live listing fuel (dir ++ [name]) else []))) :
          (dir ++ [name]) <+: e.1 := by
        cases found : live.node? (dir ++ [name]) with
        | none => rw [found] at listed; exact absurd listed List.not_mem_nil
        | some node =>
          rw [found] at listed
          rcases List.mem_cons.mp listed with rfl | inside
          · exact List.prefix_rfl
          · split_ifs at inside
            · obtain ⟨rest, -, -, spelled, -⟩ := (mem_walked lists).mp inside
              exact ⟨rest, spelled.symm⟩
            · exact absurd inside List.not_mem_nil
      intro e inA inB
      have nested := List.prefix_of_prefix_length_le (within a e inA) (within b e inB) (by simp)
      exact differs (by simpa using nested.eq_of_length (by simp))

/-! ## A walk as a run over its entries -/

/-- One entry of a scan that counts. -/
def visit (c : Crypto) (live : Live) (out : Manifest × ℕ) (e : List String × Node) : Result (Manifest × ℕ) := do
  refuseIf (maxPinEntries < out.2 + 1 ∨ maxDepth < e.1.length)
    (.usage "pin tree exceeds 4096 entries or 64 directories of depth")
  let found ← scanNode c live e.1 e.2
  return (found.elim out.1 (out.1.insert (join e.1)), out.2 + 1)

/-- A name that is skipped names no live node. -/
theorem node?_of_skipped (skipped : name = "." ∨ name = ".." ∨ (dir = [] ∧ name = recovery)) :
    live.node? (dir ++ [name]) = none := by
  by_contra present
  obtain ⟨node, found⟩ := Option.ne_none_iff_exists'.mp present
  have plain := Live.named_of_node? found name (by simp)
  rcases skipped with rfl | rfl | ⟨rfl, rfl⟩
  · exact plain.2.1 rfl
  · exact plain.2.2.1 rfl
  · rw [Live.node?_of_ne_nil (by simp)] at found
    exact live.foreign _ _ found rfl

/-- One name of a directory is one entry and what is below it. -/
theorem scanEntry_eq (lists : Lists live listing) (clear : ".git" ∉ dir) (listed : name ∈ listing dir)
    {descend : List String → Manifest × ℕ → Result (Manifest × ℕ)}
    (deeper : name ≠ ".git" → (dir ++ [name]).length ≤ maxDepth → ∀ out, descend (dir ++ [name]) out =
      (walked live listing fuel (dir ++ [name])).foldlM (visit c live) out) :
    scanEntry c live descend dir out name = (match live.node? (dir ++ [name]) with
      | none => []
      | some node => (dir ++ [name], node) ::
        (if node = Node.dir ∧ name ≠ ".git" then walked live listing fuel (dir ++ [name]) else [])).foldlM
          (visit c live) out := by
  unfold scanEntry
  by_cases skipped : name = "." ∨ name = ".." ∨ (dir = [] ∧ name = recovery)
  · rw [if_pos skipped, node?_of_skipped skipped]
    rfl
  · obtain ⟨node, found⟩ := Option.ne_none_iff_exists'.mp
      ((lists.sound dir name listed).resolve_right skipped)
    have named := Live.named_of_node? found
    have deep : (dir ≠ [] ∧ maxDepth ≤ dir.length) ↔ maxDepth < (dir ++ [name]).length := by
      rw [List.length_append, List.length_singleton, Nat.lt_succ_iff, and_iff_right_iff_imp]
      rintro deep rfl
      exact absurd deep (by decide)
    rw [if_neg skipped, found]
    simp only [List.foldlM_cons, visit, deep]
    by_cases full : maxPinEntries < out.2 + 1 ∨ maxDepth < (dir ++ [name]).length
    · rw [refuseIf, if_pos full]
      rfl
    · rw [refuseIf_neg full, ok_bind, ok_bind]
      unfold scanNode
      rw [excluded_join named (by simp), List.contains_eq_mem]
      by_cases git : name = ".git"
      · subst git
        simp
      · have kept : decide (".git" ∈ dir ++ [name]) = false := by
          rw [decide_eq_false_iff_not, List.mem_append, List.mem_singleton, not_or]
          exact ⟨clear, Ne.symm git⟩
        rw [kept, if_neg (by simp), if_neg (by simp)]
        rw [not_or, not_lt, not_lt] at full
        cases node with
        | dir =>
          simp only [git, ne_eq, not_false_eq_true, and_self, if_true, bind_assoc, pure_bind, Option.elim_none]
          exact bind_congr (fun _ => deeper git full.2 _)
        | file g =>
          simp only [bind_assoc, reduceCtorEq, false_and, if_false, List.foldlM_nil]
          refine bind_congr (fun content => ?_)
          cases content <;> rfl
        | link target => rfl
        | special => rfl

/-- A walk is a run over the entries in its order, error for error. -/
theorem scanDir_eq (lists : Lists live listing) (deep : fuel + dir.length = maxDepth + 1)
    (shallow : dir.length ≤ maxDepth) (clear : ".git" ∉ dir) :
    scanDir c live listing fuel dir out = (walked live listing fuel dir).foldlM (visit c live) out := by
  induction fuel generalizing dir out with
  | zero => omega
  | succ fuel ih =>
    rw [scanDir, walked]
    refine List.foldlM_eq_foldlM_flatMap (fun name listed out => ?_) out
    refine scanEntry_eq lists clear listed (fun git shallow _ => ih ?_ shallow ?_)
    · rw [List.length_append, List.length_singleton]
      omega
    · rw [List.mem_append, List.mem_singleton, not_or]
      exact ⟨clear, Ne.symm git⟩

/-- A run over entries succeeds when each entry can be taken and none is too many or too deep. -/
theorem foldlM_visit_eq_ok {entries : List (List String × Node)} (few : out.2 ≤ maxPinEntries) :
    entries.foldlM (visit c live) out = .ok out' ↔ scanNodes c live out.1 entries = .ok out'.1 ∧
      out'.2 = out.2 + entries.length ∧ out'.2 ≤ maxPinEntries ∧ ∀ e ∈ entries, e.1.length ≤ maxDepth := by
  induction entries generalizing out with
  | nil =>
    simp only [List.foldlM_nil, pure_eq_ok, scanNodes, Except.ok.injEq, List.length_nil, Nat.add_zero,
      List.not_mem_nil, false_implies, implies_true, and_true]
    constructor
    · intro same
      exact same ▸ ⟨rfl, rfl, few⟩
    · rintro ⟨files, count, -⟩
      exact Prod.ext files count.symm
  | cons e rest ih =>
    rw [List.foldlM_cons, visit, scanNodes, List.forall_mem_cons, List.length_cons]
    by_cases full : maxPinEntries < out.2 + 1 ∨ maxDepth < e.1.length
    · rw [refuseIf, if_pos full]
      refine iff_of_false (by simp) ?_
      rintro ⟨-, count, few', shallow, -⟩
      omega
    · rw [refuseIf_neg full, ok_bind]
      rw [not_or, not_lt, not_lt] at full
      cases scanNode c live e.1 e.2 with
      | error => exact iff_of_false (by simp) (by simp)
      | ok found =>
        rw [ok_bind, ok_bind, pure_eq_ok, ok_bind, ih full.1]
        refine and_congr_right (fun _ => ?_)
        rw [Nat.add_assoc, Nat.add_comm 1]
        exact and_congr_right (fun _ => and_congr_right (fun _ => (and_iff_right full.2).symm))

/-! ## The two scans -/

theorem mem_visited_iff : e ∈ visited live ↔
    live.node? e.1 = some e.2 ∧ e.1 ≠ [] ∧ ".git" ∉ e.1.dropLast := by
  refine ⟨fun listed => ⟨(file?_of_visited listed).1, (file?_of_visited listed).2.1, ?_⟩,
    fun ⟨found, below, clear⟩ => List.mem_filter.mpr ⟨?_, ?_⟩⟩
  · simpa using (List.mem_filter.mp listed).2
  · exact OrdMap.get?_eq_some_iff.mp (by rwa [← Live.node?_of_ne_nil below])
  · simpa using clear

theorem mem_walked_iff (lists : Lists live listing) :
    e ∈ walked live listing fuel [] ↔ e ∈ visited live ∧ e.1.length ≤ fuel := by
  rw [mem_walked lists, mem_visited_iff]
  constructor
  · rintro ⟨rest, below, shallow, spelled, found, clear⟩
    rw [List.nil_append] at spelled
    subst spelled
    exact ⟨⟨found, below, clear⟩, shallow⟩
  · exact fun ⟨⟨found, below, clear⟩, shallow⟩ => ⟨e.1, below, shallow, (List.nil_append _).symm, found, clear⟩

theorem visited_nodup : (visited live).Nodup :=
  (List.Nodup.of_map _ (OrdMap.keys_nodup live.nodes)).filter _

/-- Within the limit on the depth, a walk comes across what a scan visits. -/
theorem walked_perm (lists : Lists live listing) (shallow : ∀ e ∈ visited live, e.1.length ≤ fuel) :
    (walked live listing fuel []).Perm (visited live) :=
  (List.perm_ext_iff_of_nodup (walked_nodup lists) visited_nodup).mpr (fun e => by
    rw [mem_walked_iff lists, and_iff_left_of_imp (shallow e)])

/-- An entry that is too deep is below one that the walk comes across. -/
theorem shallow_of_walked (lists : Lists live listing)
    (shallow : ∀ e ∈ walked live listing (maxDepth + 1) [], e.1.length ≤ maxDepth) :
    ∀ e ∈ visited live, e.1.length ≤ maxDepth := by
  intro e listed
  by_contra deep
  rw [not_le] at deep
  obtain ⟨found, -, clear⟩ := mem_visited_iff.mp listed
  have length : (e.1.take (maxDepth + 1)).length = maxDepth + 1 := List.length_take_of_le deep
  obtain ⟨node, above⟩ : ∃ node, live.node? (e.1.take (maxDepth + 1)) = some node := by
    by_cases last : e.1.drop (maxDepth + 1) = []
    · rw [List.take_of_length_le (List.drop_eq_nil_iff.mp last)]
      exact ⟨_, found⟩
    · rw [← List.take_append_drop (maxDepth + 1) e.1] at found
      exact ⟨_, Live.dir_above last found⟩
  have tooDeep := shallow (e.1.take (maxDepth + 1), node) ((mem_walked_iff lists).mpr ⟨mem_visited_iff.mpr
    ⟨above, fun top => absurd (congrArg List.length top) (by rw [length]; simp), fun inside => clear ?_⟩, length.le⟩)
  · dsimp only at tooDeep
    omega
  · rw [List.dropLast_eq_take, length, Nat.add_sub_cancel, List.take_take] at inside
    rw [List.dropLast_eq_take]
    exact List.take_subset_take_left _ (by omega) inside

theorem scanNodes_perm {entries entries' : List (List String × Node)} (same : entries.Perm entries')
    (listed : ∀ e ∈ entries, e ∈ visited live) (success : scanNodes c live ∅ entries = .ok files) :
    scanNodes c live ∅ entries' = .ok files := by
  obtain ⟨files', success'⟩ : ∃ files', scanNodes c live ∅ entries' = .ok files' :=
    scanNodes_isOk (fun e inside => scanNodes_all success e (same.mem_iff.mpr inside))
  rw [success']
  congr 1
  refine OrdMap.ext_get? (fun rel => ?_)
  rw [scanNodes_eq_ok (fun e inside => file?_of_visited (listed e inside)) success,
    scanNodes_eq_ok (fun e inside => file?_of_visited (listed e (same.mem_iff.mpr inside))) success']
  simp only [(same.map (·.1)).mem_iff]

/-- However directories list their names, a scan that goes through them and a scan by names agree. -/
theorem scanTree_eq_ok (lists : Lists t.live listing) :
    scanTree c listing t = .ok files ↔ scan c t = .ok files := by
  have run : scanDir c t.live listing (maxDepth + 1) [] (∅, 0) =
      (walked t.live listing (maxDepth + 1) []).foldlM (visit c t.live) (∅, 0) :=
    scanDir_eq lists rfl (Nat.zero_le _) List.not_mem_nil
  unfold scanTree scan
  simp only [bind_eq_ok (x := openTree _), bind_eq_ok (x := checkRecoveryExcept _ _ _)]
  refine exists_congr (fun _ => and_congr_right (fun _ => exists_congr (fun _ => and_congr_right (fun _ => ?_))))
  rw [bind_eq_ok, refuseIf_bind_eq_ok, run]
  constructor
  · rintro ⟨⟨out, count⟩, success, ⟨⟩⟩
    obtain ⟨taken, total, few, shallow⟩ := (foldlM_visit_eq_ok (Nat.zero_le _)).mp success
    have shallow := shallow_of_walked lists shallow
    have same : (walked t.live listing (maxDepth + 1) []).Perm (visited t.live) :=
      walked_perm lists (fun e listed => (shallow e listed).trans (Nat.le_succ maxDepth))
    refine ⟨?_, scanNodes_perm same (fun e inside => same.mem_iff.mp inside) taken⟩
    rw [not_or, not_lt]
    push Not
    refine ⟨?_, shallow⟩
    rw [← same.length_eq]
    dsimp only at total few
    omega
  · rintro ⟨within, taken⟩
    rw [not_or, not_lt] at within
    push Not at within
    obtain ⟨few, shallow⟩ := within
    have same : (walked t.live listing (maxDepth + 1) []).Perm (visited t.live) :=
      walked_perm lists (fun e listed => (shallow e listed).trans (Nat.le_succ maxDepth))
    refine ⟨(files, (walked t.live listing (maxDepth + 1) []).length),
      (foldlM_visit_eq_ok (Nat.zero_le _)).mpr ⟨scanNodes_perm same.symm (fun e inside => inside) taken,
        (Nat.zero_add _).symm, same.length_eq ▸ few, fun e inside => shallow e (same.mem_iff.mp inside)⟩, rfl⟩

/-! ## Listing names -/

theorem lists_listing (live : Live) : Lists live live.listing where
  nodup dir := by
    refine List.Nodup.filterMap (fun a b name inA inB => ?_) (OrdMap.keys_nodup live.nodes)
    simp only [Option.mem_def, Option.ite_none_right_eq_some] at inA inB
    rw [← List.dropLast_append_getLast? _ inA.2, ← List.dropLast_append_getLast? _ inB.2, inA.1, inB.1]
  complete dir name present := by
    rw [Live.node?_of_ne_nil (by simp)] at present
    refine List.mem_filterMap.mpr ⟨dir ++ [name], ?_, by simp⟩
    rw [OrdMap.mem_keys_iff, OrdMap.contains_eq_true_iff]
    exact Option.ne_none_iff_exists'.mp present
  sound dir name listed := by
    obtain ⟨path, there, last⟩ := List.mem_filterMap.mp listed
    rw [Option.ite_none_right_eq_some] at last
    rw [← last.1, List.dropLast_append_getLast? _ last.2]
    rw [OrdMap.mem_keys_iff, OrdMap.contains_eq_true_iff] at there
    obtain ⟨node, found⟩ := there
    exact .inl (by rw [Live.node?_of_ne_nil (live.named _ _ found).1, found]; simp)

end Clix.Pin
