import Clix.Proofs.PinTree

/-! # What an application does to the tree

Up to the publication nothing but directories is added to the live nodes; the publication exchanges the
live file at one place with the staged content; afterwards only the recovery directory changes.
-/

namespace Clix.Pin

open Except

variable {c : Crypto} {host : Host} {s : Store} {live live' : Live} {t t' u : Tree} {dir path : List String}
  {rel name version : String} {f : File} {node : Node} {ch : Change} {bytes : Option Bytes}
  {ignored : List String} {ids : Ids} {op : Op} {ops rest : List Op} {steps : ℕ}
  {outcome : Option (Result Unit)} {result : Result Unit}

/-! ## Sequences of operations -/

/-- A sequence goes wrong in its first part, or the first part is done and the second goes on from there. -/
theorem perform_append (ran : perform (ops ++ rest) steps t = (outcome, t')) :
    (perform ops steps t = (outcome, t') ∧ outcome ≠ some (.ok ())) ∨
    ∃ middle remaining, perform ops steps t = (some (.ok ()), middle) ∧
      perform rest remaining middle = (outcome, t') := by
  induction ops generalizing steps t with
  | nil => exact .inr ⟨t, steps, rfl, ran⟩
  | cons op ops ih =>
    cases steps with
    | zero =>
      cases ran
      exact .inl ⟨rfl, by simp⟩
    | succ steps =>
      rw [List.cons_append, perform] at ran
      rw [perform]
      cases done : op t with
      | error e =>
        rw [done] at ran
        cases ran
        exact .inl ⟨rfl, by simp⟩
      | ok next =>
        rw [done] at ran
        exact ih ran

/-- Without a stop, a sequence performs all of its operations. -/
theorem perform_of_length_le (enough : ops.length ≤ steps) :
    perform ops steps t = (some (performAll ops t).1, (performAll ops t).2) := by
  induction ops generalizing steps t with
  | nil => rfl
  | cons op ops ih =>
    obtain ⟨steps, rfl⟩ : ∃ n, steps = n + 1 := ⟨steps - 1, by simp at enough; omega⟩
    rw [perform, performAll]
    cases op t with
    | error e => rfl
    | ok next => exact ih (by simpa using enough)

theorem perform_performAll (ran : performAll ops t = (result, t')) :
    perform ops ops.length t = (some result, t') := by
  rw [perform_of_length_le le_rfl, ran]

/-- What every operation keeps, a sequence keeps, however far it comes. -/
theorem perform_inv {P : Tree → Prop} (step : ∀ op ∈ ops, ∀ t t', P t → op t = .ok t' → P t') (initial : P t)
    (ran : perform ops steps t = (outcome, t')) : P t' := by
  induction ops generalizing steps t with
  | nil =>
    cases ran
    exact initial
  | cons op ops ih =>
    obtain ⟨first, others⟩ := List.forall_mem_cons.mp step
    cases steps with
    | zero =>
      cases ran
      exact initial
    | succ steps =>
      rw [perform] at ran
      cases done : op t with
      | error e =>
        rw [done] at ran
        cases ran
        exact initial
      | ok next =>
        rw [done] at ran
        exact ih others (first t next initial done) ran

/-- The first operation fails or is stopped at, or it is done and the others follow. -/
theorem perform_cons (ran : perform (op :: ops) steps t = (outcome, t')) :
    (t' = t ∧ outcome ≠ some (.ok ())) ∨
    ∃ next remaining, op t = .ok next ∧ perform ops remaining next = (outcome, t') := by
  cases steps with
  | zero =>
    cases ran
    exact .inl ⟨rfl, by simp⟩
  | succ steps =>
    rw [perform] at ran
    cases done : op t with
    | error e =>
      rw [done] at ran
      cases ran
      exact .inl ⟨rfl, by simp⟩
    | ok next =>
      rw [done] at ran
      exact .inr ⟨next, steps, rfl, ran⟩

/-! ## Live nodes -/

namespace Live

@[simp] theorem dirs_put (fits : live.Fits dir name) : (live.put dir name node fits).dirs = live.dirs := rfl

@[simp] theorem node?_put (fits : live.Fits dir name) : (live.put dir name node fits).node? path =
    if path = dir ++ [name] then some node else live.node? path := by
  by_cases top : path = []
  · subst top
    rw [node?_nil, if_neg (by simp), node?_nil]
  · rw [node?_of_ne_nil top, node?_of_ne_nil top, put, OrdMap.get?_insert]
    split_ifs <;> rfl

theorem node?_cut : (live.cut dir name).node? path =
    if (dir ++ [name]).isPrefixOf path = true then none else live.node? path := by
  by_cases top : path = []
  · subst top
    have above : (dir ++ [name]).isPrefixOf [] = false := by
      rw [← Bool.not_eq_true, List.isPrefixOf_iff_prefix, List.prefix_nil]
      simp
    rw [node?_nil, if_neg (by simp [above]), node?_nil]
  · rw [node?_of_ne_nil top, node?_of_ne_nil top, cut, OrdMap.get?_restrict]
    cases (dir ++ [name]).isPrefixOf path <;> rfl

/-- Nothing but directories was added. -/
structure Grows (live live' : Live) : Prop where
  nodes : ∀ path, live'.node? path = live.node? path ∨ (live.node? path = none ∧ live'.node? path = some .dir)
  dirs : live'.dirs = live.dirs

theorem Grows.refl (live : Live) : live.Grows live := ⟨fun _ => .inl rfl, rfl⟩

theorem Grows.trans {live'' : Live} (first : live.Grows live') (second : live'.Grows live'') :
    live.Grows live'' := by
  refine ⟨fun path => ?_, second.dirs.trans first.dirs⟩
  rcases second.nodes path with same | ⟨absent, made⟩
  · rw [same]
    exact first.nodes path
  · rcases first.nodes path with same | ⟨-, present⟩
    · exact .inr ⟨same ▸ absent, made⟩
    · rw [present] at absent
      cases absent

theorem Grows.file? (grows : live.Grows live') (path : List String) : live'.file? path = live.file? path := by
  rw [Live.file?, Live.file?]
  rcases grows.nodes path with same | ⟨absent, made⟩
  · rw [same]
  · rw [absent, made]

/-- One place was given another node, or none. -/
structure Sets (live : Live) (place : List String) (node : Option Node) (live' : Live) : Prop where
  nodes : ∀ path, live'.node? path = if path = place then node else live.node? path
  dirs : live'.dirs = live.dirs

theorem Sets.file?_of_ne {place : List String} {node : Option Node} (sets : live.Sets place node live')
    (differs : path ≠ place) : live'.file? path = live.file? path := by
  rw [Live.file?, Live.file?, sets.nodes, if_neg differs]

/-- One place was given another node, or none, and what was below it is gone. -/
structure Swaps (live : Live) (place : List String) (node : Option Node) (live' : Live) : Prop where
  nodes : ∀ path, live'.node? path =
    if path = place then node else if place.isPrefixOf path = true then none else live.node? path
  dirs : ∀ path, place.isPrefixOf path = false → live'.dirs path = live.dirs path

theorem Sets.swaps {place : List String} {node : Option Node} (sets : live.Sets place node live')
    (leaf : live.node? place ≠ some .dir) : live.Swaps place node live' := by
  refine ⟨fun path => ?_, fun path _ => congrFun sets.dirs path⟩
  rw [sets.nodes]
  split_ifs with here inside
  · rfl
  · obtain ⟨rest, rfl⟩ := List.isPrefixOf_iff_prefix.mp inside
    exact node?_below rest (fun top => here (by rw [top, List.append_nil])) leaf
  · rfl

/-- Where no directory was, nothing was below. -/
theorem Swaps.sets {place : List String} {node : Option Node} (swaps : live.Swaps place node live')
    (below : place ≠ []) (leaf : live.node? place ≠ some .dir) (file : node ≠ some .dir) :
    live.Sets place node live' := by
  have nodes (path : List String) : live'.node? path = if path = place then node else live.node? path := by
    rw [swaps.nodes]
    split_ifs with here inside
    · rfl
    · obtain ⟨rest, rfl⟩ := List.isPrefixOf_iff_prefix.mp inside
      rw [node?_below rest (fun top => here (by rw [top, List.append_nil])) leaf]
    · rfl
  refine ⟨nodes, funext (fun path => ?_)⟩
  cases inside : place.isPrefixOf path with
  | false => exact swaps.dirs path inside
  | true =>
    obtain ⟨rest, rfl⟩ := List.isPrefixOf_iff_prefix.mp inside
    have deeper : place ++ rest ≠ [] := by simp [below]
    have noDir {live : Live} (leaf : live.node? place ≠ some .dir) : live.node? (place ++ rest) ≠ some .dir := by
      by_cases top : rest = []
      · rwa [top, List.append_nil]
      · rw [node?_below rest top leaf]
        simp
    rw [dirs_of_leaf deeper (noDir leaf), dirs_of_leaf deeper (noDir (by rwa [nodes, if_pos rfl]))]

end Live

theorem parts_split (rel : String) : parts rel = (parts rel).dropLast ++ [fileName rel] := by
  have below : parts rel ≠ [] := by simp [parts]
  rw [fileName, List.getLastD_eq_getLast?, List.getLast?_eq_some_getLast below, Option.getD_some,
    List.dropLast_append_getLast]

theorem names_above (named : ∀ part ∈ parentDir rel, Named part) : names (parts rel).dropLast = parentDir rel := by
  rw [names, parentDir]
  refine List.filter_congr (fun part member => ?_)
  by_cases dot : part = "."
  · simp [dot]
  · have kept : part ∈ parentDir rel := List.mem_filter.mpr ⟨member, by simpa using dot⟩
    simp [(named part kept).1]

theorem place_eq (named : ∀ part ∈ parentDir rel ++ [fileName rel], Named part) :
    place rel = parentDir rel ++ [fileName rel] := by
  have last := named (fileName rel) (by simp)
  change names (parts rel) = _
  rw [parts_split, names, List.filter_append]
  change names (parts rel).dropLast ++ names [fileName rel] = _
  rw [names_above (fun part member => named part (List.mem_append_left _ member)), names_of_named (by simpa using last)]

theorem place_of_node? (found : live.node? (parentDir rel ++ [fileName rel]) = some node) :
    place rel = parentDir rel ++ [fileName rel] := place_eq (Live.named_of_node? found)

theorem place_of_fits (fits : live.Fits (parentDir rel) (fileName rel)) :
    place rel = parentDir rel ++ [fileName rel] := by
  refine place_eq (fun part member => ?_)
  rcases List.mem_append.mp member with inside | last
  · exact Live.named_of_node? fits.parent part inside
  · exact List.mem_singleton.mp last ▸ fits.named

/-! ## Operations one by one -/

theorem mkdirat_cases {part : String} (done : mkdirat dir part t = .ok t') : t.live.searchable dir = true ∧
    (t' = t ∨ ∃ fits : t.live.Fits dir part, t.live.node? (dir ++ [part]) = none ∧ t.live.writable dir = true ∧
      t' = { t with live := t.live.put dir part .dir fits }) := by
  unfold mkdirat at done
  cases there : t.live.node? (dir ++ [part]) with
  | some node =>
    rw [there] at done
    dsimp only at done
    split_ifs at done with empty closed dot long <;> cases done
    · exact ⟨by simpa using closed, .inl rfl⟩
    · exact ⟨by simpa using closed, .inl rfl⟩
  | none =>
    rw [there] at done
    split_ifs at done with empty closed dot long fixed fits <;> cases done
    · exact ⟨by simpa using closed, .inl rfl⟩
    · exact ⟨by simpa using closed, .inr ⟨fits, rfl, by simpa using fixed, rfl⟩⟩

theorem mkdirat_eq_ok {part : String} (done : mkdirat dir part t = .ok t') :
    t'.saved = t.saved ∧ t.live.Grows t'.live := by
  obtain ⟨-, rfl | ⟨fits, absent, -, rfl⟩⟩ := mkdirat_cases done
  · exact ⟨rfl, .refl _⟩
  · refine ⟨rfl, fun path => ?_, rfl⟩
    dsimp only
    rw [Live.node?_put]
    split_ifs with here
    · exact .inr ⟨here ▸ absent, rfl⟩
    · exact .inl rfl

theorem openat_eq_ok {part : String} (done : openat dir part t = .ok t') : t' = t := by
  unfold openat at done
  split at done
  · cases done
  · split at done
    · split_ifs at done
      cases done
      rfl
    · split at done
      · split_ifs at done
        cases done
        rfl
      · cases done
      · cases done
      · cases done

theorem parentOps_keep {ps : List String} : ∀ op ∈ parentOps dir ps, ∀ t t', op t = .ok t' →
    t'.saved = t.saved ∧ t.live.Grows t'.live := by
  induction ps generalizing dir with
  | nil => exact fun _ member => absurd member List.not_mem_nil
  | cons part rest ih =>
    intro op member t t' done
    rw [parentOps, List.mem_cons, List.mem_cons] at member
    rcases member with rfl | rfl | later
    · exact mkdirat_eq_ok done
    · rw [openat_eq_ok done]
      exact ⟨rfl, .refl _⟩
    · exact ih op later t t' done

theorem createExcl_eq_ok {artifact : Artifact} (done : createExcl name artifact t = .ok t') :
    t.saved.get? name = none ∧ t' = { t with saved := t.saved.insert name artifact } := by
  rw [createExcl] at done
  split at done
  · cases done
  · next absent =>
    cases done
    exact ⟨absent, rfl⟩

theorem renameSaved_eq_ok {target : String} (done : renameSaved name target t = .ok t') :
    ∃ artifact, t.saved.get? name = some artifact ∧
      t' = { t with saved := (t.saved.erase name).insert target artifact } := by
  rw [renameSaved] at done
  split at done
  · cases done
  · next artifact found =>
    cases done
    exact ⟨artifact, found, rfl⟩

theorem unlinkSaved_eq_ok (done : unlinkSaved name t = .ok t') :
    t' = { t with saved := t.saved.erase name } := by
  rw [unlinkSaved] at done
  split at done <;> cases done
  rfl

theorem verify_eq_ok {expected : Fingerprint} (done : verify c ids ch expected t = .ok t') :
    t' = t ∧ ∃ f, t.saved.get? ids.version = some (.file f) ∧
      mayRead f.mode = true ∧ fingerprint c (f.bytes.take (maxFile + 1)) (permissions f.mode) = expected := by
  unfold verify at done
  split at done
  · next f found =>
    rw [refuseIf_bind_eq_ok, Bool.not_eq_false] at done
    obtain ⟨readable, done⟩ := done
    rw [refuseIf_bind_eq_ok, not_not] at done
    cases done.2
    exact ⟨rfl, f, found, readable, done.1⟩
  · cases done
  · cases done

/-- A receipt is written without touching a live node. -/
theorem writeReceipt_live {tmp : String} {r : RecoveryReceipt} : ∀ op ∈ writeReceipt tmp name r, ∀ t t',
    op t = .ok t' → t'.live = t.live := by
  simp only [writeReceipt, List.forall_mem_cons, List.not_mem_nil, false_implies, implies_true, and_true]
  refine ⟨fun t t' done => ?_, fun t t' done => ?_, fun t t' done => ?_⟩
  · rw [(createExcl_eq_ok done).2]
  · cases done
    rfl
  · obtain ⟨artifact, -, rfl⟩ := renameSaved_eq_ok done
    rfl

theorem stageOps_live {content : Bytes} {mode : UInt32} : ∀ op ∈ stageOps version content mode, ∀ t t',
    op t = .ok t' → t'.live = t.live := by
  simp only [stageOps, List.forall_mem_cons, List.not_mem_nil, false_implies, implies_true, and_true]
  refine ⟨fun t t' done => ?_, fun t t' done => ?_, fun t t' done => ?_⟩
  · rw [(createExcl_eq_ok done).2]
  · cases done
    rfl
  · cases done
    rfl

theorem journalOps_live {content : Bytes} : ∀ op ∈ journalOps ids ch content ignored, ∀ t t', op t = .ok t' →
    t.live.Grows t'.live := by
  intro op member t t' done
  rw [journalOps, List.mem_append, List.mem_append] at member
  rcases member with (parent | receipt) | staged
  · exact (parentOps_keep op parent t t' done).2
  · rw [writeReceipt_live op receipt t t' done]
    exact .refl _
  · split at staged
    · rw [stageOps_live op staged t t' done]
      exact .refl _
    · exact absurd staged List.not_mem_nil

theorem settleOps_live : ∀ op ∈ settleOps c ids ch ignored, ∀ t t', op t = .ok t' → t'.live = t.live := by
  intro op member t t' done
  unfold settleOps at member
  split at member
  · rcases List.mem_cons.mp member with rfl | later
    · rw [(verify_eq_ok done).1]
    · exact writeReceipt_live op later t t' done
  · rcases List.mem_append.mp member with write | unlink
    · exact writeReceipt_live op write t t' done
    · cases List.mem_singleton.mp unlink
      rw [unlinkSaved_eq_ok done]

/-! ## Which directories are made -/

/-- What is in a directory that was there changed only where the directory can be written. -/
def Live.Writes (live live' : Live) : Prop :=
  ∀ dir name, live.node? dir = some .dir → live'.node? (dir ++ [name]) ≠ live.node? (dir ++ [name]) →
    live.writable dir = true

theorem Live.Writes.refl (live : Live) : live.Writes live := fun _ _ _ differs => absurd rfl differs

theorem Live.Writes.trans {live'' : Live} (first : live.Writes live') (second : live'.Writes live'')
    (access : live'.dirs = live.dirs) (kept : ∀ dir, live.node? dir = some .dir → live'.node? dir = some .dir) :
    live.Writes live'' := by
  intro dir name isDir differs
  by_cases same : live'.node? (dir ++ [name]) = live.node? (dir ++ [name])
  · have later := second dir name (kept dir isDir) (by rwa [same])
    rwa [Live.writable, access] at later
  · exact first dir name isDir same

/-- Nothing but directories on the way to a place was added. -/
structure Live.Opens (live : Live) (target : List String) (live' : Live) : Prop where
  nodes : ∀ path, live'.node? path = live.node? path ∨
    (live.node? path = none ∧ live'.node? path = some .dir ∧ path.isPrefixOf target = true)
  dirs : live'.dirs = live.dirs
  writes : live.Writes live'

theorem Live.Opens.refl (live : Live) (target : List String) : live.Opens target live :=
  ⟨fun _ => .inl rfl, rfl, .refl live⟩

theorem Live.Opens.keeps {target : List String} (opens : live.Opens target live') (found : live.node? path = some node) :
    live'.node? path = some node := by
  rcases opens.nodes path with same | ⟨absent, -, -⟩
  · rw [same, found]
  · rw [absent] at found
    cases found

theorem Live.Opens.trans {target : List String} {live'' : Live} (first : live.Opens target live')
    (second : live'.Opens target live'') : live.Opens target live'' := by
  refine ⟨fun path => ?_, second.dirs.trans first.dirs,
    first.writes.trans second.writes first.dirs (fun _ found => first.keeps found)⟩
  rcases second.nodes path with same | ⟨absent, made, inside⟩
  · rw [same]
    exact first.nodes path
  · rcases first.nodes path with same | ⟨-, present, -⟩
    · exact .inr ⟨same ▸ absent, made, inside⟩
    · rw [present] at absent
      cases absent

theorem mkdirat_opens {part : String} {target : List String} (below : (dir ++ [part]).isPrefixOf target = true)
    (done : mkdirat dir part t = .ok t') : t.live.Opens target t'.live := by
  obtain ⟨-, rfl | ⟨fits, absent, writable, rfl⟩⟩ := mkdirat_cases done
  · exact .refl _ _
  · refine ⟨fun path => ?_, rfl, fun above name _ differs => ?_⟩
    · dsimp only
      rw [Live.node?_put]
      split_ifs with here
      · exact .inr ⟨here ▸ absent, rfl, here ▸ below⟩
      · exact .inl rfl
    · dsimp only at differs
      rw [Live.node?_put] at differs
      split_ifs at differs with here
      · rw [(List.append_inj' here rfl).1]
        exact writable
      · exact absurd rfl differs

theorem parentOps_opens {ps : List String} : ∀ op ∈ parentOps dir ps, ∀ t t', op t = .ok t' →
    t.live.Opens (dir ++ ps.filter (fun part => part != ".")) t'.live := by
  induction ps generalizing dir with
  | nil => exact fun _ member => absurd member List.not_mem_nil
  | cons part rest ih =>
    intro op member t t' done
    rw [parentOps, List.mem_cons, List.mem_cons] at member
    rcases member with rfl | rfl | later
    · by_cases dot : part = "."
      · obtain ⟨-, rfl | ⟨fits, -⟩⟩ := mkdirat_cases done
        · exact .refl _ _
        · exact absurd dot fits.named.2.1
      · refine mkdirat_opens ?_ done
        rw [List.filter_cons_of_pos (by simpa using dot), List.isPrefixOf_iff_prefix]
        exact ⟨rest.filter (fun part => part != "."), by simp⟩
    · rw [openat_eq_ok done]
      exact .refl _ _
    · have next := ih op later t t' done
      by_cases dot : part = "."
      · rw [if_pos dot] at next
        rw [List.filter_cons_of_neg (by simpa using dot)]
        exact next
      · rw [if_neg dot, List.append_assoc] at next
        rw [List.filter_cons_of_pos (by simpa using dot)]
        exact next

theorem perform_journal_opens {stopped : Option (Result Unit)} {content : Bytes}
    (ran : perform (journalOps ids ch content ignored) steps t = (stopped, t')) :
    t.live.Opens (parentDir ch.path) t'.live := by
  refine perform_inv (P := fun u => t.live.Opens (parentDir ch.path) u.live)
    (fun op member u u' opens done => opens.trans ?_) (.refl _ _) ran
  rw [journalOps, List.mem_append, List.mem_append] at member
  rcases member with (parent | receipt) | staged
  · exact parentOps_opens op parent u u' done
  · rw [writeReceipt_live op receipt u u' done]
    exact .refl _ _
  · split at staged
    · rw [stageOps_live op staged u u' done]
      exact .refl _ _
    · exact absurd staged List.not_mem_nil

/-! ## The publication -/

/-- What is taken away is there. -/
theorem node?_of_taken {artifact : Artifact} (taken : live.taken path = some artifact) :
    ∃ node, live.node? path = some node := by
  unfold Live.taken at taken
  split at taken
  · cases taken
  all_goals exact ⟨_, by assumption⟩

theorem taken_eq_none : live.taken path = none ↔ live.node? path = none := by
  unfold Live.taken
  cases live.node? path with
  | none => exact iff_of_true rfl rfl
  | some node => cases node <;> simp

theorem taken_of_file? (found : live.file? path = some f) : live.taken path = some (.file f) := by
  unfold Live.taken
  rw [Live.file?_eq_some.mp found]

theorem swaps_cut : live.Swaps (dir ++ [name]) none (live.cut dir name) := by
  refine ⟨fun path => ?_, fun path outside => ?_⟩
  · rw [Live.node?_cut]
    split_ifs with inside here here
    · rfl
    · rfl
    · rw [here, List.isPrefixOf_iff_prefix] at inside
      exact absurd List.prefix_rfl inside
    · rfl
  · rw [Live.cut]
    dsimp only
    rw [outside]
    rfl

theorem swaps_put (fits : (live.cut dir name).Fits dir name) :
    live.Swaps (dir ++ [name]) (some node) ((live.cut dir name).put dir name node fits) := by
  refine ⟨fun path => ?_, swaps_cut.dirs⟩
  rw [Live.node?_put, Live.node?_cut]

theorem sets_put (fits : live.Fits dir name) : live.Sets (dir ++ [name]) (some node) (live.put dir name node fits) :=
  ⟨fun _ => Live.node?_put fits, rfl⟩

theorem exchange_eq_ok (done : exchange version rel t = .ok t') : ∃ staged displaced,
    t.saved.get? version = some (.file staged) ∧ t.live.taken (place rel) = some displaced ∧
      t'.saved = t.saved.insert version displaced ∧ t.live.Swaps (place rel) (some (.file staged)) t'.live ∧
      place rel = parentDir rel ++ [fileName rel] := by
  rw [exchange] at done
  split at done
  · next staged displaced saved found =>
    split_ifs at done with fits
    cases done
    rw [place_of_fits fits.1]
    exact ⟨staged, displaced, saved, found, rfl, swaps_put fits.1, rfl⟩
  · cases done

theorem moveIn_eq_ok (done : moveIn version rel t = .ok t') : ∃ staged,
    t.saved.get? version = some (.file staged) ∧ t.live.node? (place rel) = none ∧
      t'.saved = t.saved.erase version ∧ t.live.Sets (place rel) (some (.file staged)) t'.live ∧
      place rel = parentDir rel ++ [fileName rel] := by
  rw [moveIn] at done
  split at done
  · next staged saved absent =>
    split_ifs at done with fits
    cases done
    rw [place_of_fits fits.1]
    exact ⟨staged, saved, absent, rfl, sets_put fits.1, rfl⟩
  · cases done

theorem moveOut_eq_ok (done : moveOut version rel t = .ok t') : ∃ displaced,
    t.saved.get? version = none ∧ t.live.taken (place rel) = some displaced ∧
      t'.saved = t.saved.insert version displaced ∧ t.live.Swaps (place rel) none t'.live ∧
      place rel = parentDir rel ++ [fileName rel] := by
  unfold moveOut at done
  split at done
  · next displaced saved found =>
    split_ifs at done with movable
    cases done
    obtain ⟨node, there⟩ := node?_of_taken found
    rw [place_of_node? there]
    exact ⟨displaced, saved, found, rfl, swaps_cut, rfl⟩
  · cases done

/-! ## The recovery directory -/

/-- An operation that succeeds does to the recovery directory what a function does. -/
def Acts (op : Op) (g : OrdMap String Artifact → OrdMap String Artifact) : Prop :=
  ∀ t t', op t = .ok t' → t'.saved = g t.saved

theorem perform_acts {gs : List (OrdMap String Artifact → OrdMap String Artifact)}
    (acts : List.Forall₂ Acts ops gs) (ran : perform ops steps t = (some (.ok ()), t')) :
    t'.saved = gs.foldl (fun saved g => g saved) t.saved := by
  induction acts generalizing steps t with
  | nil =>
    cases ran
    rfl
  | cons first others ih =>
    rcases perform_cons ran with ⟨-, unfinished⟩ | ⟨next, remaining, done, ran⟩
    · exact absurd rfl unfinished
    · rw [List.foldl_cons, ih ran, first _ _ done]

def moved (name target : String) (saved : OrdMap String Artifact) : OrdMap String Artifact :=
  match saved.get? name with
  | none => saved
  | some artifact => (saved.erase name).insert target artifact

theorem parentOps_acts (dir ps : List String) :
    List.Forall₂ Acts (parentOps dir ps) ((parentOps dir ps).map (fun _ => id)) := by
  rw [List.forall₂_map_right_iff, List.forall₂_same]
  exact fun op member t t' done => (parentOps_keep op member t t' done).1

theorem createExcl_acts {artifact : Artifact} : Acts (createExcl name artifact) (·.insert name artifact) := by
  intro t t' done
  rw [(createExcl_eq_ok done).2]

theorem writeSaved_acts {artifact : Artifact} : Acts (writeSaved name artifact) (·.insert name artifact) := by
  intro t t' done
  cases done
  rfl

theorem renameSaved_acts {target : String} : Acts (renameSaved name target) (moved name target) := by
  intro t t' done
  obtain ⟨artifact, found, rfl⟩ := renameSaved_eq_ok done
  rw [moved, found]

theorem writeReceipt_acts (tmp name : String) (r : RecoveryReceipt) : List.Forall₂ Acts (writeReceipt tmp name r)
    [(·.insert (tmp ++ ".tmp") (.file ⟨[], 0o600⟩)), (·.insert (tmp ++ ".tmp") (.ofReceipt r)),
      moved (tmp ++ ".tmp") name] :=
  .cons createExcl_acts (.cons writeSaved_acts (.cons renameSaved_acts .nil))

theorem stageOps_acts (version : String) (content : Bytes) (mode : UInt32) : List.Forall₂ Acts (stageOps version content mode)
    [(·.insert version (.file ⟨[], 0o600⟩)), (·.insert version (.file ⟨content, 0o600⟩)),
      (·.insert version (.file ⟨content, mode⟩))] :=
  .cons createExcl_acts (.cons writeSaved_acts (.cons writeSaved_acts .nil))

/-- The directory after a receipt was written through a temporary file. -/
def noted (tmp name : String) (r : RecoveryReceipt) (saved : OrdMap String Artifact) : OrdMap String Artifact :=
  (saved.erase (tmp ++ ".tmp")).insert name (.ofReceipt r)

theorem moved_noted {tmp : String} {r : RecoveryReceipt} {saved : OrdMap String Artifact} {a : Artifact} :
    moved (tmp ++ ".tmp") name ((saved.insert (tmp ++ ".tmp") a).insert (tmp ++ ".tmp") (.ofReceipt r)) =
      noted tmp name r saved := by
  rw [moved, OrdMap.get?_insert_self]
  refine OrdMap.ext_get? (fun other => ?_)
  simp only [noted, OrdMap.get?_insert, OrdMap.get?_erase]
  split_ifs <;> rfl

theorem intrude_saved {write : Live → Live} (done : intrude write t = .ok t') : t'.saved = t.saved := by
  cases done
  rfl

/-- Another program's write does not touch the recovery directory. -/
theorem withIntrusion_acts {gs : List (OrdMap String Artifact → OrdMap String Artifact)}
    (acts : List.Forall₂ Acts ops gs) (intrusion : Option (Intrusion path))
    (ran : perform (withIntrusion ops intrusion) steps t = (some (.ok ()), t')) :
    t'.saved = gs.foldl (fun saved g => g saved) t.saved := by
  cases intrusion with
  | none => exact perform_acts acts ran
  | some i =>
    have split : List.Forall₂ Acts (withIntrusion ops (some i))
        (gs.take i.after ++ id :: gs.drop i.after) :=
      List.rel_append (List.forall₂_take i.after acts)
        (.cons (fun _ _ => intrude_saved) (List.forall₂_drop i.after acts))
    rw [perform_acts split ran, List.foldl_append, List.foldl_cons, id, ← List.foldl_append,
      List.take_append_drop]

/-- The recovery directory when everything is ready for the publication. -/
def journaled (ids : Ids) (ch : Change) (content : Bytes) (ignored : List String) (saved : OrdMap String Artifact) :
    OrdMap String Artifact :=
  match ch.new with
  | some new => (noted ids.first ids.receiptName (receiptOf ids ch ignored .pending) saved).insert ids.version
    (.file ⟨content, new.mode⟩)
  | none => noted ids.first ids.receiptName (receiptOf ids ch ignored .pending) saved

theorem journalOps_saved {content : Bytes} (intrusion : Option (Intrusion path))
    (ran : perform (withIntrusion (journalOps ids ch content ignored) intrusion) steps t = (some (.ok ()), t')) :
    t'.saved = journaled ids ch content ignored t.saved := by
  have opened (saved : OrdMap String Artifact) (l : List Op) :
      (l.map (fun _ => id)).foldl (fun saved (g : OrdMap String Artifact → OrdMap String Artifact) => g saved)
        saved = saved := by
    induction l with
    | nil => rfl
    | cons op l ih => exact ih
  cases new : ch.new with
  | none =>
    have acts := List.rel_append (parentOps_acts [] (parts ch.path).dropLast)
      (writeReceipt_acts ids.first ids.receiptName (receiptOf ids ch ignored .pending))
    rw [journaled, new]
    rw [journalOps, new, List.append_nil] at ran
    rw [withIntrusion_acts acts intrusion ran, List.foldl_append, opened]
    exact moved_noted
  | some fp =>
    have acts := List.rel_append (List.rel_append (parentOps_acts [] (parts ch.path).dropLast)
      (writeReceipt_acts ids.first ids.receiptName (receiptOf ids ch ignored .pending)))
      (stageOps_acts ids.version content fp.mode)
    rw [journaled, new]
    rw [journalOps, new] at ran
    rw [withIntrusion_acts acts intrusion ran, List.foldl_append, List.foldl_append, opened]
    simp only [List.foldl_cons, List.foldl_nil, moved_noted]
    refine OrdMap.ext_get? (fun other => ?_)
    simp only [OrdMap.get?_insert]
    split_ifs <;> rfl

theorem journalOps_saved_alone {content : Bytes}
    (ran : perform (journalOps ids ch content ignored) steps t = (some (.ok ()), t')) :
    t'.saved = journaled ids ch content ignored t.saved :=
  journalOps_saved (none : Option (Intrusion [])) ran

/-! ## One application -/

/-- The file a change leaves at its path. -/
def newFile (ch : Change) (content : Bytes) : Option File := ch.new.map (fun new => ⟨content, new.mode⟩)

/-- A change was published: its place was given the new file, and what was there is kept as the version of the
change. -/
structure Displaced (ids : Ids) (ch : Change) (content : Bytes) (was : Option Artifact) (t t' : Tree) : Prop where
  found : t.live.taken (place ch.path) = was
  known : was.isSome = ch.expected.isSome
  placed : place ch.path = parentDir ch.path ++ [fileName ch.path]
  live : t.live.Swaps (place ch.path) ((newFile ch content).map .file) t'.live
  saved : ∀ name, t'.saved.get? name = if name = ids.version then was else t.saved.get? name

theorem publishOp_eq_ok (content : Bytes) (wanted : ch.expected ≠ ch.new)
    (staged : ∀ new, ch.new = some new → t.saved.get? ids.version = some (.file ⟨content, new.mode⟩))
    (done : publishOp ids ch t = .ok t') : ∃ was, Displaced ids ch content was t t' := by
  unfold publishOp at done
  cases hasNew : ch.new with
  | none =>
    rw [hasNew] at done
    obtain ⟨displaced, -, was, saved, swaps, placed⟩ := moveOut_eq_ok done
    refine ⟨some displaced, was, ?_, placed, ?_, fun name => ?_⟩
    · cases expected : ch.expected with
      | none => exact absurd (expected.trans hasNew.symm) wanted
      | some fp => rfl
    · rw [newFile, hasNew]
      exact swaps
    · rw [saved, OrdMap.get?_insert]
  | some new =>
    rw [hasNew] at done
    cases hasExpected : ch.expected with
    | none =>
      rw [hasExpected] at done
      obtain ⟨file, found, absent, saved, sets, placed⟩ := moveIn_eq_ok done
      rw [staged new hasNew] at found
      cases found
      refine ⟨none, taken_eq_none.mpr absent, by rw [hasExpected]; rfl, placed, ?_, fun name => ?_⟩
      · rw [newFile, hasNew]
        exact sets.swaps (by rw [absent]; simp)
      · rw [saved, OrdMap.get?_erase]
    | some expected =>
      rw [hasExpected] at done
      obtain ⟨file, displaced, found, was, saved, swaps, placed⟩ := exchange_eq_ok done
      rw [staged new hasNew] at found
      cases found
      refine ⟨some displaced, was, by rw [hasExpected]; rfl, placed, ?_, fun name => ?_⟩
      · rw [newFile, hasNew]
        exact swaps
      · rw [saved, OrdMap.get?_insert]

/-- Whatever a change is, it is published in a directory that can be written. -/
theorem publishOp_writable (done : publishOp ids ch t = .ok t') : t.live.writable (parentDir ch.path) = true := by
  have movable : t.live.movable (parentDir ch.path) (fileName ch.path) = true := by
    unfold publishOp at done
    cases hasNew : ch.new with
    | none =>
      rw [hasNew] at done
      dsimp only at done
      unfold moveOut at done
      split at done
      · split_ifs at done with fits
        exact fits
      · cases done
    | some new =>
      rw [hasNew] at done
      cases hasExpected : ch.expected with
      | none =>
        rw [hasExpected] at done
        dsimp only at done
        unfold moveIn at done
        split at done
        · split_ifs at done with fits
          exact fits.2
        · cases done
      | some expected =>
        rw [hasExpected] at done
        dsimp only at done
        unfold exchange at done
        split at done
        · split_ifs at done with fits
          exact fits.2
        · cases done
  rw [Live.movable, Bool.and_eq_true_iff, Bool.and_eq_true_iff] at movable
  exact movable.1.1

/-- A change took effect on the file that was read: one place among the live nodes was given the new file, and the
file that was there is kept as the version of the change. -/
structure Published (ids : Ids) (ch : Change) (content : Bytes) (was : Option File) (t t' : Tree) : Prop where
  found : t.live.file? (place ch.path) = was
  known : was.isSome = ch.expected.isSome
  placed : place ch.path = parentDir ch.path ++ [fileName ch.path]
  searched : t.live.searched (place ch.path) = true
  writable : t.live.writable (parentDir ch.path) = true
  live : t.live.Sets (place ch.path) ((newFile ch content).map .file) t'.live
  saved : ∀ name, t'.saved.get? name = if name = ids.version then was.map .file else t.saved.get? name

/-- Directories on the way to a place are not at the place. -/
theorem Live.Opens.at_place (opens : live.Opens (parentDir rel) live')
    (placed : place rel = parentDir rel ++ [fileName rel]) : live'.node? (place rel) = live.node? (place rel) := by
  rcases opens.nodes (place rel) with same | ⟨-, -, within⟩
  · exact same
  · rw [placed, List.isPrefixOf_iff_prefix] at within
    have short := within.length_le
    rw [List.length_append, List.length_singleton] at short
    omega

/-- Without another writer, what a publication displaces is what was read. -/
theorem published_of_ready {content : Bytes} {current : Option File} (readable : read t.live ch.path = .ok current)
    (wanted : ch.expected ≠ ch.new)
    (ready : perform (journalOps ids ch content ignored) steps t = (some (.ok ()), t'))
    (done : publishOp ids ch t' = .ok u) : Published ids ch content current t' u := by
  have staged := journalOps_saved_alone ready
  obtain ⟨was, effect⟩ := publishOp_eq_ok content wanted
    (fun new hasNew => by rw [staged, journaled, hasNew, OrdMap.get?_insert_self]) done
  obtain ⟨-, -, content, known, -⟩ := read_eq_ok readable
  have same := (perform_journal_opens ready).at_place effect.placed
  have here : t'.live.file? (place ch.path) = current := by rw [Live.file?, same, content, Live.file?]
  have leaf : t'.live.node? (place ch.path) ≠ some .dir := by
    intro isDir
    rw [Live.file?, isDir] at here
    rw [← same, isDir, ← here] at known
    cases known
  have displaced : was = current.map .file := by
    rw [← effect.found]
    cases found : current with
    | none =>
      rw [found, Option.isSome_none, Option.isSome_eq_false_iff, Option.isNone_iff_eq_none] at known
      exact taken_eq_none.mpr (same.trans known)
    | some f => exact taken_of_file? (here.trans found)
  refine ⟨here, ?_, effect.placed, ?_, publishOp_writable done, effect.live.sets ?_ leaf ?_, fun name => ?_⟩
  · rw [← effect.known, displaced, Option.isSome_map]
  · rw [Live.searched_congr (perform_journal_opens ready).dirs]
    exact (read_access readable).2.1
  · rw [effect.placed]
    simp
  · cases newFile ch _ <;> simp
  · rw [effect.saved, displaced]

/-- What holds when the checks before the first write have passed. -/
structure Admitted (c : Crypto) (host : Host) (s : Store) (t : Tree) (ch : Change) (bytes : Option Bytes)
    (ignored : List String) (current : Option File) : Prop where
  writable : Store.ensureWritable s = .ok ()
  recovered : checkRecoveryExcept c t.saved ignored = .ok ()
  content : checkContent c ch.new bytes = .ok ()
  readable : read t.live ch.path = .ok current

theorem applyChecks_eq_ok {due : Bool} : applyChecks c host s t ch bytes ignored = .ok due ↔
    ∃ current, Admitted c host s t ch bytes ignored current ∧
      ((due = false ∧ current.map (·.fingerprint c) = ch.new) ∨
      (due = true ∧ current.map (·.fingerprint c) ≠ ch.new ∧ current.map (·.fingerprint c) = ch.expected ∧
        s.grants.forM (checkGranted host t.live (host.root ++ place ch.path)) = .ok () ∧
        admitRecovery t.saved (current.elim 0 (·.bytes.length) + bytes.elim 0 (·.length)) 4 = .ok ())) := by
  rw [applyChecks, bind_eq_ok]
  constructor
  · rintro ⟨⟨⟩, writable, success⟩
    rw [bind_eq_ok] at success
    obtain ⟨⟨⟩, recovered, success⟩ := success
    rw [bind_eq_ok] at success
    obtain ⟨⟨⟩, content, success⟩ := success
    rw [bind_eq_ok] at success
    obtain ⟨current, readable, success⟩ := success
    refine ⟨current, ⟨writable, recovered, content, readable⟩, ?_⟩
    split_ifs at success with same
    · cases success
      exact .inl ⟨rfl, same⟩
    · rw [bind_eq_ok] at success
      obtain ⟨⟨⟩, expected, success⟩ := success
      rw [bind_eq_ok] at success
      obtain ⟨⟨⟩, ungranted, success⟩ := success
      rw [bind_eq_ok] at success
      obtain ⟨⟨⟩, room, success⟩ := success
      cases success
      rw [refuseIf_eq_ok, not_not] at expected
      exact .inr ⟨rfl, same, expected, ungranted, room⟩
  · rintro ⟨current, ⟨writable, recovered, content, readable⟩, way⟩
    refine ⟨(), writable, ?_⟩
    rw [recovered, ok_bind, content, ok_bind, readable, ok_bind]
    rcases way with ⟨rfl, same⟩ | ⟨rfl, differs, expected, ungranted, room⟩
    · rw [if_pos same]
      rfl
    · rw [if_neg differs, refuseIf_neg (not_not.mpr expected), ok_bind, ungranted, ok_bind, room]
      rfl

/-- A mode without other bits is its own permission bits. -/
theorem permissions_of_plain {mode : UInt32} (plain : mode &&& ~~~0o777 = 0) : permissions mode = mode := by
  have distrib : mode &&& (0o777 ||| ~~~0o777) = (mode &&& 0o777) ||| (mode &&& ~~~0o777) := by
    apply UInt32.eq_of_toBitVec_eq
    simp only [UInt32.toBitVec_and, UInt32.toBitVec_or]
    exact BitVec.and_or_distrib_left
  rw [plain, UInt32.or_zero, UInt32.or_not_self, UInt32.and_neg_one] at distrib
  exact distrib.symm

/-- Content that passed its check has the fingerprint it was announced with. -/
theorem newFile_fingerprint (checked : checkContent c ch.new bytes = .ok ()) :
    (newFile ch (bytes.getD [])).map (·.fingerprint c) = ch.new := by
  rw [newFile, Option.map_map]
  cases new : ch.new with
  | none => rfl
  | some fp =>
    rw [new] at checked
    cases bytes with
    | none => cases checked
    | some data =>
      rw [checkContent, refuseIf_eq_ok, not_or, not_not, not_not] at checked
      obtain ⟨plain, same⟩ := checked
      have mode : permissions fp.mode = fp.mode := permissions_of_plain plain
      simp only [Option.map_some, Function.comp_apply, File.fingerprint, Option.getD_some, mode, same]

/-- The operations of a change stop before its publication, or everything before went well, the change was
published, and the rest follows. -/
theorem perform_change {before : List Op}
    (ran : perform (before ++ publishOp ids ch :: settleOps c ids ch ignored) steps t = (outcome, t')) :
    (∃ stopped, perform before steps t = (stopped, t') ∧ outcome ≠ some (.ok ())) ∨
    ∃ middle after remaining, perform before steps t = (some (.ok ()), middle) ∧
      publishOp ids ch middle = .ok after ∧
      perform (settleOps c ids ch ignored) remaining after = (outcome, t') := by
  rcases perform_append ran with ⟨stopped, unfinished⟩ | ⟨middle, remaining, done, ran⟩
  · exact .inl ⟨_, stopped, unfinished⟩
  · rcases perform_cons ran with ⟨rfl, unfinished⟩ | ⟨after, remaining, published, ran⟩
    · exact .inl ⟨_, done, unfinished⟩
    · exact .inr ⟨middle, after, remaining, done, published, ran⟩

theorem perform_journal_grows {content : Bytes} {stopped : Option (Result Unit)}
    (ran : perform (journalOps ids ch content ignored) steps t = (stopped, t')) : t.live.Grows t'.live :=
  perform_inv (P := fun u => t.live.Grows u.live)
    (fun op member _ _ grows done => grows.trans (journalOps_live op member _ _ done)) (.refl _) ran

theorem perform_settle_live (ran : perform (settleOps c ids ch ignored) steps t = (outcome, t')) :
    t'.live = t.live :=
  perform_inv (P := fun u => u.live = t.live)
    (fun op member _ _ same done => (settleOps_live op member _ _ done).trans same) rfl ran

/-- An application that went through: the live file at the path was the expected one and is now the new one,
and directories were added at most. -/
structure Applied (c : Crypto) (host : Host) (s : Store) (ch : Change) (bytes : Option Bytes)
    (current : Option File) (t t' : Tree) : Prop extends Admitted c host s t ch bytes [] current where
  differs : current.map (·.fingerprint c) ≠ ch.new
  expected : current.map (·.fingerprint c) = ch.expected
  ungranted : s.grants.forM (checkGranted host t.live (host.root ++ place ch.path)) = .ok ()
  live : ∃ middle, t.live.Grows middle ∧
    middle.Sets (place ch.path) ((newFile ch (bytes.getD [])).map .file) t'.live

/-- An application goes on once it has the recovery directory. -/
theorem apply_locks (ran : apply c host s ch bytes ids t = (result, t')) : (∃ e, result = .error e ∧ t' = t) ∨
    (recoveryLock host t.live = .ok () ∧ applyUndisturbed c host s ch bytes ids t = (result, t')) := by
  rw [apply] at ran
  cases locked : recoveryLock host t.live with
  | error e =>
    rw [locked] at ran
    cases ran
    exact .inl ⟨e, rfl, rfl⟩
  | ok done =>
    rw [locked] at ran
    exact .inr ⟨rfl, ran⟩

theorem recoveryLock_eq_ok {live : Live} : recoveryLock host live = .ok () ↔
    live.searchable [] = true ∧ (host.hasRecovery = true ∨ live.writable [] = true) := by
  rw [recoveryLock, refuseIf_eq_ok]
  cases live.searchable [] <;> cases host.hasRecovery <;> simp

theorem apply_eq_ok : apply c host s ch bytes ids t = (.ok (), t') ↔
    recoveryLock host t.live = .ok () ∧ applyUndisturbed c host s ch bytes ids t = (.ok (), t') := by
  constructor
  · intro ran
    rcases apply_locks ran with ⟨e, failed, -⟩ | both
    · cases failed
    · exact both
  · rintro ⟨locked, ran⟩
    rw [apply, locked]
    exact ran

/-- An application fails before anything but directories was added, has nothing to do, or takes effect; it
may still fail after it took effect. -/
theorem apply_cases (ran : apply c host s ch bytes ids t = (result, t')) :
    (result ≠ .ok () ∧ t.live.Grows t'.live) ∨
    (result = .ok () ∧ t' = t ∧ ∃ current, Admitted c host s t ch bytes [] current ∧
      current.map (·.fingerprint c) = ch.new) ∨
    ∃ current, Applied c host s ch bytes current t t' := by
  rcases apply_locks ran with ⟨e, rfl, rfl⟩ | ⟨-, ran⟩
  · exact .inl ⟨by simp, .refl _⟩
  rw [applyUndisturbed] at ran
  cases checked : applyChecks c host s t ch bytes [] with
  | error e =>
    rw [checked] at ran
    cases ran
    exact .inl ⟨by simp, .refl _⟩
  | ok due =>
    rw [checked] at ran
    obtain ⟨current, admitted, ⟨rfl, same⟩ | ⟨rfl, differs, expected, ungranted, -⟩⟩ :=
      applyChecks_eq_ok.mp checked
    · cases ran
      exact .inr (.inl ⟨rfl, rfl, current, admitted, same⟩)
    · rcases perform_change (perform_performAll ran) with
        ⟨stopped, ran, unfinished⟩ | ⟨middle, after, remaining, ready, published, settled⟩
      · exact .inl ⟨fun finished => unfinished (finished ▸ rfl), perform_journal_grows ran⟩
      · have effect := published_of_ready admitted.readable (fun same => differs (expected.trans same)) ready published
        refine .inr (.inr ⟨current, admitted, differs, expected, ungranted, middle.live,
          perform_journal_grows ready, ?_⟩)
        rw [perform_settle_live settled]
        exact effect.live

theorem place_of_admitted {current : Option File} (admitted : Admitted c host s t ch bytes ignored current) :
    current = t.live.file? (place ch.path) := (read_eq_ok admitted.readable).2.2.1

namespace Applied

variable {current : Option File}

/-- No other live file changes. -/
theorem others (applied : Applied c host s ch bytes current t t') (differs : path ≠ place ch.path) :
    t'.live.file? path = t.live.file? path := by
  obtain ⟨middle, grows, sets⟩ := applied.live
  rw [sets.file?_of_ne differs, grows.file?]

theorem before (applied : Applied c host s ch bytes current t t') :
    (t.live.file? (place ch.path)).map (·.fingerprint c) = ch.expected := by
  rw [← place_of_admitted applied.toAdmitted, applied.expected]

theorem file? (applied : Applied c host s ch bytes current t t') :
    t'.live.file? (place ch.path) = newFile ch (bytes.getD []) := by
  obtain ⟨middle, -, sets⟩ := applied.live
  rw [Live.file?, sets.nodes, if_pos rfl]
  cases newFile ch (bytes.getD []) <;> rfl

theorem after (applied : Applied c host s ch bytes current t t') :
    (t'.live.file? (place ch.path)).map (·.fingerprint c) = ch.new := by
  rw [applied.file?, newFile_fingerprint applied.content]

end Applied

/-! ## Whole applications -/

/-- An application without a stop is an application with enough operations. -/
theorem applyUndisturbed_eq_applyLocked (ran : applyUndisturbed c host s ch bytes ids t = (result, t')) :
    ∃ steps report,
      applyLocked c host s ch bytes [] ids none steps t = (some (result.map (fun _ => report)), t') := by
  rw [applyUndisturbed] at ran
  refine ⟨(journalOps ids ch (bytes.getD []) [] ++ publishOp ids ch :: settleOps c ids ch []).length, ?_⟩
  cases checked : applyChecks c host s t ch bytes [] with
  | error e =>
    rw [checked] at ran
    cases ran
    exact ⟨none, by rw [applyLocked, checked]; rfl⟩
  | ok due =>
    rw [checked] at ran
    cases due with
    | false =>
      cases ran
      exact ⟨none, by rw [applyLocked, checked]; rfl⟩
    | true =>
      refine ⟨some ids.receiptName, ?_⟩
      rw [applyLocked, checked]
      dsimp only [withIntrusion]
      rw [perform_performAll ran]
      rfl

end Clix.Pin
