import Clix.Model.Dispatcher
import Mathlib.Data.List.TakeWhile

/-! # The dispatcher is fair

Each task holds its key until it is joined, so no key is started twice at a time. The cursor moves in turn, so nothing that
was started comes up again before a key that has been waiting all along.
-/

namespace Clix.Dispatcher

open Rotation

variable {cap : ℕ} {r : Round} {d d' : Dispatcher} {key k : String} {keys : List String}

/-- Exactly the tasks that were not joined hold their keys, each its own. -/
structure Tracks (d : Dispatcher) : Prop where
  held : d.active = d.tasks.map (fun t => (t.id, t.key))
  fresh : ∀ t ∈ d.tasks, t.id < d.nextId
  ids : (d.tasks.map (·.id)).Nodup
  keys : (d.tasks.map (·.key)).Nodup

theorem isActive_eq_true (tracks : d.Tracks) : d.isActive key = true ↔ key ∈ d.tasks.map (·.key) := by
  simp [isActive, tracks.held]

theorem tracks_initial : initial.Tracks := ⟨rfl, nofun, List.nodup_nil, List.nodup_nil⟩

theorem Tracks.spawn (tracks : d.Tracks) (idle : d.isActive key = false) : (d.spawn r key).Tracks where
  held := by simp [Dispatcher.spawn, tracks.held]
  fresh t member := by
    rcases List.mem_append.mp member with old | new
    · exact (tracks.fresh t old).trans (Nat.lt_succ_self _)
    · rw [List.mem_singleton.mp new]
      exact Nat.lt_succ_self _
  ids := by
    rw [Dispatcher.spawn, List.map_append, List.nodup_append]
    refine ⟨tracks.ids, List.nodup_singleton _, fun id old id' new same => ?_⟩
    obtain ⟨t, member, rfl⟩ := List.mem_map.mp old
    have below := tracks.fresh t member
    rw [List.mem_singleton.mp new] at same
    exact absurd same below.ne
  keys := by
    rw [Dispatcher.spawn, List.map_append, List.nodup_append]
    refine ⟨tracks.keys, List.nodup_singleton _, fun old there new here same => ?_⟩
    rw [List.mem_singleton.mp here] at same
    rw [same, ← isActive_eq_true tracks, idle] at there
    cases there

theorem Tracks.congr (tracks : d.Tracks) (tasks : d'.tasks = d.tasks) (active : d'.active = d.active)
    (nextId : d'.nextId = d.nextId) : d'.Tracks := by
  refine ⟨?_, ?_, ?_, ?_⟩
  · rw [active, tasks, tracks.held]
  · rw [tasks, nextId]
    exact tracks.fresh
  · rw [tasks]
    exact tracks.ids
  · rw [tasks]
    exact tracks.keys

/-! ## One scan -/

theorem scan_cons (cap : ℕ) (r : Round) (d : Dispatcher) (key : String) (rest : List String) :
    scan cap r d (key :: rest) =
      if cap ≤ d.tasks.length then (d, [])
      else if d.isActive key || d.isDelayed r.now key then scan cap r d rest
      else ((scan cap r (d.spawn r key) rest).1, key :: (scan cap r (d.spawn r key) rest).2) := rfl

/-- A scan starts keys of its list, in its order, none of them twice and none that is active. -/
theorem scan_started (tracks : d.Tracks) (keys : List String) : (scan cap r d keys).1.Tracks ∧
    (scan cap r d keys).1.cursor = d.cursor ∧ (scan cap r d keys).2.Sublist keys ∧
    (scan cap r d keys).1.tasks.map (·.key) = d.tasks.map (·.key) ++ (scan cap r d keys).2 := by
  induction keys generalizing d with
  | nil => exact ⟨tracks, rfl, .slnil, (List.append_nil _).symm⟩
  | cons key rest ih =>
    rw [scan_cons]
    split_ifs with full busy
    · exact ⟨tracks, rfl, List.nil_sublist _, (List.append_nil _).symm⟩
    · obtain ⟨still, cursor, sublist, tasks⟩ := ih tracks
      exact ⟨still, cursor, sublist.cons _, tasks⟩
    · rw [Bool.or_eq_true, not_or, Bool.not_eq_true] at busy
      obtain ⟨still, cursor, sublist, tasks⟩ := ih (tracks.spawn (r := r) busy.1)
      refine ⟨still, cursor, sublist.cons_cons _, tasks.trans ?_⟩
      simp [Dispatcher.spawn]

theorem nodup_started (tracks : d.Tracks) (keys : List String) : (scan cap r d keys).2.Nodup := by
  obtain ⟨still, -, -, tasks⟩ : (scan cap r d keys).1.Tracks ∧ _ ∧ _ ∧ _ := scan_started tracks keys
  have distinct := still.keys
  rw [tasks] at distinct
  exact List.Nodup.of_append_right distinct

/-- A key that is neither active nor delayed is started, unless the scan is cut short before it. -/
theorem scan_reaches {before after : List String} (absent : k ∉ before) (idle : d.isActive k = false)
    (due : d.isDelayed r.now k = false) :
    ((scan cap r d (before ++ k :: after)).2.takeWhile (fun key => key != k)).Sublist before := by
  induction before generalizing d with
  | nil =>
    rw [List.nil_append, scan_cons, idle, due]
    split_ifs with full busy
    · exact List.nil_sublist _
    · cases busy
    · simp
  | cons key rest ih =>
    rw [List.mem_cons, not_or] at absent
    have other : (key != k) = true := by simpa using fun same => absent.1 same.symm
    rw [List.cons_append, scan_cons]
    split_ifs with full busy
    · exact List.nil_sublist _
    · exact (ih absent.2 idle due).cons _
    · dsimp only
      rw [List.takeWhile_cons_of_pos (p := fun key => key != k) other]
      refine (ih absent.2 ?_ ?_).cons_cons _
      · simp [isActive, Dispatcher.spawn, Ne.symm absent.1] at idle ⊢
        exact idle
      · rw [isDelayed, Dispatcher.spawn, OrdMap.get?_insert_of_ne _ _ absent.1]
        exact due

/-! ## One round -/

theorem sorted_candidates (s : Store) : (candidates s).Pairwise (· ≤ ·) := List.pairwise_insertionSort _ _

theorem round_started (tracks : d.Tracks) : (d.round cap r).1.Tracks ∧
    (d.round cap r).1.tasks.map (·.key) = d.tasks.map (·.key) ++ (d.round cap r).2 ∧
    (d.round cap r).1.cursor = (d.round cap r).2.getLastD d.cursor := by
  have kept : (d.retain (candidates r.store)).Tracks := tracks.congr rfl rfl rfl
  obtain ⟨still, cursor, -, tasks⟩ : (scan cap r _ _).1.Tracks ∧ _ ∧ _ ∧ _ :=
    scan_started kept (order d.cursor (candidates r.store))
  exact ⟨still.congr rfl rfl rfl, tasks, congrArg (List.getLastD (d.round cap r).2) cursor⟩

/-- While a key waits, a round starts others before it, each in turn. -/
theorem round_turns (tracks : d.Tracks) (listed : k ∈ candidates r.store) (idle : d.isActive k = false)
    (due : d.isDelayed r.now k = false) :
    ((d.round cap r).2.takeWhile (fun key => key != k)).Pairwise (Before d.cursor) ∧
      ∀ key ∈ (d.round cap r).2.takeWhile (fun key => key != k), Before d.cursor key k := by
  have kept : (d.retain (candidates r.store)).Tracks := tracks.congr rfl rfl rfl
  have still : (d.retain (candidates r.store)).isDelayed r.now k = false := by
    rw [isDelayed, retain, OrdMap.get?_restrict, if_pos (List.contains_iff_mem.mpr listed)]
    exact due
  obtain ⟨before, after, split, absent⟩ :=
    List.eq_append_cons_of_mem (mem_order.mpr listed : k ∈ order d.cursor (candidates r.store))
  have reached : ((scan cap r (d.retain (candidates r.store)) (before ++ k :: after)).2.takeWhile
      (fun key => key != k)).Sublist before := scan_reaches absent idle still
  rw [← split] at reached
  exact pairwise_before (sorted_candidates r.store) split absent
    ((nodup_started kept _).sublist (List.takeWhile_sublist _)) reached

/-! ## Every run -/

theorem Tracks.finish (tracks : d.Tracks) (id : ℕ) : (d.finish id).Tracks := by
  have same : ∀ {β : Type} (part : Attempt → β), (∀ t : Attempt, part { t with finished := true } = part t) →
      (d.finish id).tasks.map part = d.tasks.map part := by
    intro β part blind
    rw [Dispatcher.finish, List.map_map]
    refine List.map_congr_left (fun t _ => ?_)
    dsimp only [Function.comp]
    split_ifs
    · exact blind t
    · rfl
  refine ⟨tracks.held.trans (same _ (fun _ => rfl)).symm, fun t member => ?_, ?_, ?_⟩
  · obtain ⟨old, there, rfl⟩ := List.mem_map.mp member
    have below := tracks.fresh old there
    split_ifs <;> exact below
  · rw [same _ (fun _ => rfl)]
    exact tracks.ids
  · rw [same _ (fun _ => rfl)]
    exact tracks.keys

theorem Tracks.join (tracks : d.Tracks) (id : ℕ) : (d.join id).Tracks := by
  rw [Dispatcher.join]
  split_ifs
  · refine ⟨?_, fun t member => tracks.fresh t (List.mem_filter.mp member).1,
      tracks.ids.sublist (List.filter_sublist.map _), tracks.keys.sublist (List.filter_sublist.map _)⟩
    dsimp only
    rw [tracks.held, List.filter_map]
    rfl
  · exact tracks

theorem Tracks.step (tracks : d.Tracks) (e : Event) : (d.step cap e).1.Tracks := by
  cases e with
  | round r => exact (round_started tracks).1
  | finish id => exact tracks.finish id
  | join id => exact tracks.join id

theorem Tracks.run (tracks : d.Tracks) (events : List Event) : (d.run cap events).1.Tracks := by
  induction events generalizing d with
  | nil => exact tracks
  | cons e rest ih => exact ih (tracks.step e)

/-- A key is a candidate, not active and due in every round, until one starts it. -/
def Awaits (cap : ℕ) (k : String) (d : Dispatcher) : List Event → Prop
  | [] => True
  | .round r :: rest => (k ∈ candidates r.store ∧ d.isActive k = false ∧ d.isDelayed r.now k = false) ∧
      (k ∉ (d.round cap r).2 → Awaits cap k (d.round cap r).1 rest)
  | .finish id :: rest => Awaits cap k (d.finish id) rest
  | .join id :: rest => Awaits cap k (d.join id) rest

/-- What is started before a key that waits comes in turn, and before the key's own. -/
theorem run_turns (tracks : d.Tracks) (events : List Event) (awaits : Awaits cap k d events) :
    ((d.run cap events).2.takeWhile (fun key => key != k)).Pairwise (Before d.cursor) ∧
      ∀ key ∈ (d.run cap events).2.takeWhile (fun key => key != k), Before d.cursor key k := by
  induction events generalizing d with
  | nil => exact ⟨List.Pairwise.nil, nofun⟩
  | cons e rest ih =>
    cases e with
    | finish id => exact ih (tracks.finish id) awaits
    | join id =>
      have moved : (d.join id).cursor = d.cursor := by
        rw [Dispatcher.join]
        split_ifs <;> rfl
      have later := ih (tracks.join id) awaits
      rw [moved] at later
      exact later
    | round r =>
      obtain ⟨⟨listed, idle, due⟩, awaits⟩ := awaits
      obtain ⟨still, -, cursor⟩ : (d.round cap r).1.Tracks ∧ _ ∧ _ := round_started tracks
      have first : ((d.round cap r).2.takeWhile (fun key => key != k)).Pairwise (Before d.cursor) ∧ _ :=
        round_turns tracks listed idle due
      have whole : (d.run cap (.round r :: rest)).2 = (d.round cap r).2 ++ ((d.round cap r).1.run cap rest).2 := rfl
      rw [whole]
      by_cases started : k ∈ (d.round cap r).2
      · obtain ⟨before, after, split, absent⟩ := List.eq_append_cons_of_mem started
        have others : ∀ key ∈ before, (key != k) = true := fun key member => by
          simpa using fun same : key = k => absent (same ▸ member)
        have cut : ∀ tail, (before ++ k :: tail).takeWhile (fun key => key != k) = before := fun tail => by
          rw [List.takeWhile_append_of_pos others, List.takeWhile_cons_of_neg (by simp), List.append_nil]
        rw [split, cut] at first
        rw [split, List.append_assoc, List.cons_append, cut]
        exact first
      · have others : ∀ key ∈ (d.round cap r).2, (key != k) = true := fun key member => by
          simpa using fun same : key = k => started (same ▸ member)
        have all : (d.round cap r).2.takeWhile (fun key => key != k) = (d.round cap r).2 := by
          exact List.takeWhile_eq_self_iff.mpr others
        rw [all] at first
        rw [List.takeWhile_append_of_pos others]
        have later := ih still (awaits started)
        rw [cursor] at later
        cases none : (d.round cap r).2.getLast? with
        | none =>
          rw [List.getLast?_eq_none_iff.mp none] at later ⊢
          exact later
        | some last =>
          rw [List.getLastD_eq_getLast?, none] at later
          exact pairwise_append first.1 first.2 none later.1 later.2

/-- In every run of rounds under any cap, whatever the stores, delays and completions: a key that a round starts belongs
to no task that is still there, and each key has one task at most. And while a key is a candidate, inactive and due in
every round, no other key is started twice before it. -/
theorem fair (cap : ℕ) (events : List Event) :
    (∀ r : Round, ∀ key ∈ ((initial.run cap events).1.round cap r).2,
      ∀ t ∈ (initial.run cap events).1.tasks, t.key ≠ key) ∧
    ((initial.run cap events).1.tasks.map (·.key)).Nodup ∧
    ∀ k rest, Awaits cap k (initial.run cap events).1 rest →
      (((initial.run cap events).1.run cap rest).2.takeWhile (fun key => key != k)).Nodup := by
  have tracks : (initial.run cap events).1.Tracks := tracks_initial.run events
  refine ⟨fun r key started t member same => ?_, tracks.keys, fun k rest awaits => ?_⟩
  · obtain ⟨still, tasks, -⟩ : ((initial.run cap events).1.round cap r).1.Tracks ∧ _ ∧ _ := round_started tracks
    have distinct := still.keys
    rw [tasks, List.nodup_append] at distinct
    exact distinct.2.2 t.key (List.mem_map_of_mem member) key started same
  · refine (run_turns tracks rest awaits).1.imp (fun {x y} before same => ?_)
    rw [same] at before
    exact Before.irrefl _ _ before

/-! ## Two peers and one slot -/

def twoPeers : Store := { Store.blank "carol" [] with peers := [⟨⟨"alice"⟩, [], none⟩, ⟨⟨"bob"⟩, [], none⟩] }

/-- Alice's history is asked for, and once that is done Bob's. -/
def alternating : List Event := [.round ⟨twoPeers, 0, 1⟩, .finish 0, .join 0, .round ⟨twoPeers, 5, 1⟩]

set_option maxRecDepth 4000 in
/-- Bob waits from the start, and Alice has had one turn before his although she is due again. -/
theorem bob_in_turn : (initial.run 1 alternating).2 = ["history:alice", "history:bob"] ∧
    ((initial.run 1 alternating).2.takeWhile (fun key => key != "history:bob")).Nodup :=
  ⟨by decide, (fair 1 []).2.2 "history:bob" alternating
    ⟨⟨by decide, by decide, by decide⟩, fun _ => ⟨⟨by decide, by decide, by decide⟩, fun _ => trivial⟩⟩⟩

end Clix.Dispatcher
