import Clix.Proofs.Eviction
import Clix.Proofs.Touches
import Clix.Soundness.Capacity

/-! # Eviction is exact

Pruning drops the output of all but the last changed invocations, and the budget that of the shortest oldest prefix that
makes the rest fit. Either way each invocation counts once, whichever copies of its output are held, and nothing but what
was chosen is touched.
-/

namespace Clix

open Except Storage DurableCell

/-- Every ID is bound to the digest of an invocation that carries it. -/
def Store.Digested (c : Crypto) (s : Store) : Prop :=
  ∀ id key, s.jobCertificates.get? id = some key →
    ∃ i : Invocation, i.id = id ∧ c.hash (History.bytes "invocation" i) = key

/-- No two invocations that are bound have one digest. -/
def Store.DigestsApart (c : Crypto) (s : Store) : Prop :=
  ∀ i j : Invocation, s.jobCertificates.get? i.id = some (c.hash (History.bytes "invocation" i)) →
    s.jobCertificates.get? j.id = some (c.hash (History.bytes "invocation" j)) →
    c.hash (History.bytes "invocation" i) = c.hash (History.bytes "invocation" j) → i.id = j.id

namespace Store.Digested

variable {c : Crypto} {Allowed : Store → Event → Prop} {s t : Store}

theorem of_eq (digested : s.Digested c) (same : t.jobCertificates = s.jobCertificates) : t.Digested c := by
  intro id key bound
  rw [same] at bound
  exact digested id key bound

/-- Binding an ID to the digest of its own invocation. -/
theorem bind (digested : s.Digested c) {cert : Certificate}
    (same : t.jobCertificates = s.jobCertificates.insert cert.invocation.id (History.invocationHash c cert)) :
    t.Digested c := by
  intro id key bound
  rw [same, OrdMap.get?_insert] at bound
  split_ifs at bound with equal
  · exact ⟨cert.invocation, equal.symm, Option.some.inj bound⟩
  · exact digested id key bound

theorem touch (digested : s.Digested c) (touch : s.Touch c Allowed t) : t.Digested c := by
  cases touch with
  | thin thinned => exact digested.of_eq thinned.bindings
  | befriend work name seed known => exact digested.of_eq work.jobCertificates
  | rename work seed alone named unrecorded => exact digested.of_eq work.jobCertificates
  | label unlabelled unbound =>
    refine digested.of_eq ?_
    rw [History.markLegacy]
    split_ifs <;> rfl
  | certify old job key present unbound own ran =>
    obtain ⟨legacy, cert, -, made, rfl, -, rfl⟩ := History.bindOwned_eq_ok unbound ran
    refine @bind c s _ digested cert ?_
    rw [(History.certificate_eq_ok made).1]
  | admitted peer cert permitted valid modern ran =>
    obtain ⟨-, u, added, same⟩ := History.bindAdmission_eq_ok ran
    have kept : u.jobCertificates = s.jobCertificates := by
      rcases History.ensureEntry_eq_ok added with ⟨-, rfl⟩ | ⟨-, -, rfl⟩ <;> rfl
    refine @bind c s t digested cert ?_
    rw [← kept, same]
  | sign key entry job role found bound matched own owned ran =>
    obtain ⟨stdout, stderr, -, ⟨-, rfl⟩ | ⟨-, revision, signed, -, -, -, -, -, signedEntry, -, rfl⟩⟩ :=
      History.publishFact_eq_ok ran
    · exact digested
    · exact digested.of_eq rfl
  | ingest published changed ran => exact digested.of_eq (History.ingest_bindings ran).1

theorem complete (digested : s.Digested c) (completes : s.Completes t) : t.Digested c := by
  cases completes <;> exact digested

end Store.Digested

theorem sustained_digested (c : Crypto) (Allowed : Store → Event → Prop) :
    Sustained c Allowed (fun s => s.Begun ∧ s.Digested c) :=
  Sustained.of_touch (fun _ _ touch digested => digested.touch touch)
    (fun _ _ completes digested => digested.complete completes)

/-- Invocations of different digests have IDs of their own. -/
theorem Store.Digested.bindings {c : Crypto} {s : Store} (digested : s.Digested c) (apart : s.DigestsApart c)
    {id id' key : String} (bound : s.jobCertificates.get? id = some key)
    (also : s.jobCertificates.get? id' = some key) : id = id' := by
  obtain ⟨i, rfl, first⟩ := digested id key bound
  obtain ⟨j, rfl, second⟩ := digested id' key also
  refine apart i j ?_ ?_ (first.trans second.symm)
  · rw [bound, first]
  · rw [also, second]

namespace Daemon

/-- Of everything a machine holds or may find on disk, output can be evicted. -/
theorem everywhere_evictable (c : Crypto) (file : Store) (initial : file.Initial) (events : List (Env × Event)) :
    Everywhere (fun image => image.store.DigestsApart c → image.store.Stamped → image.store.Evictable)
      ((installed file).run c events).cell := by
  have start : Everywhere (Image.Being (fun s => s.Begun ∧ s.Digested c)) (installed file).cell := by
    refine everywhere_installed ⟨initial.begun, fun id key bound => ?_⟩
    rw [initial.unbound] at bound
    cases bound
  have digested := everywhere_run (sustained_digested c (fun _ _ => True)) initial.inv (ready_installed file) events
    (permitsAll_true _ events) start
  have inv : Inv c ((installed file).run c events) := inv_run initial.inv events
  have fit (image : Image) (first : Image.Being (fun s => s.Begun ∧ s.Digested c) image)
      (second : Image.Has (fun desk _ => desk.Unique) image) (apart : image.store.DigestsApart c)
      (stamped : image.store.Stamped) : image.store.Evictable := by
    refine ⟨?_, fun id id' key bound also => first.2.bindings apart bound also, stamped⟩
    change ((image.store.jobs.map Job.row).map (·.id)).Nodup at second
    rw [List.map_map] at second
    exact second
  exact ⟨fit _ digested.1 inv.unique.1, fit _ digested.2.1 inv.unique.2.1,
    fun old here => fit _ (digested.2.2 old here) (inv.unique.2.2 old here)⟩

end Daemon

namespace Storage

variable {s : Store}

/-- What is left after dropping the output of some invocations offers the rest. -/
theorem length_candidates_dropAll (fit : s.Evictable) {gone kept : List String}
    (room : s.history.clock.toNat + gone.length < 2 ^ 64) (nodup : (gone ++ kept).Nodup)
    (retained : ∀ key, key ∈ gone ++ kept ↔ s.Retains key) :
    (candidates (s.dropAll gone)).length ≤ kept.length := by
  obtain ⟨keys, distinct, members, -, same⟩ := exists_order (fit.dropAll room).stamped
  have perm : keys.Perm kept := by
    refine (List.perm_ext_iff_of_nodup distinct (List.Nodup.of_append_right nodup)).mpr (fun key => ?_)
    have apart : key ∈ kept → key ∉ gone := fun there here =>
      (List.disjoint_of_nodup_append nodup) here there
    rw [members, ← candidate?_isSome_iff, candidate?_dropAll]
    have whole := retained key
    rw [← candidate?_isSome_iff, List.mem_append] at whole
    split_ifs with gone'
    · exact ⟨fun none => absurd none Bool.false_ne_true, fun there => absurd gone' (apart there)⟩
    · rw [← whole]
      exact or_iff_right gone'
  rw [same, ← perm.length_eq]
  exact List.length_filterMap_le _ _

theorem prune_none {keep : ℕ} (few : (candidates s).length ≤ keep) : prune s keep = .ok (s, 0) := by
  refine prune_eq_ok_iff.mpr ⟨?_, (Nat.sub_self _).symm⟩
  rw [Nat.sub_eq_zero_of_le few]
  rfl

/-- The budget evicts the shortest oldest prefix that makes the rest fit, or fails when all is not enough. -/
theorem prepare_exact (fit : s.Evictable) {order : List String} (nodup : order.Nodup)
    (retained : ∀ key, key ∈ order ↔ s.Retains key) (listed : candidates s = order.filterMap (candidate? s))
    (room : s.history.clock.toNat + order.length < 2 ^ 64) {old : Store} (counted : countLimits s old = .ok ()) :
    (∃ gone kept, order = gone ++ kept ∧ prepare s old = .ok (s.dropAll gone) ∧
      outputBytes (s.dropAll gone) ≤ outputBudget ∧
      ∀ shorter more, gone = shorter ++ more → more ≠ [] → outputBudget < outputBytes (s.dropAll shorter)) ∨
    (prepare s old = .error (.capacity "retained output budget is full; active or unverified data was preserved") ∧
      outputBudget < outputBytes (s.dropAll order)) := by
  obtain ⟨gone, kept, split, evicted, enough, least⟩ := evict_keys fit nodup
    (fun key member => candidate?_isSome_iff.mpr ((retained key).mp member)) room
  rw [← listed] at evicted
  unfold prepare
  rw [counted, ok_bind, evicted, ok_bind]
  by_cases fits : outputBytes (s.dropAll gone) ≤ outputBudget
  · refine .inl ⟨gone, kept, split, ?_, fits, least⟩
    rw [refuseIf_neg (not_lt.mpr fits), ok_bind]
    rfl
  · have all : kept = [] := by
      by_contra some
      exact fits (enough some)
    rw [all, List.append_nil] at split
    subst split
    refine .inr ⟨?_, not_le.mp fits⟩
    rw [refuseIf, if_pos (not_le.mp fits)]
    rfl

/-- The owner's pruning drops all but the last invocations, counts what is gone, and leaves nothing to prune again. -/
theorem prune_exact (fit : s.Evictable) {order : List String} (nodup : order.Nodup)
    (retained : ∀ key, key ∈ order ↔ s.Retains key) (listed : candidates s = order.filterMap (candidate? s))
    (room : s.history.clock.toNat + order.length < 2 ^ 64) (keep : ℕ) :
    ∃ removed, prune s keep = .ok (s.dropAll (order.take (order.length - keep)), removed) ∧
      outputBytes (s.dropAll (order.take (order.length - keep))) + removed = outputBytes s ∧
      prune (s.dropAll (order.take (order.length - keep))) keep =
        .ok (s.dropAll (order.take (order.length - keep)), 0) := by
  have offered : ∀ key ∈ order, (candidate? s key).isSome = true :=
    fun key member => candidate?_isSome_iff.mpr ((retained key).mp member)
  have taken : (candidates s).take ((candidates s).length - keep) =
      (order.take (order.length - keep)).filterMap (candidate? s) := by
    rw [listed, List.length_filterMap_of_isSome offered, List.take_filterMap_of_isSome offered]
  have short : s.history.clock.toNat + (order.take (order.length - keep)).length < 2 ^ 64 := by
    rw [List.length_take]
    omega
  have dropped : prune s keep = .ok (s.dropAll (order.take (order.length - keep)),
      outputBytes s - outputBytes (s.dropAll (order.take (order.length - keep)))) := by
    refine prune_eq_ok_iff.mpr ⟨?_, rfl⟩
    rw [taken]
    exact removeAll_keys fit (nodup.sublist (List.take_sublist _ _))
      (fun key member => offered key (List.mem_of_mem_take member)) short
  refine ⟨_, dropped, ?_, prune_none ?_⟩
  · have less := outputBytes_dropAll_le s (order.take (order.length - keep))
    omega
  · refine (@length_candidates_dropAll s fit _ (order.drop (order.length - keep)) short ?_ ?_).trans ?_
    · rw [List.take_append_drop]
      exact nodup
    · rw [List.take_append_drop]
      exact retained
    · rw [List.length_drop]
      omega

end Storage

namespace Daemon

/-- Whatever state a machine holds or may find on disk can be evicted from, when no two bound invocations have one digest
and entries were stamped apart. Of such a state, pruning drops exactly all but the last changed finished invocations
that retain output, and the budget exactly the shortest oldest prefix of them that makes the rest fit. Nothing but the
dropped output, its entries' stamps, the clock and the receipts changes, and the state can be evicted from again. -/
theorem eviction_exact (c : Crypto) (file : Store) (initial : file.Initial) (events : List (Env × Event)) :
    Everywhere (fun image => image.store.DigestsApart c → image.store.Stamped → image.store.Evictable)
      ((installed file).run c events).cell ∧
    ∀ s : Store, s.Evictable → ∃ order : List String,
      (order.Nodup ∧ (∀ key, key ∈ order ↔ s.Retains key) ∧ order.Pairwise (fun a b => s.stamp a < s.stamp b)) ∧
      (s.history.clock.toNat + order.length < 2 ^ 64 →
        (∀ keep, ∃ removed, prune s keep = .ok (s.dropAll (order.take (order.length - keep)), removed) ∧
          outputBytes (s.dropAll (order.take (order.length - keep))) + removed = outputBytes s ∧
          prune (s.dropAll (order.take (order.length - keep))) keep =
            .ok (s.dropAll (order.take (order.length - keep)), 0)) ∧
        (∀ old, countLimits s old = .ok () →
          (∃ gone kept, order = gone ++ kept ∧ prepare s old = .ok (s.dropAll gone) ∧
            outputBytes (s.dropAll gone) ≤ outputBudget ∧
            ∀ shorter more, gone = shorter ++ more → more ≠ [] → outputBudget < outputBytes (s.dropAll shorter)) ∨
          (prepare s old = .error (.capacity "retained output budget is full; active or unverified data was preserved") ∧
            outputBudget < outputBytes (s.dropAll order))) ∧
        ∀ gone kept, order = gone ++ kept → s.Spares gone (s.dropAll gone) ∧ (s.dropAll gone).Evictable) := by
  refine ⟨everywhere_evictable c file initial events, fun s fit => ?_⟩
  obtain ⟨order, nodup, retained, sorted, listed⟩ := exists_order fit.stamped
  refine ⟨order, ⟨nodup, retained, sorted⟩, fun room => ⟨prune_exact fit nodup retained listed room,
    fun old counted => prepare_exact fit nodup retained listed room counted, fun gone kept split => ?_⟩⟩
  subst split
  rw [List.length_append] at room
  have short : s.history.clock.toNat + gone.length < 2 ^ 64 := by omega
  exact ⟨Store.spares_dropAll (List.Nodup.of_append_left nodup) short, fit.dropAll short⟩

end Daemon

/-! ## Two finished jobs -/

namespace PruneExample

/-- A later job, with two bytes of output. -/
def late : Job := { job with id := "late", stdout := [120, 121] }

def lateOutcome : SignedFact := ⟨⟨"after", .runner, 1, .done 0, ⟨2, ""⟩, ⟨0, ""⟩⟩, []⟩

def lateEntry : Entry := ⟨⟨⟨{ invocation with id := "late" }, []⟩, none, some lateOutcome⟩, 2, none⟩

/-- The later job beside the earlier one. -/
def shelf : Store := { holding none with
  jobs := [late, job]
  jobCertificates := (holding none).jobCertificates.insert "late" "after"
  history := { (holding none).history with
    clock := 2
    entries := (holding none).history.entries.insert "after" lateEntry } }

theorem entry_of_shelf {key : String} {e : Entry} (found : shelf.history.entries.get? key = some e) :
    (key = "after" ∧ e = lateEntry) ∨ (key = "key" ∧ e = entry) := by
  have member := OrdMap.get?_eq_some_iff.mp found
  change (key, e) ∈ [("after", lateEntry), ("key", entry)] at member
  simpa only [List.mem_cons, List.not_mem_nil, or_false, Prod.mk.injEq] using member

theorem shelf_evictable : shelf.Evictable where
  ids := by decide
  bindings id id' key bound also := by
    have only {id key : String} (bound : shelf.jobCertificates.get? id = some key) :
        (id = "job" ∧ key = "key") ∨ (id = "late" ∧ key = "after") := by
      have member := OrdMap.get?_eq_some_iff.mp bound
      change (id, key) ∈ [("job", "key"), ("late", "after")] at member
      simpa only [List.mem_cons, List.not_mem_nil, or_false, Prod.mk.injEq] using member
    rcases only bound with ⟨rfl, rfl⟩ | ⟨rfl, rfl⟩ <;> rcases only also with ⟨rfl, same⟩ | ⟨rfl, same⟩
    · rfl
    · exact absurd same (by decide)
    · exact absurd same (by decide)
    · rfl
  stamped := {
    apart := by
      intro key key' e e' found found' same
      rcases entry_of_shelf found with ⟨rfl, rfl⟩ | ⟨rfl, rfl⟩ <;>
        rcases entry_of_shelf found' with ⟨rfl, rfl⟩ | ⟨rfl, rfl⟩
      · rfl
      · cases same
      · cases same
      · rfl
    clock := by
      intro key e found
      rcases entry_of_shelf found with ⟨-, rfl⟩ | ⟨-, rfl⟩ <;> decide }

def installed : Store := Store.blank "alice" []

theorem installed_initial : installed.Initial where
  named := by decide
  unique := List.nodup_nil
  unbound := rfl
  unlabelled := rfl
  unrecorded := rfl

theorem shelf_retains (key : String) : shelf.Retains key ↔ key ∈ ["key", "after"] := by
  constructor
  · rintro ⟨e, found, -⟩
    rcases entry_of_shelf found with ⟨rfl, -⟩ | ⟨rfl, -⟩ <;> decide
  · simp only [List.mem_cons, List.not_mem_nil, or_false]
    rintro (rfl | rfl)
    · exact ⟨entry, rfl, rfl, .inl ⟨job, by decide, by decide⟩⟩
    · exact ⟨lateEntry, rfl, rfl, .inl ⟨late, by decide, by decide⟩⟩

/-- The order in which the output is dropped is the only one that the stamps allow. -/
theorem order_of_shelf {order : List String} (nodup : order.Nodup) (retained : ∀ key, key ∈ order ↔ shelf.Retains key)
    (sorted : order.Pairwise (fun a b => shelf.stamp a < shelf.stamp b)) : order = ["key", "after"] := by
  have same : order.Perm ["key", "after"] := (List.perm_ext_iff_of_nodup nodup (by decide)).mpr
    (fun key => by rw [retained, shelf_retains])
  refine same.eq_of_pairwise (fun a b _ _ first second => absurd (UInt64.lt_trans first second) (UInt64.lt_irrefl _))
    sorted ?_
  simp only [List.pairwise_cons, List.mem_singleton, forall_eq, List.not_mem_nil, false_imp_iff, implies_true,
    List.Pairwise.nil, and_true]
  decide

/-- Nothing can be evicted wrongly before anything ran, and of two finished jobs the earlier one's output is dropped to
keep one, once. -/
theorem dropped_once :
    DurableCell.Everywhere (fun image => image.store.DigestsApart Crypto.transparent → image.store.Stamped →
      image.store.Evictable) ((Daemon.installed installed).run Crypto.transparent []).cell ∧
    ∃ removed, prune shelf 1 = .ok (shelf.dropAll ["key"], removed) ∧
      outputBytes (shelf.dropAll ["key"]) + removed = outputBytes shelf ∧
      prune (shelf.dropAll ["key"]) 1 = .ok (shelf.dropAll ["key"], 0) := by
  obtain ⟨everywhere, exact'⟩ := Daemon.eviction_exact Crypto.transparent installed installed_initial []
  refine ⟨everywhere, ?_⟩
  obtain ⟨order, ⟨nodup, retained, sorted⟩, evicts⟩ := exact' shelf shelf_evictable
  obtain rfl := order_of_shelf nodup retained sorted
  exact (evicts (by decide)).1 1

end PruneExample

end Clix
