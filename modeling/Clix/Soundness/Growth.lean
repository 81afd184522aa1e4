import Clix.Proofs.Facts
import Clix.Soundness.Eviction
import Clix.Soundness.Replies

/-! # How the recorded history grows

Between any two points of a run the history of a machine keeps its epoch and its entries. An entry that a reader of the
earlier point could have missed is stamped beyond its clock, receipts for removed payloads stay, and the facts of every
record are only replaced by newer ones. No crash takes any of it back.
-/

namespace Clix

open Except DurableCell Versioned

theorem Store.Initial.refreshTrust {s : Store} (c : Crypto) (initial : s.Initial) :
    (History.refreshTrust c s).Initial := by
  have same : s.SamePublished (History.refreshTrust c s) := History.refreshTrust_samePublished c s
  have rest : (History.refreshTrust c s).jobCertificates = s.jobCertificates ∧
      (History.refreshTrust c s).legacyJobs = s.legacyJobs ∧
      (History.refreshTrust c s).history.entries = s.history.entries := by
    rw [History.refreshTrust]
    split_ifs <;> exact ⟨rfl, rfl, rfl⟩
  refine ⟨?_, ?_, rest.1.trans initial.unbound, rest.2.1.trans initial.unlabelled,
    rest.2.2.trans initial.unrecorded⟩
  · rw [same.bodyName]
    exact initial.named
  · rw [same.desk]
    exact initial.unique

theorem Store.initial_first (c : Crypto) (epoch hostname : String) (seed : Bytes) :
    (Store.first c epoch hostname seed).Initial := by
  have blank : { Store.blank hostname seed with
      history := { (Store.blank hostname seed).history with epoch := epoch } }.Initial :=
    ⟨Pair.isName_sanitizeName hostname, List.nodup_nil, rfl, rfl, rfl⟩
  have trusted := blank.refreshTrust c
  exact ⟨trusted.named, trusted.unique, trusted.unbound, trusted.unlabelled, trusted.unrecorded⟩

/-- Peers and grants are no part of what was recorded. -/
theorem Store.Initial.befriend {s : Store} (initial : s.Initial) (peers : List Peer) (grants : List Grant) :
    { s with peers := peers, grants := grants }.Initial :=
  ⟨initial.named, initial.unique, initial.unbound, initial.unlabelled, initial.unrecorded⟩

/-- What a later content of the machine has over an earlier state of it. -/
structure Store.Restamps (s t : Store) : Prop where
  epoch : s.history.epoch ≠ "" → t.history.epoch = s.history.epoch
  clock : s.history.clock ≤ t.history.clock
  present : ∀ key, s.history.entries.get? key ≠ none → t.history.entries.get? key ≠ none
  entries : ∀ key e', t.history.entries.get? key = some e' →
    (∃ e, s.history.entries.get? key = some e ∧ e'.change = e.change ∧ e'.record = e.record) ∨
      s.history.clock < e'.change
  histories : ∀ key, s.historyPruned.contains key = true → t.historyPruned.contains key = true
  outputs : ∀ id, s.outputPruned.contains id = true → t.outputPruned.contains id = true

namespace Store

variable {s t : Store}

theorem log_eq_none {key : String} : s.log.entry? key = none ↔ s.history.entries.get? key = none :=
  Option.map_eq_none_iff

theorem Later.restamps (later : s.Later (fun _ => True) t) : s.Restamps t where
  epoch := later.epoch
  clock := UInt64.le_iff_toNat_le.mpr later.log.clock
  present key there := mt log_eq_none.mpr (later.log.present key (mt log_eq_none.mp there))
  entries key e' found := by
    rcases later.log.entry key (e'.change.toNat, e'.record) (log_eq_some.mpr ⟨e', found, rfl⟩) with kept | ⟨late, -⟩
    · obtain ⟨e, there, same⟩ := log_eq_some.mp kept
      rw [Prod.mk.injEq] at same
      exact .inl ⟨e, there, (UInt64.toNat_inj.mp same.1).symm, same.2.symm⟩
    · exact .inr (UInt64.lt_iff_toNat_lt.mpr late)
  histories := later.histories
  outputs := later.outputs

theorem stamped_of_log (stamped : s.log.Stamped) : s.Stamped where
  apart key key' e e' found found' same :=
    stamped.apart key key' (e.change.toNat, e.record) (e'.change.toNat, e'.record) (log_eq_some.mpr ⟨e, found, rfl⟩)
      (log_eq_some.mpr ⟨e', found', rfl⟩) (congrArg UInt64.toNat same)
  clock key e found :=
    UInt64.le_iff_toNat_le.mpr (stamped.clock key (e.change.toNat, e.record) (log_eq_some.mpr ⟨e, found, rfl⟩))

/-- A key that was bound stays the key of one job, so no other is certified under it. -/
theorem not_certified {c : Crypto} (succeeds : s.FactsSucceed c t) (digested : t.Digested c) (apart : t.DigestsApart c)
    {id key : String} (bound : s.jobCertificates.get? id = some key) : ¬s.Certified c t key := by
  rintro ⟨other, free, since⟩
  obtain rfl : id = other := digested.bindings apart (succeeds.bindings id key bound) since.bound
  rw [bound] at free
  cases free

end Store

namespace Daemon

variable {c : Crypto} {file : Store}

theorem held_run (initial : file.Initial) (events : List (Env × Event)) :
    Forward.Held c (Store.Onward c) ((installed file).run c events) ∧
      Everywhere (Image.Being (file.Onward c)) ((installed file).run c events).cell :=
  (forward_onward c (fun _ _ => True)).run ((forward_onward c (fun _ _ => True)).held_installed initial.inv initial.begun)
    (permitsAll_true _ events)

theorem everywhere_digested (initial : file.Initial) (events : List (Env × Event)) :
    Everywhere (Image.Being (fun s => s.Begun ∧ s.Digested c)) ((installed file).run c events).cell := by
  refine everywhere_run (sustained_digested c (fun _ _ => True)) initial.inv (ready_installed file) events
    (permitsAll_true _ events) (everywhere_installed ⟨initial.begun, fun id key bound => ?_⟩)
  rw [initial.unbound] at bound
  cases bound

/-- In every content of the machine the entries were stamped apart and within the clock. And from any point of the run
on, every content has the epoch, the entries and the receipts of memory at that point, and each entry that differs in
its record or is new is stamped beyond the clock of that point. -/
theorem history_restamped (c : Crypto) (file : Store) (initial : file.Initial) (before after : List (Env × Event)) :
    Everywhere (fun image => image.store.Stamped ∧ ((installed file).run c before).store.Restamps image.store)
      ((installed file).run c (before ++ after)).cell := by
  have all := (held_run (c := c) initial (before ++ after)).2
  obtain ⟨held, -⟩ := held_run (c := c) initial before
  obtain ⟨-, since⟩ := (forward_onward c (fun _ _ => True)).run held (permitsAll_true _ after)
  have first (image : Image) (onward : file.Onward c image.store) : image.store.Stamped :=
    Store.stamped_of_log (onward.log.stamped_of_empty (fun key => by
      rw [Store.log_eq_none, initial.unrecorded, OrdMap.get?_empty]))
  rw [run_append] at all ⊢
  exact (all.and since).mono (fun image there => ⟨first image there.1, there.2.toLater.restamps⟩)

/-- From any point of a run on, bindings stay, and every record of memory at that point stays with its certificate and
with newer facts only, none in the place of a final one, unless this machine certified a job of its own, with its own
key, under that key since. It never did under a key that was already bound, when no two bound invocations have one digest. -/
theorem facts_succeed (c : Crypto) (file : Store) (initial : file.Initial) (before after : List (Env × Event)) :
    Everywhere (fun image => ((installed file).run c before).store.FactsSucceed c image.store ∧
      (image.store.DigestsApart c → ∀ id key e, ((installed file).run c before).store.jobCertificates.get? id = some key →
        ((installed file).run c before).store.history.entries.get? key = some e →
        ∃ e', image.store.history.entries.get? key = some e' ∧ e.record.Each Succeeds e'.record))
      ((installed file).run c (before ++ after)).cell := by
  have digested := everywhere_digested (c := c) initial (before ++ after)
  obtain ⟨held, -⟩ := held_run (c := c) initial before
  obtain ⟨-, since⟩ := (forward_onward c (fun _ _ => True)).run held (permitsAll_true _ after)
  rw [run_append] at digested ⊢
  refine (digested.and since).mono (fun image there => ⟨there.2.toFactsSucceed, fun apart id key e bound found => ?_⟩)
  have succeeds := there.2.toFactsSucceed
  exact (succeeds.records key e found).resolve_right (Store.not_certified succeeds there.1.2 apart bound)

/-- Between two points of a run, the slots of a key that was bound at the first are only given newer facts. -/
theorem succeeds_between (initial : file.Initial) (before middle after : List (Env × Event))
    (apart : ((installed file).run c (before ++ middle ++ after)).store.DigestsApart c) {id key : String}
    (bound : ((installed file).run c before).store.jobCertificates.get? id = some key) (role : Role) :
    Succeeds (((installed file).run c before).store.fact? key role)
      (((installed file).run c (before ++ middle)).store.fact? key role) := by
  have onward (first rest : List (Env × Event)) : ((installed file).run c first).store.FactsSucceed c
      ((installed file).run c (first ++ rest)).store := by
    obtain ⟨held, -⟩ := held_run (c := c) initial first
    obtain ⟨-, since⟩ := (forward_onward c (fun _ _ => True)).run held (permitsAll_true _ rest)
    rw [run_append]
    exact since.1.toFactsSucceed
  have succeeds := onward before middle
  have later := onward (before ++ middle) after
  have digested := (everywhere_digested (c := c) initial (before ++ middle)).1.2
  have apart' : ((installed file).run c (before ++ middle)).store.DigestsApart c := fun i j first second =>
    apart i j (later.bindings _ _ first) (later.bindings _ _ second)
  intro a held
  rw [Store.fact?, Option.bind_eq_some_iff] at held
  obtain ⟨e, found, fact⟩ := held
  obtain ⟨e', found', each⟩ := (succeeds.records key e found).resolve_right
    (Store.not_certified succeeds digested apart' bound)
  rw [Store.fact?, found', Option.bind_some]
  cases role with
  | runner => exact each.runner a fact
  | origin | legacyObserver => exact each.origin a fact

/-- Of all the facts that a machine ever had in a slot of a key it had bound, through failed saves and restarts, no two
have one revision, and none comes after a final one. -/
theorem exposed_coherent (c : Crypto) (file : Store) (initial : file.Initial) (events : List (Env × Event))
    (apart : ((installed file).run c events).store.DigestsApart c) (id key : String) (role : Role) :
    Coherent {signed | ∃ before, before <+: events ∧
      ((installed file).run c before).store.jobCertificates.get? id = some key ∧
      ((installed file).run c before).store.fact? key role = some signed} := by
  let Point : Type := {before : List (Env × Event) // before <+: events ∧
    ((installed file).run c before).store.jobCertificates.get? id = some key}
  have step (p q : Point) (first : p.1 <+: q.1) : Succeeds (((installed file).run c p.1).store.fact? key role)
      (((installed file).run c q.1).store.fact? key role) := by
    obtain ⟨middle, split⟩ := first
    obtain ⟨after, rest⟩ := q.2.1
    rw [← split] at rest ⊢
    exact succeeds_between initial p.1 middle after (by rw [rest]; exact apart) p.2.2 role
  let slot (p : Point) : Option SignedFact := ((installed file).run c p.1).store.fact? key role
  have chain : Coherent {signed | ∃ p, slot p = some signed} := coherent_of_chain
    (fun p q => (List.prefix_or_prefix_of_prefix p.2.1 q.2.1).imp (step p q) (step q p))
  refine chain.mono ?_
  rintro signed ⟨before, reached, bound, held⟩
  exact ⟨⟨before, reached, bound⟩, held⟩

end Daemon

namespace ReplyExample

set_option maxRecDepth 40000

theorem file_initial : file.Initial :=
  (Store.initial_first crypto "bobs" "bob" bobKey).befriend [alice] [grant]

def restarted : List (Env × Event) := [(env, .restart ⟨false, "bob", bobKey, none, none, none⟩)]

/-- The entry of a run that was accepted outlives a restart. -/
theorem bob_restamped : Everywhere (fun image => image.store.Stamped ∧ bob.store.Restamps image.store)
    ((Daemon.installed file).run crypto (started ++ restarted)).cell ∧
    bob.store.history.entries.entries = [(key, entry)] :=
  ⟨Daemon.history_restamped crypto file file_initial started restarted, ready_bob.entries⟩

theorem bob_succeeds : Everywhere (fun image => bob.store.FactsSucceed crypto image.store ∧
    (image.store.DigestsApart crypto → ∀ id key e, bob.store.jobCertificates.get? id = some key →
      bob.store.history.entries.get? key = some e →
      ∃ e', image.store.history.entries.get? key = some e' ∧ e.record.Each Succeeds e'.record))
    ((Daemon.installed file).run crypto (started ++ restarted)).cell ∧
    bob.store.jobCertificates.entries = [("job", key)] ∧ bob.store.history.entries.entries = [(key, entry)] := by
  have succeeds := Daemon.facts_succeed crypto file file_initial started restarted
  rw [← bob] at succeeds
  exact ⟨succeeds, ready_bob.bound, ready_bob.entries⟩

/-- The second fact of the run, once its program has ended. -/
def told : SignedFact :=
  let fact : Fact := ⟨key, .runner, 2, .done 0, OutputRef.of crypto [111], OutputRef.of crypto [111]⟩
  ⟨fact, crypto.sign bobKey (History.bytes "fact" fact)⟩

theorem facts_bob :
    (bob.store.jobCertificates.get? "job" = some key ∧ bob.store.fact? key .runner = some signed) ∧
    (bobAfter [111]).store.jobCertificates.entries = [("job", key)] ∧
      (bobAfter [111]).store.fact? key .runner = some told := by
  decide

/-- The facts of the run that bob accepted, while it went on and when it was over. -/
theorem bob_coherent :
    let facts := {signed | ∃ before, before <+: started ++ ended [111] ∧
      ((Daemon.installed file).run crypto before).store.jobCertificates.get? "job" = some key ∧
      ((Daemon.installed file).run crypto before).store.fact? key .runner = some signed}
    Coherent facts ∧ signed ∈ facts ∧ told ∈ facts := by
  intro facts
  obtain ⟨⟨bound, first⟩, bindings, second⟩ := facts_bob
  have same : (Daemon.installed file).run crypto (started ++ ended [111]) = bobAfter [111] :=
    Daemon.run_append _ _ _
  refine ⟨Daemon.exposed_coherent crypto file file_initial (started ++ ended [111]) ?_ "job" key .runner,
    ⟨started, List.prefix_append _ _, bound, first⟩, ⟨started ++ ended [111], List.prefix_rfl, ?_⟩⟩
  · rw [same]
    intro i j left right _
    have only {id key' : String} (held : (bobAfter [111]).store.jobCertificates.get? id = some key') : id = "job" := by
      have member := OrdMap.get?_eq_some_iff.mp held
      rw [bindings, List.mem_singleton] at member
      exact congrArg Prod.fst member
    rw [only left, only right]
  · rw [same]
    exact ⟨OrdMap.get?_eq_some_iff.mpr (by rw [bindings]; exact List.mem_singleton_self _), second⟩

end ReplyExample

end Clix
