import Clix.Proofs.Identified

/-! # Names and keys

A name and a key identify one machine: this one, or one peer. The two are bound to each other when the peer is
saved, whatever is paired, renamed or repaired afterwards, so the peer that a connection's key belongs to and the key
that a signed record's name stands for are the same machine.
-/

namespace Clix

open Except DurableCell

/-- What every saved state satisfies: names and keys identify, and a machine with peers has a key. -/
def Image.Identified (c : Crypto) (image : Image) : Prop :=
  image.store.Identified c ∧ (image.store.peers ≠ [] → image.store.ownerSk.length = 32)

theorem Image.identified_of_valid {c : Crypto} {image : Image} (valid : Pair.validateStore c image.store = .ok ()) :
    image.Identified c :=
  ⟨Pair.identified_of_valid valid, fun _ => (Pair.validateStore_eq_ok valid).2.1⟩

theorem Image.identified_of_alone {c : Crypto} {image : Image} (alone : image.store.peers = []) :
    image.Identified c := by
  refine ⟨⟨?_, ?_, ?_, ?_⟩, fun peered => absurd alone peered⟩ <;> rw [alone]
  · exact List.nodup_nil
  · exact List.nodup_nil
  · exact fun p member => absurd member List.not_mem_nil
  · exact fun p member => absurd member List.not_mem_nil

theorem Image.Identified.congr {c : Crypto} {image other : Image} (identified : image.Identified c)
    (same : image.store.SameTrust other.store) : other.Identified c := by
  obtain ⟨⟨names, keys, ownName, ownKey⟩, keyed⟩ := identified
  refine ⟨⟨?_, ?_, ?_, ?_⟩, ?_⟩ <;> rw [same.peers]
  · exact names
  · exact keys
  · rw [same.bodyName]
    exact ownName
  · rw [same.ownerSk]
    exact ownKey
  · rw [same.ownerSk]
    exact keyed

namespace Daemon

variable {c : Crypto} {d d' : Daemon} {env : Env}

/-! ### Every content of the file identifies -/

theorem identified_commit (holds : Everywhere (Image.Identified c) d.cell) {saved : Image}
    (new : saved.Identified c) (fault : Option Fault) : Everywhere (Image.Identified c) (d.commit saved fault) := by
  refine holds.replace new (holds.1.congr ?_) _
  cases fault <;> exact ⟨rfl, rfl, rfl⟩

theorem identified_core (core : Core c env d d') (holds : Everywhere (Image.Identified c) d.cell) :
    Everywhere (Image.Identified c) d'.cell := by
  cases core with
  | idle cell | launched _ _ _ cell | exited _ _ _ _ cell | collected _ _ _ _ _ cell
  | refused _ _ _ _ _ cell | released _ _ _ cell => exact cell ▸ holds
  | noted f desk key cell =>
    rw [cell]
    have same : d.store.SameTrust (f d.store) := ⟨congrArg Desk.name desk, key, congrArg Desk.peers desk⟩
    exact holds.tweak (fun kept => kept.congr same)
  | saved deed plain next fault does valid cell =>
    rw [cell]
    have new : Image.Identified c ⟨next, deed.acts ++ d.acts⟩ := Image.identified_of_valid valid
    exact identified_commit holds new fault
  | admitted requester job grant next cert granted does valid cell =>
    rw [cell]
    have new : Image.Identified c ⟨next, [.admitted job.id grant] ++ d.acts⟩ := Image.identified_of_valid valid
    exact identified_commit holds new env.fault
  | finished task found outcome ended next fault does valid cell =>
    rw [cell]
    have new : Image.Identified c ⟨next, d.acts⟩ := Image.identified_of_valid valid
    exact identified_commit holds new fault
  | gaveUp task found e unsaved cell =>
    rw [cell]
    exact holds.tweak (fun kept => kept.congr ⟨rfl, rfl, rfl⟩)

theorem identified_saveOpened (holds : Everywhere (Image.Identified c) d.cell) (needed : Bool) (f : Store → Store)
    (fault : Option Fault) (alone : needed = true → (f d.store).peers = []) :
    Everywhere (Image.Identified c) (d.saveOpened needed f fault).cell := by
  unfold saveOpened
  split_ifs with skipped
  · exact holds
  · rw [not_or, Bool.not_eq_false] at skipped
    have new : Image.Identified c ⟨f d.store, d.acts⟩ := Image.identified_of_alone (alone skipped.1)
    exact holds.replace new holds.1 _

/-- A machine that has no name yet has no peers. -/
theorem identified_named (holds : Everywhere (Image.Identified c) d.cell) (hostname : String) (fault : Option Fault) :
    Everywhere (Image.Identified c) (d.saveOpened (isUnnamed d.store)
      (fun s => { s with bodyName := Pair.sanitizeName hostname }) fault).cell := by
  apply identified_saveOpened holds
  intro unnamed
  simp only [isUnnamed, Bool.and_eq_true, List.isEmpty_iff] at unnamed
  exact unnamed.1.1.2

/-- A machine that has no key yet has no peers. -/
theorem identified_seeded (holds : Everywhere (Image.Identified c) d.cell) (seed : Bytes) (fault : Option Fault) :
    Everywhere (Image.Identified c) (d.saveOpened d.store.ownerSk.isEmpty
      (fun s => { s with ownerSk := seed }) fault).cell := by
  apply identified_saveOpened holds
  intro keyless
  by_contra peered
  have keyed : d.store.ownerSk.length = 32 := holds.1.2 peered
  rw [List.isEmpty_iff.mp keyless] at keyed
  cases keyed

theorem identified_openStore (boot : Boot) (holds : Everywhere (Image.Identified c) d.cell) :
    Everywhere (Image.Identified c) (d.openStore boot).cell := by
  have reopened : Everywhere (Image.Identified c)
      (d.cell.reopen (fun image => { image with store := image.store.reloaded }) boot.reverted) :=
    holds.reopen _ (fun image kept => kept.congr ⟨rfl, rfl, rfl⟩)
  unfold openStore
  dsimp only
  split_ifs
  · exact reopened
  · exact identified_seeded (identified_named reopened _ _) _ _

theorem identified_repairBodyName (env : Env) (fault : Option Fault) (holds : Everywhere (Image.Identified c) d.cell) :
    Everywhere (Image.Identified c) (d.repairBodyName c env fault).cell := by
  rcases repairBodyName_cases (c := c) env fault d with ⟨live, same⟩ | ⟨name, next, live, does, same⟩
  · rw [same]
    exact holds
  · rw [same]
    have alone : next.peers = [] := (congrArg Desk.peers does.2).trans does.1.2.1
    have new : Image.Identified c ⟨next, d.acts⟩ := Image.identified_of_alone alone
    exact identified_commit holds new fault

theorem identified_recoverJobs (env : Env) (holds : Everywhere (Image.Identified c) d.cell) :
    Everywhere (Image.Identified c) (d.recoverJobs c env).cell := by
  have failed : ∀ {d : Daemon} (e : ClixError), Everywhere (Image.Identified c) d.cell →
      Everywhere (Image.Identified c) (d.setStore (fun s => s.recoveryFailed e)).cell :=
    fun e holds => holds.tweak (fun kept => kept.congr ⟨rfl, rfl, rfl⟩)
  have committed : ∀ {next : Store}, d.store.Does (.recover Store.recoveryReason) next →
      next.ownerSk = d.store.ownerSk → ∀ fault, Everywhere (Image.Identified c) (d.commit ⟨next, d.acts⟩ fault) := by
    intro next does key fault
    have same : d.store.SameTrust next := ⟨congrArg Desk.name does.2, key, congrArg Desk.peers does.2⟩
    have new : Image.Identified c ⟨next, d.acts⟩ := holds.1.congr same
    exact identified_commit holds new fault
  rcases recoverJobs_cases (c := c) env d with
    same | ⟨e, same⟩ | ⟨next, ⟨does, key⟩, ⟨fault, same⟩ | ⟨f, fault, same⟩⟩
  · rw [same]
    exact holds
  · rw [same]
    exact failed e holds
  · rw [same]
    exact committed does key none
  · rw [same]
    exact failed f.error (committed does key (some f))

theorem identified_restart (env : Env) (boot : Boot) (holds : Everywhere (Image.Identified c) d.cell) :
    Everywhere (Image.Identified c) (d.restart c env boot).cell := by
  have opened := identified_openStore (c := c) boot holds
  have repaired := identified_repairBodyName (c := c) env boot.repairFault opened
  rcases restart_cases (c := c) d env boot with ⟨same, -⟩ | same | ⟨-, -, same⟩
  · rw [same]
    exact opened
  · rw [same]
    dsimp only
    exact repaired
  · rw [same]
    exact identified_recoverJobs env repaired

theorem identified_step (inv : Inv c d) (e : Env × Event) (holds : Everywhere (Image.Identified c) d.cell) :
    Everywhere (Image.Identified c) (d.step c e).cell := by
  cases step_cases inv e with
  | live _ _ _ core => exact identified_core core holds
  | stopped _ _ _ _ same => exact same ▸ holds
  | restarted boot same => exact same ▸ identified_restart e.1 boot holds

theorem identified_run (inv : Inv c d) (events : List (Env × Event)) (holds : Everywhere (Image.Identified c) d.cell) :
    Everywhere (Image.Identified c) (d.run c events).cell := by
  induction events generalizing d with
  | nil => exact holds
  | cons e rest ih => exact ih (inv_step inv e) (identified_step inv e holds)

theorem identified_fresh (epoch hostname : String) (seed : Bytes) :
    Everywhere (Image.Identified c) (fresh c epoch hostname seed).cell := by
  apply everywhere_installed
  apply Image.identified_of_alone
  exact congrArg Desk.peers (desk_first c epoch hostname seed)

/-! ### A saved peer stays -/

theorem settling_knows (p : Peer) : Settling (fun desk => desk.Knows p) where
  deed _ _ allowed known := known.apply allowed
  lost _ _ _ _ known := known
  interrupted _ _ known := known
  unnamed _ _ _ _ known := known
  reload _ := Iff.rfl

theorem knows_durable_step (inv : Inv c d) (e : Env × Event) (p : Peer)
    (durable : Durable (Image.On (·.Knows p)) d.cell) : Durable (Image.On (·.Knows p)) (d.step c e).cell := by
  cases step_cases inv e with
  | live _ _ sound core => exact durable_core (settling_knows p) sound core durable
  | stopped _ _ _ _ same => exact same ▸ durable
  | restarted boot same => exact same ▸ durable_restart (settling_knows p) e.1 boot d

theorem knows_step (inv : Inv c d) (e : Env × Event) {p : Peer}
    (durable : Durable (Image.On (·.Knows p)) d.cell) (known : d.store.desk.Knows p) :
    (d.step c e).store.desk.Knows p := by
  cases step_cases inv e with
  | live _ _ sound core =>
    obtain ⟨deed, allowed, desk⟩ := desk_core sound core
    rw [desk]
    exact known.apply allowed
  | stopped _ _ _ _ same => exact same ▸ known
  | restarted boot same => exact same ▸ (everywhere_restart_of_durable (settling_knows p) e.1 boot known durable).1

theorem knows_durable_run (inv : Inv c d) (events : List (Env × Event)) (p : Peer)
    (durable : Durable (Image.On (·.Knows p)) d.cell) :
    Durable (Image.On (·.Knows p)) (d.run c events).cell := by
  induction events generalizing d with
  | nil => exact durable
  | cons e rest ih => exact ih (inv_step inv e) (knows_durable_step inv e p durable)

theorem knows_run (inv : Inv c d) (events : List (Env × Event)) {p : Peer}
    (durable : Durable (Image.On (·.Knows p)) d.cell) (known : d.store.desk.Knows p) :
    (d.run c events).store.desk.Knows p := by
  induction events generalizing d with
  | nil => exact known
  | cons e rest ih => exact ih (inv_step inv e) (knows_durable_step inv e p durable) (knows_step inv e durable known)

theorem knows_of_mem {p : Peer} (member : p ∈ d.store.peers) : d.store.desk.Knows p := ⟨p, member, rfl, rfl⟩

/-- In memory and in every content of the file, names and keys identify machines; whoever connects with the key that
a name stands for is the peer of that name; and a peer that was saved stays, under the same name and key. -/
theorem identity (c : Crypto) (epoch hostname : String) (seed : Bytes) (before after : List (Env × Event)) :
    let now := reach c epoch hostname seed before
    let later := reach c epoch hostname seed (before ++ after)
    Everywhere (fun image => image.store.Identified c) now.cell ∧
      (∀ key p, now.store.peers.find? (fun q => q.ownerPk == key) = some p →
        ∀ name, History.knownKey c now.store name = .ok key ↔ name = p.name) ∧
      ∀ p ∈ now.store.peers, (∃ q ∈ later.store.peers, q.name = p.name ∧ q.ownerPk = p.ownerPk) ∧
        ∀ q ∈ later.store.peers, q.name = p.name ↔ q.ownerPk = p.ownerPk := by
  dsimp only
  have start := inv_fresh (c := c) epoch hostname seed
  have inv : Inv c (reach c epoch hostname seed before) := inv_run start before
  have everywhere := identified_run start before (identified_fresh epoch hostname seed)
  refine ⟨⟨everywhere.1.1, everywhere.2.1.1, fun old same => (everywhere.2.2 old same).1⟩,
    fun key p found => everywhere.1.1.name_eq_iff found, fun p member => ?_⟩
  have unpaired : (fresh c epoch hostname seed).store.desk.peers = [] :=
    congrArg Desk.peers (desk_first c epoch hostname seed)
  have durable : Durable (Image.On (·.Knows p)) (reach c epoch hostname seed before).cell := by
    apply knows_durable_run start
    intro known
    obtain ⟨q, there, -⟩ := known
    exact absurd (unpaired ▸ there : q ∈ ([] : List Peer)) List.not_mem_nil
  rw [reach_append]
  have identified := (identified_run inv after everywhere).1.1
  obtain ⟨q, there, name, key⟩ := knows_run inv after durable (knows_of_mem member)
  refine ⟨⟨q, there, name, key⟩, fun r also => ⟨fun same => ?_, fun same => ?_⟩⟩
  · rw [identified.eq_of_name also there (same.trans name.symm), key]
  · rw [identified.eq_of_key also there (same.trans key.symm), name]

end Daemon

end Clix
