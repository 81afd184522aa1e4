import Clix.Model.Replication
import Clix.Proofs.Reading
import Clix.Soundness.Growth

/-! # Reading a history misses nothing

A reader goes through the history of a publisher page by page, while entries are stamped again, pages are lost, come late
or twice, saves fail, and either machine stops and restarts. Whatever it has read up to its cursor it holds, until the
publisher begins a history of another epoch.
-/

namespace Clix

open Except DurableCell

namespace Replication

variable {c : Crypto} {name : BodyId} {r : Replication} {x y : Store} {q : Progress}

/-- An epoch under which the publisher may have served. -/
def Known (r : Replication) (epoch : String) : Prop :=
  epoch = "" ∨ epoch = r.publisher.store.history.epoch ∨ epoch ∈ r.lost

/-- What a state holds of the publisher's history is what its progress says. -/
structure Reads (c : Crypto) (r : Replication) (x : Store) (q : Progress) : Prop where
  known : r.Known q.epoch
  read : q.epoch = r.publisher.store.history.epoch → History.Read c r.publisher.store x q

/-- A page that the publisher may have answered. -/
structure Answered (r : Replication) (q : Progress) (p : Page) : Prop where
  known : r.Known p.epoch
  answers : p.epoch = r.publisher.store.history.epoch → History.Answers r.publisher.store q p

/-- The invariant of the two machines and the pages between them. -/
structure Inv (c : Crypto) (name : BodyId) (r : Replication) : Prop where
  publisher : Forward.Held c (Store.Onward c) r.publisher
  reader : Forward.Held c (Store.Onward c) r.reader
  stamped : r.publisher.store.log.Stamped
  positive : ∀ key e, r.publisher.store.history.entries.get? key = some e → 0 < e.change.toNat
  named : r.publisher.store.history.epoch ≠ ""
  served : ∀ x ∈ r.served, r.Answered x.1.progress x.2 ∧ r.Reads c r.reader.store x.1.progress
  accepted : ∀ x ∈ r.served, History.checkPage x.1.progress x.2 = .ok ()
  syncs : ∀ x ∈ r.reader.syncs, x.peer = name → r.Reads c r.reader.store x.progress
  reads : Everywhere (Image.Being (fun x => x.Begun ∧ r.Reads c x (History.progress x name))) r.reader.cell

/-! ### The reader goes on -/

theorem Reads.keep (reads : r.Reads c x q) (succeeds : x.FactsSucceed c y) : r.Reads c y q :=
  have advanced : r.publisher.store.Later (fun _ => True) r.publisher.store := .refl _
  ⟨reads.known, fun same => (reads.read same).advance advanced succeeds⟩

theorem Reads.congr {q' : Progress} (reads : r.Reads c x q) (same : q'.SamePlace q) : r.Reads c x q' := by
  refine ⟨same.epoch ▸ reads.known, fun here => ?_⟩
  have read := reads.read (same.epoch ▸ here)
  exact ⟨same.cursor ▸ read.clock, fun clean => same.cursor ▸ read.seen (same.unknownAuthors ▸ clean)⟩

/-- Nothing was read yet. -/
theorem reads_default (named : r.publisher.store.history.epoch ≠ "") : r.Reads c x Progress.default :=
  ⟨.inl rfl, fun same => absurd same.symm named⟩

/-- A later state that read nothing more of the publisher. -/
theorem Reads.later {reading : String → Prop} (named : r.publisher.store.history.epoch ≠ "")
    (reads : r.Reads c x (History.progress x name)) (later : x.Later reading y) (unread : ¬reading name.name)
    (succeeds : x.FactsSucceed c y) : r.Reads c y (History.progress y name) := by
  rcases later.peers name.name unread with same | gone
  · have kept : History.progress y name = History.progress x name := by
      rw [History.progress, History.progress, same]
    exact kept ▸ reads.keep succeeds
  · have fresh : History.progress y name = Progress.default := by
      rw [History.progress, gone]
      rfl
    exact fresh ▸ reads_default named

/-- The pages that the reader merges under the publisher's name were answered to it. -/
def Genuine (c : Crypto) (name : BodyId) (r : Replication) (s : Store) (event : Clix.Event) : Prop :=
  ∀ sync page, event = .mergePage sync page → sync.peer = name →
    r.Answered sync.progress page ∧ r.Reads c s sync.progress

theorem eq_of_name {a b : BodyId} (same : a.name = b.name) : a = b := by
  cases a
  cases b
  exact congrArg BodyId.mk same

theorem sustained_reads (named : r.publisher.store.history.epoch ≠ "") :
    Sustained c (r.Genuine c name) (fun x => x.Begun ∧ r.Reads c x (History.progress x name)) where
  write s next writes holds := by
    obtain ⟨begun, reads⟩ := holds
    refine ⟨writes.begun begun, ?_⟩
    obtain ⟨-, edited, refreshed, epochId, edits, published, fits⟩ := writes
    have rest := Store.factsSucceed_of_edited (edits.unbound begun) published fits
    have edit := (edits.touches begun).factsSucceed
    have after : edited.Later (· ≠ name.name) next := Store.later_of_edited published fits
    have unread : ¬(name.name ≠ name.name) := fun differs => differs rfl
    rcases (edits.later : s.Later (· ≠ name.name) edited ∨ _) with kept | ⟨sync, page, read, ran, current, checked, permitted⟩
    · exact (reads.later named kept unread edit).later named after unread rest
    · obtain rfl : sync.peer = name := eq_of_name (not_not.mp read)
      obtain ⟨answered, before⟩ := permitted sync page rfl rfl
      have merged : r.Reads c edited (History.progress edited sync.peer) := by
        refine ⟨History.epoch_mergePage ran ▸ answered.known, fun same => ?_⟩
        have answers := answered.answers (History.epoch_mergePage ran ▸ same)
        exact answers.read ran (fun continued => before.read (answers.resumed continued))
      exact merged.later named after unread rest
  note s t notes holds := by
    refine ⟨notes.thinned.begun holds.1, ?_⟩
    have kept := holds.2.keep notes.onward.1.toFactsSucceed
    cases notes with
    | contact peer p same =>
      by_cases here : peer = name
      · subst here
        rw [History.progress_setProgress]
        exact kept.congr same
      · have apart : name.name ≠ peer.name := fun equal => here (eq_of_name equal.symm)
        rw [History.progress, History.setProgress, OrdMap.get?_insert_of_ne _ _ apart]
        exact kept
    | gaveUp | recoveryFailed => exact kept
  complete s t completes holds := by
    refine ⟨completes.begun holds.1, ?_⟩
    have kept := holds.2.keep ((forward_onward c (fun _ _ => True)).complete s t completes).toFactsSucceed
    cases completes <;> exact kept
  reload s holds := by
    refine ⟨(Store.thinned_reloaded s).begun holds.1, Reads.congr (holds.2.keep (.of_eq rfl rfl rfl)) ?_⟩
    change (((s.history.peers.mapValues _).get? name.name).getD Progress.default).SamePlace _
    rw [OrdMap.get?_mapValues, History.progress]
    cases s.history.peers.get? name.name <;> exact ⟨rfl, rfl, rfl⟩
  stop s e holds := ⟨(Store.thinned_stopped s e).begun holds.1, holds.2.keep (.of_eq rfl rfl rfl)⟩

/-! ### The publisher goes on -/

variable {r' : Replication}

/-- The publisher is in a later state, of the same history. -/
structure Moves (r r' : Replication) : Prop where
  later : r.publisher.store.Later (fun _ => True) r'.publisher.store
  named : r.publisher.store.history.epoch ≠ ""
  lost : r'.lost = r.lost

theorem Moves.epoch (moves : r.Moves r') : r'.publisher.store.history.epoch = r.publisher.store.history.epoch :=
  moves.later.epoch moves.named

theorem Moves.known (moves : r.Moves r') {epoch : String} (known : r.Known epoch) : r'.Known epoch := by
  rw [Known, moves.epoch, moves.lost]
  exact known

theorem Reads.moves (moves : r.Moves r') (reads : r.Reads c x q) : r'.Reads c x q :=
  ⟨moves.known reads.known, fun same => (reads.read (same.trans moves.epoch)).advance moves.later (.refl x)⟩

theorem Answered.moves (moves : r.Moves r') {p : Page} (answered : r.Answered q p) : r'.Answered q p :=
  ⟨moves.known answered.known, fun same =>
    (answered.answers (same.trans moves.epoch)).advance moves.later moves.named⟩

/-- The publisher begins a history of an epoch under which it never served. -/
structure Begins (r r' : Replication) : Prop where
  fresh : ¬r.Known r'.publisher.store.history.epoch
  lost : r'.lost = r.publisher.store.history.epoch :: r.lost

theorem Begins.known (begins : r.Begins r') {epoch : String} (known : r.Known epoch) : r'.Known epoch := by
  rw [Known, begins.lost]
  rcases known with unnamed | current | lost
  · exact .inl unnamed
  · exact .inr (.inr (current ▸ List.mem_cons_self))
  · exact .inr (.inr (List.mem_cons_of_mem _ lost))

theorem Reads.begins (begins : r.Begins r') (reads : r.Reads c x q) : r'.Reads c x q :=
  ⟨begins.known reads.known, fun same => absurd (same ▸ reads.known) begins.fresh⟩

theorem Answered.begins (begins : r.Begins r') {p : Page} (answered : r.Answered q p) : r'.Answered q p :=
  ⟨begins.known answered.known, fun same => absurd (same ▸ answered.known) begins.fresh⟩

/-! ### Steps -/

theorem syncs_step {d : Daemon} (e : Env × Clix.Event) {x : Sync} (member : x ∈ (d.step c e).syncs) :
    x ∈ d.syncs ∨ x.progress = History.progress d.store x.peer := by
  have restarted (boot : Boot) (member : x ∈ (d.restart c e.1 boot).syncs) : False := by
    rw [(Daemon.cleared_restart (c := c) e.1 boot d).syncs] at member
    exact List.not_mem_nil member
  cases live : d.live with
  | true =>
    rw [Daemon.step, live, if_pos rfl] at member
    by_cases again : ∃ boot, e.2 = .restart boot
    · obtain ⟨boot, again⟩ := again
      rw [again] at member
      exact (restarted boot member).elim
    · rw [not_exists] at again
      exact ((Daemon.carried_liveStep (c := c) (d := d) e.1 e.2 again).syncs x member).imp_right And.right
  | false =>
    rw [Daemon.step, live, if_neg Bool.false_ne_true] at member
    split at member
    · next id status _ =>
      unfold Daemon.exited at member
      split_ifs at member <;> exact .inl member
    · exact (restarted _ member).elim
    · exact .inl member

/-- What was stamped since the beginning is stamped after it. -/
theorem positive_of_later (positive : ∀ key e, x.history.entries.get? key = some e → 0 < e.change.toNat)
    (later : x.Later (fun _ => True) y) (key : String) (e : Entry) (found : y.history.entries.get? key = some e) :
    0 < e.change.toNat := by
  rcases later.log.entry key (e.change.toNat, e.record) (Store.log_eq_some.mpr ⟨e, found, rfl⟩) with kept | ⟨beyond, -⟩
  · obtain ⟨e', there, same⟩ := Store.log_eq_some.mp kept
    have equal : e'.change.toNat = e.change.toNat := congrArg Prod.fst same
    exact equal ▸ positive key e' there
  · exact (Nat.zero_le _).trans_lt beyond

theorem inv_publisher (inv : Inv c name r) (env : Env) (event : Clix.Event) :
    Inv c name (r.step c name (.publisher env event)) := by
  obtain ⟨held, onward, -⟩ := (forward_onward c (fun _ _ => True)).run inv.publisher
    (Daemon.permitsAll_true r.publisher [(env, event)])
  have later : r.publisher.store.Later (fun _ => True) (r.step c name (.publisher env event)).publisher.store :=
    onward.toLater
  have moves : r.Moves (r.step c name (.publisher env event)) := ⟨later, inv.named, rfl⟩
  exact {
    publisher := held
    reader := inv.reader
    stamped := later.log.stamped inv.stamped
    positive := positive_of_later inv.positive later
    named := moves.epoch ▸ inv.named
    served := fun x member => (inv.served x member).imp (Answered.moves moves) (Reads.moves moves)
    accepted := inv.accepted
    syncs := fun x member same => (inv.syncs x member same).moves moves
    reads := inv.reads.mono (fun _ holds => ⟨holds.1, holds.2.moves moves⟩) }

theorem page_of_historyPage {s : Store} {p : Page} (success : Mesh.Node.historyPage c s q.epoch (some q.cursor)
    (History.requestHigh q) = .ok (.page p)) : History.page c s q.epoch q.cursor (History.requestHigh q) = .ok p := by
  rw [Mesh.Node.historyPage, refuseIf_bind_eq_ok] at success
  obtain ⟨-, success⟩ := success
  rw [bind_eq_ok] at success
  obtain ⟨p', served, success⟩ := success
  cases success
  exact served

theorem inv_serve (inv : Inv c name r) (sync : Sync) : Inv c name (r.step c name (.serve sync)) := by
  change Inv c name (r.serve c name sync)
  unfold serve
  split_ifs with refused
  · exact inv
  split
  swap
  · exact inv
  next page success =>
  have served := page_of_historyPage success
  rw [not_or, not_or, not_not, not_not] at refused
  have moves : r.Moves { r with served := (sync, page) :: r.served } := ⟨.refl _, inv.named, rfl⟩
  have answered : r.Answered sync.progress page :=
    ⟨.inr (.inl (History.page_eq_ok served).sameEpoch), fun _ => History.answers_of_page inv.stamped served⟩
  exact {
    publisher := inv.publisher
    reader := inv.reader
    stamped := inv.stamped
    positive := inv.positive
    named := inv.named
    served := List.forall_mem_cons.mpr ⟨⟨answered.moves moves, (inv.syncs sync refused.2.1 refused.2.2).moves moves⟩,
      fun x member => (inv.served x member).imp (Answered.moves moves) (Reads.moves moves)⟩
    accepted := List.forall_mem_cons.mpr
      ⟨History.checkPage_of_page inv.stamped inv.named served, fun x member => inv.accepted x member⟩
    syncs := fun x member same => (inv.syncs x member same).moves moves
    reads := inv.reads.mono (fun _ holds => ⟨holds.1, holds.2.moves moves⟩) }

theorem inv_reader (inv : Inv c name r) (env : Env) (event : Clix.Event) :
    Inv c name (r.step c name (.reader env event)) := by
  change Inv c name (if r.isGenuine name event then { r with reader := r.reader.step c (env, event) } else r)
  split_ifs with genuine
  swap
  · exact inv
  have permitted : r.reader.PermitsAll c (r.Genuine c name) [(env, event)] := by
    refine ⟨fun sync page same here => ?_, trivial⟩
    obtain rfl : event = .mergePage sync page := same
    rw [isGenuine, Bool.or_eq_true, decide_eq_true_eq, decide_eq_true_eq] at genuine
    exact inv.served _ (genuine.resolve_left (fun differs => differs here))
  obtain ⟨held, onward, -⟩ := (forward_onward c (fun _ _ => True)).run inv.reader
    (Daemon.permitsAll_true r.reader [(env, event)])
  have succeeds : r.reader.store.FactsSucceed c (r.reader.step c (env, event)).store := onward.toFactsSucceed
  have moves : r.Moves { r with reader := r.reader.step c (env, event) } := ⟨.refl _, inv.named, rfl⟩
  have reads := Daemon.everywhere_run (sustained_reads inv.named) inv.reader.inv inv.reader.ready [(env, event)] permitted
    inv.reads
  exact {
    publisher := inv.publisher
    reader := held
    stamped := inv.stamped
    positive := inv.positive
    named := inv.named
    served := fun x member => (inv.served x member).imp (Answered.moves moves)
      (fun before => (before.keep succeeds).moves moves)
    accepted := inv.accepted
    syncs := fun x member same => by
      rcases syncs_step (c := c) (env, event) member with old | new
      · exact ((inv.syncs x old same).keep succeeds).moves moves
      · rw [new, same]
        exact (inv.reads.1.2.keep succeeds).moves moves
    reads := reads.mono (fun _ holds => ⟨holds.1, holds.2.moves moves⟩) }

/-- A publisher that was just installed. -/
theorem held_fresh (c : Crypto) (epoch hostname : String) (seed : Bytes) :
    Forward.Held c (Store.Onward c) (Daemon.fresh c epoch hostname seed) :=
  have initial := Store.initial_first c epoch hostname seed
  (forward_onward c (fun _ _ => True)).held_installed initial.inv initial.begun

theorem epoch_first (c : Crypto) (epoch hostname : String) (seed : Bytes) :
    (Store.first c epoch hostname seed).history.epoch = epoch := by
  have trusted (s : Store) : (History.refreshTrust c s).history.epoch = s.history.epoch := by
    rw [History.refreshTrust]
    split_ifs <;> rfl
  exact trusted _

theorem absent_first (c : Crypto) (epoch hostname : String) (seed : Bytes) (key : String) :
    (Store.first c epoch hostname seed).history.entries.get? key = none := by
  rw [(Store.initial_first c epoch hostname seed).unrecorded, OrdMap.get?_empty]

theorem stamped_first (c : Crypto) (epoch hostname : String) (seed : Bytes) :
    (Store.first c epoch hostname seed).log.Stamped := by
  refine (ChangeLog.Advances.refl _).stamped_of_empty (fun key => ?_)
  change ((Store.first c epoch hostname seed).history.entries.get? key).map _ = none
  rw [absent_first, Option.map_none]

theorem inv_begin (inv : Inv c name r) (epoch hostname : String) (seed : Bytes) :
    Inv c name (r.step c name (.begin epoch hostname seed)) := by
  change Inv c name (if epoch = "" ∨ epoch = r.publisher.store.history.epoch ∨ epoch ∈ r.lost then r else { r with
    publisher := Daemon.fresh c epoch hostname seed
    lost := r.publisher.store.history.epoch :: r.lost })
  split_ifs with known
  · exact inv
  have same : (Daemon.fresh c epoch hostname seed).store.history.epoch = epoch := epoch_first c epoch hostname seed
  have begins : r.Begins { r with
      publisher := Daemon.fresh c epoch hostname seed
      lost := r.publisher.store.history.epoch :: r.lost } := ⟨fun old => known (same ▸ old), rfl⟩
  exact {
    publisher := held_fresh c epoch hostname seed
    reader := inv.reader
    stamped := stamped_first c epoch hostname seed
    positive := fun key e found => by
      have absent := absent_first c epoch hostname seed key
      cases absent.symm.trans found
    named := fun unnamed => known (.inl (same.symm.trans unnamed))
    served := fun x member => (inv.served x member).imp (Answered.begins begins) (Reads.begins begins)
    accepted := inv.accepted
    syncs := fun x member here => (inv.syncs x member here).begins begins
    reads := inv.reads.mono (fun _ holds => ⟨holds.1, holds.2.begins begins⟩) }

theorem inv_step (inv : Inv c name r) (event : Event) : Inv c name (r.step c name event) := by
  cases event with
  | publisher env event => exact inv_publisher inv env event
  | reader env event => exact inv_reader inv env event
  | serve sync => exact inv_serve inv sync
  | begin epoch hostname seed => exact inv_begin inv epoch hostname seed

theorem inv_run (inv : Inv c name r) (events : List Event) : Inv c name (r.run c name events) := by
  induction events generalizing r with
  | nil => exact inv
  | cons event rest ih => exact ih (inv_step inv event)

theorem inv_start {epoch hostname : String} {seed : Bytes} (named : epoch ≠ "") {reader : Store}
    (initial : reader.Initial) (unread : reader.history.peers.get? name.name = none) :
    Inv c name (start c epoch hostname seed reader) := by
  have same : (Daemon.fresh c epoch hostname seed).store.history.epoch = epoch := epoch_first c epoch hostname seed
  have fresh : History.progress reader name = Progress.default := by
    rw [History.progress, unread]
    rfl
  have nothing : (start c epoch hostname seed reader).Reads c reader (History.progress reader name) :=
    fresh ▸ reads_default (fun unnamed => named (same.symm.trans unnamed))
  exact {
    publisher := held_fresh c epoch hostname seed
    reader := (forward_onward c (fun _ _ => True)).held_installed initial.inv initial.begun
    stamped := stamped_first c epoch hostname seed
    positive := fun key e found => by
      have absent := absent_first c epoch hostname seed key
      cases absent.symm.trans found
    named := fun unnamed => named (same.symm.trans unnamed)
    served := fun x member => absurd member List.not_mem_nil
    accepted := fun x member => absurd member List.not_mem_nil
    syncs := fun x member => absurd member List.not_mem_nil
    reads := Daemon.everywhere_installed ⟨initial.begun, nothing⟩ }

/-- A state has read the publisher's history up to its cursor. -/
def CaughtUp (c : Crypto) (name : BodyId) (r : Replication) (x : Store) : Prop :=
  (History.progress x name).epoch = r.publisher.store.history.epoch →
    (History.progress x name).unknownAuthors = false →
      ∀ key e, r.publisher.store.history.entries.get? key = some e → e.change ≤ (History.progress x name).cursor →
        x.Holds c e.record

/-- Whatever both machines do and whatever becomes of the pages, every state of the reader, in memory, in its file or
brought back by a crash, holds each of the publisher's records up to its cursor, as it is or with newer facts, unless it
reports unknown authors. Only where the reader itself certified the invocation, with its own key, its own record may
stand in the place of the publisher's. And the reader never refuses a page as out of order. -/
theorem reader_caughtUp (c : Crypto) (name : BodyId) (epoch hostname : String) (seed : Bytes) (named : epoch ≠ "")
    (reader : Store) (initial : reader.Initial) (unread : reader.history.peers.get? name.name = none)
    (events : List Event) :
    Everywhere (fun image => ((start c epoch hostname seed reader).run c name events).CaughtUp c name image.store)
      ((start c epoch hostname seed reader).run c name events).reader.cell ∧
    ∀ x ∈ ((start c epoch hostname seed reader).run c name events).served,
      History.checkPage x.1.progress x.2 = .ok () := by
  have start : Inv c name (start c epoch hostname seed reader) := inv_start named initial unread
  have inv := inv_run start events
  refine ⟨inv.reads.mono (fun image holds here clean key e found early => ?_), inv.accepted⟩
  have read := (holds.2.read here).seen clean
  exact read key (e.change.toNat, e.record) (Store.log_eq_some.mpr ⟨e, found, rfl⟩) (inv.positive key e found)
    (UInt64.le_iff_toNat_le.mp early)

namespace ReadExample

set_option maxRecDepth 40000

def crypto : Crypto := Crypto.transparent

def bobKey : Bytes := List.replicate 32 2

def bob : BodyId := ⟨"bob"⟩

def env : Env where
  now := ⟨0, .mon, 0, 0⟩
  newId := .ok "job"
  epochId := .ok "epoch"
  fs := ⟨fun _ => .error .unreachable, fun _ => .error .unreachable⟩
  fault := none
  meshBusy := false

/-- A machine that has paired bob. -/
def alice : Store :=
  History.refreshTrust crypto { Store.first crypto "alices" "alice" (List.replicate 32 1) with
    peers := [⟨bob, bobKey, none⟩] }

/-- Bob queues a command, and alice asks for his history. -/
def asking : List Event := [
  .publisher env (.restart ⟨false, "bob", bobKey, none, none, none⟩),
  .publisher env (.compose "bob" ["tool"]),
  .publisher env (.submit ⟨bob, bob, ["tool"], none⟩),
  .reader env (.restart ⟨false, "alice", List.replicate 32 1, none, none, none⟩),
  .reader env (.startSync bob)]

def asked : Sync := ⟨bob, Progress.default, alice.history.trust⟩

def answering : List Event := asking ++ [.serve asked]

def answer : Page :=
  match ((start crypto "bobs" "bob" bobKey alice).run crypto bob answering).served with
  | (_, page) :: _ => page
  | [] => ⟨"", true, 0, 0, true, []⟩

def reading : List Event := answering ++ [.reader env (.mergePage asked answer)]

theorem alice_initial : alice.Initial :=
  ((Store.initial_first crypto "alices" "alice" (List.replicate 32 1)).befriend [⟨bob, bobKey, none⟩]
    []).refreshTrust crypto

theorem bobs_named : "bobs" ≠ "" := by decide

theorem bob_unread : alice.history.peers.get? bob.name = none := by decide

/-- The machines when alice has merged bob's page. -/
def last : Replication := (start crypto "bobs" "bob" bobKey alice).run crypto bob reading

theorem last_seen : History.progress last.reader.store bob = ⟨"bobs", 2, 2, true, false, none, none⟩ ∧
    last.publisher.store.history.epoch = "bobs" ∧
    (last.publisher.store.history.entries.entries.map Prod.snd).map Entry.change = [2] ∧
    last.reader.store.jobCertificates.entries = [] := by
  decide

/-- Alice has read up to the one entry of bob, and holds it without having certified anything. -/
theorem last_caughtUp : (Everywhere (fun image => last.CaughtUp crypto bob image.store) last.reader.cell ∧
    ∀ x ∈ last.served, History.checkPage x.1.progress x.2 = .ok ()) ∧
    last.publisher.store.history.entries.entries ≠ [] ∧
    ∀ key e, last.publisher.store.history.entries.get? key = some e →
      ∃ e', last.reader.store.history.entries.get? (History.invocationHash crypto e.record.certificate) = some e' ∧
        e.record.Each Versioned.Reaches e'.record := by
  have caughtUp := reader_caughtUp crypto bob "bobs" "bob" bobKey bobs_named alice alice_initial bob_unread reading
  rw [← last] at caughtUp
  refine ⟨caughtUp, ?_⟩
  obtain ⟨progress, epoch, changes, uncertified⟩ := last_seen
  generalize last = r at caughtUp progress epoch changes uncertified ⊢
  have read : r.CaughtUp crypto bob r.reader.store := caughtUp.1.1
  rw [CaughtUp, progress, epoch] at read
  refine ⟨fun none => ?_, fun key e found => (read rfl rfl key e found ?_).resolve_right ?_⟩
  · rw [none] at changes
    cases changes
  swap
  · rintro ⟨id, own⟩
    have bound := own.bound
    rw [OrdMap.eq_empty uncertified, OrdMap.get?_empty] at bound
    cases bound
  · have member := List.mem_map_of_mem (f := Entry.change) (List.mem_map_of_mem (f := Prod.snd)
      (OrdMap.get?_eq_some_iff.mp found))
    rw [changes, List.mem_singleton] at member
    exact member ▸ UInt64.le_refl _

end ReadExample

end Replication

end Clix
