import Clix.Model.Sidecar
import Clix.Proofs.Frame

/-! # Nothing acknowledged is lost

Whichever call of a save fails and wherever the process dies, the state file holds a whole state: the last acknowledged
one, or the one whose save was under way. A process whose save failed refuses every update until the file is read
again, so each save is built on the acknowledged state.
-/

namespace Clix

open Except

/-- Changes of memory that no save made. -/
def Change.isVolatile : Change → Bool
  | .mark _ | .read => true
  | _ => false

theorem Mark.writeError_apply {s : Store} {m : Mark} (writable : (m.apply s).writeError = none) :
    s.writeError = none := by
  cases m with
  | contact | unsaved => exact writable
  | recoveryFailed e => cases writable

/-- A store that stopped refuses every update. -/
theorem Store.stage_stopped {c : Crypto} {α : Type} {epochId : Result String} {s : Store}
    {edit : Store → Result (Store × α)} (stopped : s.writeError ≠ none) :
    ∃ reason, stage c epochId s edit = .error (storageError reason) := by
  obtain ⟨reason, present⟩ := Option.ne_none_iff_exists'.mp stopped
  exact ⟨reason, by rw [stage, ensureWritable, present, error_bind]⟩

/-- The calls a save makes, up to the one that fails. -/
def Daemon.saveCalls (disk : Disk Image) (next : Image) : Option Fault → Disk Image
  | none => disk.performed next 5
  | some fault => (disk.performed next fault.step.completed).discard

/-- The atomic replacement of a machine's state is what the calls of the save do to its directory. -/
theorem Daemon.shows_commit {d : Daemon} {disk : Disk Image} (shown : Disk.Shows d.cell disk) (next : Image)
    (fault : Option Fault) : Disk.Shows (d.commit next fault) (saveCalls disk next fault) := by
  cases fault with
  | none => exact Disk.Shows.saved disk d.cell next _
  | some fault =>
    obtain ⟨call, e⟩ := fault
    cases call with
    | privateDir | createTemp | write | flush | rename =>
      exact shown.failedBefore next _ (by simp [SaveStep.completed])
    | syncDirectory => exact shown.failedAfter next _

theorem replay_concat {c : Crypto} {s : Store} {v : Version} (made : replay c s v.lineage = some v.store)
    {change : Change} {t : Store} (does : change.apply c v.store = some t) :
    replay c s (v.after t change).lineage = some (v.after t change).store := by
  rw [Version.after, replay, List.foldlM_append]
  rw [replay] at made
  rw [made]
  simpa using does

namespace Sidecar

variable {c : Crypto} {s : Store} {x : Sidecar}

/-- A version that the lineage makes of the installed state. -/
def Made (c : Crypto) (s : Store) (v : Version) : Prop := replay c s v.lineage = some v.store

/-- A version whose lineage extends another by changes in memory only. -/
def Read (v m : Version) : Prop := ∃ rest, m.lineage = v.lineage ++ rest ∧ ∀ change ∈ rest, change.isVolatile = true

theorem Read.refl (v : Version) : Read v v :=
  ⟨[], (List.append_nil _).symm, fun _ member => absurd member List.not_mem_nil⟩

theorem Read.after {v m : Version} (read : Read v m) (t : Store) {change : Change} (volatile : change.isVolatile = true) :
    Read v (m.after t change) := by
  obtain ⟨rest, same, all⟩ := read
  refine ⟨rest ++ [change], ?_, fun other member => ?_⟩
  · rw [Version.after, same, List.append_assoc]
  · rcases List.mem_append.mp member with earlier | last
    · exact all other earlier
    · rw [List.mem_singleton.mp last]
      exact volatile

theorem Read.isPrefix {v m : Version} (read : Read v m) : v.lineage <+: m.lineage := by
  obtain ⟨rest, same, -⟩ := read
  exact ⟨rest, same.symm⟩

/-- Memory of a process that may save: the acknowledged state, read or changed in memory only. -/
structure Current (c : Crypto) (s : Store) (x : Sidecar) (m : Version) : Prop where
  settled : x.inFlight = none
  made : Made c s m
  read : Read x.acked m

/-- What holds of the file, the acknowledged state and memory after any moves. -/
structure Kept (c : Crypto) (s : Store) (x : Sidecar) : Prop where
  acked : Made c s x.acked
  settled : x.inFlight = none → x.disk.Settled x.acked
  inFlight : ∀ v, x.inFlight = some v → x.disk.Offers x.acked v ∧ Made c s v ∧ x.acked.lineage <+: v.lineage
  mem : ∀ m, x.mem = some m → m.store.writeError = none → Current c s x m

theorem kept_installed (s : Store) : Kept c s (installed s) where
  acked := rfl
  settled _ := Disk.settled_holding _
  inFlight _ absent := absurd absent nofun
  mem _ absent := absurd absent nofun

theorem kept_saved {next : Version} (made : Made c s next) : Kept c s (x.saved next) where
  acked := made
  settled _ := Disk.Settled.performed_all next x.disk
  inFlight _ absent := absurd absent nofun
  mem m same _ := by
    cases same
    exact ⟨rfl, made, Read.refl next⟩

/-- A save that stopped after some of its steps, with a memory that refuses updates or none. -/
theorem kept_begun (kept : Kept c s x) (current : x.inFlight = none) {next : Version} (made : Made c s next)
    (grown : x.acked.lineage <+: next.lineage) (done : ℕ) {disk : Disk Version}
    (left : disk = x.disk.performed next done ∨ disk = (x.disk.performed next done).discard) {mem : Option Version}
    (stopped : ∀ m, mem = some m → m.store.writeError ≠ none) :
    Kept c s { x with disk := disk, mem := mem, inFlight := some next } where
  acked := kept.acked
  settled absent := absurd absent nofun
  inFlight v same := by
    cases same
    have offers := (kept.settled current).performed next done
    refine ⟨?_, made, grown⟩
    rcases left with rfl | rfl
    · exact offers
    · exact offers.discard
  mem m same writable := absurd writable (stopped m same)

theorem kept_update (kept : Kept c s x) {mem : Version} (running : x.mem = some mem) (epochId : Result String)
    (edit : Edit) (fault : Option Fault) : Kept c s (x.update c mem epochId edit fault).1 := by
  unfold update
  cases staged : Store.stage c epochId mem.store edit with
  | error e => exact kept
  | ok done =>
    obtain ⟨next, ⟨⟩⟩ := done
    obtain ⟨settled, made, read⟩ := kept.mem mem running (Store.stage_eq_ok staged).1
    have saves : Made c s (mem.after next (.update epochId edit)) :=
      replay_concat made (by rw [Change.apply, staged]; rfl)
    cases fault with
    | none => exact kept_saved saves
    | some fault =>
      refine kept_begun kept settled saves (read.isPrefix.trans (List.prefix_append _ _)) _ (.inr rfl) ?_
      rintro m ⟨⟩
      exact nofun

theorem kept_crashIn (kept : Kept c s x) {mem : Version} (running : x.mem = some mem) (epochId : Result String)
    (edit : Edit) (done : ℕ) : Kept c s (x.crashIn c mem epochId edit done) := by
  unfold crashIn
  cases staged : Store.stage c epochId mem.store edit with
  | error e => exact { kept with mem := fun _ absent => absurd absent nofun }
  | ok result =>
    obtain ⟨next, ⟨⟩⟩ := result
    obtain ⟨settled, made, read⟩ := kept.mem mem running (Store.stage_eq_ok staged).1
    have saves : Made c s (mem.after next (.update epochId edit)) :=
      replay_concat made (by rw [Change.apply, staged]; rfl)
    exact kept_begun kept settled saves (read.isPrefix.trans (List.prefix_append _ _)) done (.inl rfl) nofun

theorem kept_mark (kept : Kept c s x) {mem : Version} (running : x.mem = some mem) (m : Mark) :
    Kept c s { x with mem := some (mem.after (m.apply mem.store) (.mark m)) } where
  acked := kept.acked
  settled := kept.settled
  inFlight := kept.inFlight
  mem after same writable := by
    cases same
    obtain ⟨settled, made, read⟩ := kept.mem mem running (Mark.writeError_apply writable)
    exact ⟨settled, replay_concat made rfl, read.after _ rfl⟩

/-- What a crash leaves, whole. -/
theorem Kept.crash (kept : Kept c s x) (reverted cut : Bool) : ∃ v, (x.disk.crash reverted cut).Settled v ∧
    Made c s v ∧ x.acked.lineage <+: v.lineage ∧ (v = x.acked ∨ x.inFlight = some v) := by
  cases flight : x.inFlight with
  | none => exact ⟨x.acked, (kept.settled flight).crash reverted cut, kept.acked, List.prefix_rfl, .inl rfl⟩
  | some v =>
    obtain ⟨offers, made, grown⟩ := kept.inFlight v flight
    rcases offers.crash reverted cut with old | new
    · exact ⟨x.acked, old, kept.acked, List.prefix_rfl, .inl rfl⟩
    · exact ⟨v, new, made, grown, .inr rfl⟩

/-- A process that may save. -/
def Writable (x : Sidecar) : Prop := ∀ m, x.mem = some m → m.store.writeError = none

/-- What opening completes extends the acknowledged state. -/
theorem complete_spec (kept : Kept c s x) (writable : x.Writable) (needed : Store → Bool) (f : Store → Store)
    (change : Change) (does : ∀ t, change.apply c t = some (f t)) (keeps : ∀ t, (f t).writeError = t.writeError)
    (fault : Option Fault) :
    Kept c s (x.complete needed f change fault) ∧ (x.complete needed f change fault).Writable ∧
      x.acked.lineage <+: (x.complete needed f change fault).acked.lineage := by
  unfold complete
  cases running : x.mem with
  | none => exact ⟨kept, writable, List.prefix_rfl⟩
  | some mem =>
    dsimp only
    split_ifs
    · exact ⟨kept, writable, List.prefix_rfl⟩
    · obtain ⟨settled, made, read⟩ := kept.mem mem running (writable mem running)
      have completes : Made c s (mem.after (f mem.store) change) := replay_concat made (does _)
      have grown := read.isPrefix.trans (List.prefix_append mem.lineage [change])
      cases fault with
      | none =>
        refine ⟨kept_saved completes, ?_, grown⟩
        rintro m ⟨⟩
        exact (keeps mem.store).trans (writable mem running)
      | some fault => exact ⟨kept_begun kept settled completes grown _ (.inr rfl) nofun, nofun, List.prefix_rfl⟩

theorem open_spec (kept : Kept c s x) (o : Opening) :
    Kept c s (x.open o) ∧ x.acked.lineage <+: (x.open o).acked.lineage := by
  obtain ⟨v, settled, made, grown, -⟩ := kept.crash o.reverted o.cut
  unfold «open»
  dsimp only
  rw [settled.file]
  dsimp only [Blob.whole]
  split_ifs
  · exact ⟨⟨made, fun _ => settled, nofun, nofun⟩, grown⟩
  · have opened : Kept c s ⟨x.disk.crash o.reverted o.cut, some (v.after v.store.reloaded .read), v, none⟩ := by
      refine ⟨made, fun _ => settled, nofun, ?_⟩
      rintro m ⟨⟩ -
      exact ⟨rfl, replay_concat made rfl, (Read.refl v).after _ rfl⟩
    have writable : Writable ⟨x.disk.crash o.reverted o.cut, some (v.after v.store.reloaded .read), v, none⟩ := by
      rintro m ⟨⟩
      rfl
    obtain ⟨named, still, extends_⟩ := complete_spec opened writable Daemon.isUnnamed
      (fun s => { s with bodyName := Pair.sanitizeName o.hostname }) (.name o.hostname) (fun _ => rfl) (fun _ => rfl)
      o.nameFault
    obtain ⟨keyed, -, further⟩ := complete_spec named still (fun s => s.ownerSk.isEmpty)
      (fun s => { s with ownerSk := o.seed }) (.key o.seed) (fun _ => rfl) (fun _ => rfl) o.seedFault
    exact ⟨keyed, (grown.trans extends_).trans further⟩

theorem update_grows (kept : Kept c s x) {mem : Version} (running : x.mem = some mem) (epochId : Result String)
    (edit : Edit) (fault : Option Fault) : x.acked.lineage <+: (x.update c mem epochId edit fault).1.acked.lineage := by
  unfold update
  cases staged : Store.stage c epochId mem.store edit with
  | error e => exact List.prefix_rfl
  | ok done =>
    obtain ⟨next, ⟨⟩⟩ := done
    have read := (kept.mem mem running (Store.stage_eq_ok staged).1).read
    cases fault with
    | none => exact read.isPrefix.trans (List.prefix_append _ _)
    | some fault => exact List.prefix_rfl

theorem step_spec (kept : Kept c s x) (move : Move) :
    Kept c s (x.step c move) ∧ x.acked.lineage <+: (x.step c move).acked.lineage := by
  unfold step
  split
  · next running => exact ⟨kept_update kept running _ _ _, update_grows kept running _ _ _⟩
  · next running =>
    refine ⟨kept_crashIn kept running _ _ _, ?_⟩
    unfold crashIn
    split <;> exact List.prefix_rfl
  · next running => exact ⟨kept_mark kept running _, List.prefix_rfl⟩
  · exact ⟨{ kept with mem := fun _ absent => absurd absent nofun }, List.prefix_rfl⟩
  · exact open_spec kept _
  · exact ⟨kept, List.prefix_rfl⟩

theorem run_spec (kept : Kept c s x) (moves : List Move) :
    Kept c s (x.run c moves) ∧ x.acked.lineage <+: (x.run c moves).acked.lineage := by
  induction moves generalizing x with
  | nil => exact ⟨kept, List.prefix_rfl⟩
  | cons move rest ih =>
    obtain ⟨next, grown⟩ := step_spec kept move
    obtain ⟨last, further⟩ := ih next
    exact ⟨last, grown.trans further⟩

/-- While a save is unacknowledged, only opening the file again changes anything saved. -/
theorem step_stopped (kept : Kept c s x) (stopped : x.inFlight ≠ none) (move : Move) (running : ∀ o, move ≠ .open o) :
    (x.step c move).disk = x.disk ∧ (x.step c move).acked = x.acked ∧ (x.step c move).inFlight = x.inFlight := by
  have refuses : ∀ m, x.mem = some m → m.store.writeError ≠ none :=
    fun m same writable => stopped (kept.mem m same writable).settled
  unfold step
  split
  · next epochId edit fault mem same =>
    obtain ⟨reason, refused⟩ := @Store.stage_stopped c _ epochId _ edit (refuses mem same)
    rw [update, refused]
    exact ⟨rfl, rfl, rfl⟩
  · next epochId edit done mem same =>
    obtain ⟨reason, refused⟩ := @Store.stage_stopped c _ epochId _ edit (refuses mem same)
    rw [crashIn, refused]
    exact ⟨rfl, rfl, rfl⟩
  · exact ⟨rfl, rfl, rfl⟩
  · exact ⟨rfl, rfl, rfl⟩
  · next opening _ => exact absurd rfl (running opening)
  · exact ⟨rfl, rfl, rfl⟩

/-- After any moves: an update that is refused before its save changes nothing; a crash leaves the whole of the last
acknowledged state, or of the one whose save was under way; a process that may save has the acknowledged state in
memory, read or changed in memory only, and after a failed save nothing but opening the file again changes what is
saved; and the changes that made an acknowledged state, every update that returned among them, stay part of what is
acknowledged later. -/
theorem durable_atomicity (c : Crypto) (s : Store) (moves : List Move) :
    let x := (installed s).run c moves
    (∀ mem epochId edit fault e, Store.stage c epochId mem.store edit = .error e →
      x.update c mem epochId edit fault = (x, .error e)) ∧
    (∀ reverted cut, (x.disk.crash reverted cut).Settled x.acked ∨
      ∃ v, x.inFlight = some v ∧ Made c s v ∧ x.acked.lineage <+: v.lineage ∧ (x.disk.crash reverted cut).Settled v) ∧
    (∀ mem, x.mem = some mem → mem.store.writeError = none → Current c s x mem ∧ x.disk.Settled x.acked) ∧
    (x.inFlight ≠ none → ∀ move, (∀ o, move ≠ .open o) → (x.step c move).disk = x.disk ∧
      (x.step c move).acked = x.acked ∧ (x.step c move).inFlight = x.inFlight) ∧
    (∀ mem epochId edit fault, x.mem = some mem → (x.update c mem epochId edit fault).2 = .ok () →
      (x.update c mem epochId edit fault).1.acked.lineage = mem.lineage ++ [.update epochId edit]) ∧
    ∀ more, Made c s (x.run c more).acked ∧ x.acked.lineage <+: (x.run c more).acked.lineage := by
  dsimp only
  have kept := (run_spec (kept_installed (c := c) s) moves).1
  generalize (installed s).run c moves = x at kept
  refine ⟨fun mem epochId edit fault e refused => by rw [update, refused], fun reverted cut => ?_,
    fun mem running writable => ?_, step_stopped kept, fun mem epochId edit fault running done => ?_, fun more => ?_⟩
  · obtain ⟨v, settled, made, grown, rfl | flight⟩ := kept.crash reverted cut
    · exact .inl settled
    · exact .inr ⟨v, flight, made, grown, settled⟩
  · have current := kept.mem mem running writable
    exact ⟨current, kept.settled current.settled⟩
  · unfold update at done ⊢
    cases staged : Store.stage c epochId mem.store edit with
    | error e =>
      rw [staged] at done
      cases done
    | ok result =>
      rw [staged] at done
      obtain ⟨next, ⟨⟩⟩ := result
      cases fault with
      | none => rfl
      | some fault => cases done
  · obtain ⟨later, grown⟩ := run_spec kept more
    exact ⟨later.acked, grown⟩

end Sidecar

end Clix
