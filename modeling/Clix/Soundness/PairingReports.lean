import Clix.Soundness.PairingAgreement

/-! # What a failed pairing says about trust

An attempt whose progress shows no trust saved nothing, and no listener it spoke to saved it: the listener
saves only after the joiner has. A call over many addresses goes on only after such attempts, so at most
its last one saved a peer.
-/

namespace Clix.Pairing

open Except

variable {c : Crypto} {w : WireFormat} {i j k : ℕ} {s t : Session} {d d' : State} {call : Call}

namespace Session

theorem deliver_of_ended (ended : s.stage.result?.isSome = true) (frame : Frame) (env : Env) :
    s.deliver c w i frame env = (s, []) := by
  unfold deliver
  cases stage : s.stage with
  | greeting | keyed | introduced => simp [stage, Stage.result?] at ended
  | ended => rfl

theorem interrupt_of_ended (ended : s.stage.result?.isSome = true) (e : ClixError) : s.interrupt e = s :=
  if_pos ended

end Session

namespace State

/-- Every step keeps the sessions there are, in place, and those that ended as they are. -/
structure Later (d d' : State) : Prop where
  kept : ∀ (i : ℕ) (s : Session), d.sessions[i]? = some s →
    ∃ s' : Session, d'.sessions[i]? = some s' ∧ s'.side = s.side
  ended : ∀ (i : ℕ) (s : Session), d.sessions[i]? = some s → s.stage.result?.isSome = true →
    d'.sessions[i]? = some s

theorem Later.of_eq (same : d'.sessions = d.sessions) : Later d d' :=
  ⟨fun _ s found => ⟨s, same ▸ found, rfl⟩, fun _ _ found _ => same ▸ found⟩

theorem Later.append {started : List Session} (same : d'.sessions = d.sessions ++ started) : Later d d' := by
  have still {i : ℕ} {s : Session} (found : d.sessions[i]? = some s) : d'.sessions[i]? = some s := by
    rw [same, List.getElem?_append_left (List.getElem?_eq_some_iff.mp found).1]
    exact found
  exact ⟨fun _ s found => ⟨s, still found, rfl⟩, fun _ _ found _ => still found⟩

theorem Later.set {s' : Session} (found : d.sessions[i]? = some s) (side : s'.side = s.side)
    (ended : s.stage.result?.isSome = true → s' = s) (same : d'.sessions = d.sessions.set i s') : Later d d' := by
  have bound : i < d.sessions.length := (List.getElem?_eq_some_iff.mp found).1
  refine ⟨fun k t there => ?_, fun k t there finished => ?_⟩
  · by_cases equal : i = k
    · subst equal
      rw [found] at there
      cases there
      exact ⟨s', by rw [same, List.getElem?_set_self bound], side⟩
    · exact ⟨t, by rw [same, List.getElem?_set_ne equal]; exact there, rfl⟩
  · by_cases equal : i = k
    · subst equal
      rw [found] at there
      cases there
      rw [same, List.getElem?_set_self bound, ended finished]
    · rw [same, List.getElem?_set_ne equal]
      exact there

theorem step_later (inv : Inv w d) (event : Event) : Later d (d.step c w event) := by
  cases event with
  | listen env code addr remote =>
    change Later d (d.begin c env .listener code addr remote)
    unfold begin
    split
    · exact .of_eq rfl
    · exact .append rfl
  | join env code dialed addr =>
    change Later d (d.begin c env .joiner code addr (some dialed))
    unfold begin
    split
    · exact .of_eq rfl
    · exact .append rfl
  | deliver i frame env =>
    change Later d (d.deliver c w i frame env)
    unfold deliver
    split
    · exact .of_eq rfl
    · next s found =>
      split_ifs with held
      · exact .of_eq rfl
      · refine .set found ?_ (fun finished => ?_) rfl
        · exact ((Session.deliver_move rfl).own (inv.own i s found)).2.side
        · rw [Session.deliver_of_ended finished]
  | interrupt i e =>
    change Later d (d.interrupt i e)
    unfold interrupt
    split
    · exact .of_eq rfl
    · next s found =>
      refine .set found ?_ (fun finished => Session.interrupt_of_ended finished e) rfl
      exact congrArg View.side (Session.view_interrupt s e)
  | call code addr candidates => exact .of_eq rfl
  | dial k connected =>
    change Later d (d.dial c k connected)
    unfold dial
    repeat' split
    any_goals exact .of_eq rfl
    exact .append rfl
  | next k pinned =>
    change Later d (d.next k pinned)
    unfold next
    repeat' split
    all_goals exact .of_eq rfl

/-- An attempt that ended without trust. -/
def Untrusted (d : State) (i : ℕ) : Prop :=
  ∃ s : Session, d.sessions[i]? = some s ∧ s.side = .joiner ∧ s.stage.result?.isSome = true ∧
    s.progress.trustMayExist = false

theorem Untrusted.later (untrusted : d.Untrusted i) (later : Later d d') : d'.Untrusted i := by
  obtain ⟨s, found, side, ended, flag⟩ := untrusted
  exact ⟨s, later.ended i s found ended, side, ended, flag⟩

/-- Every attempt of a call but its last ended without trust, and so did the last one while the call goes
on or reports no trust. -/
structure Careful (d : State) (call : Call) : Prop where
  attempt : ∀ i, call.attempt = some i → call.result = none
  latest : ∀ i, call.attempt = some i → ∃ s : Session, d.sessions[i]? = some s ∧ s.side = .joiner
  fresh : ∀ i, call.attempt = some i → i ∉ call.tried
  nodup : call.tried.Nodup
  tried : call.result.any (·.2) = false → ∀ i ∈ call.tried, d.Untrusted i
  ended : call.result.any (·.2) = true → ∃ i rest, call.tried = i :: rest ∧
    (∃ s : Session, d.sessions[i]? = some s ∧ s.side = .joiner) ∧ ∀ i' ∈ rest, d.Untrusted i'

theorem Careful.later (careful : d.Careful call) (later : Later d d') : d'.Careful call := by
  refine ⟨careful.attempt, fun i now => ?_, careful.fresh, careful.nodup,
    fun quiet i member => (careful.tried quiet i member).later later, fun finished => ?_⟩
  · obtain ⟨s, found, side⟩ := careful.latest i now
    obtain ⟨s', found', same⟩ := later.kept i s found
    exact ⟨s', found', same.trans side⟩
  · obtain ⟨i, rest, split, ⟨s, found, side⟩, others⟩ := careful.ended finished
    obtain ⟨s', found', same⟩ := later.kept i s found
    exact ⟨i, rest, split, ⟨s', found', same.trans side⟩, fun i' member => (others i' member).later later⟩

def Calls (d : State) : Prop := ∀ (k : ℕ) (call : Call), d.calls[k]? = some call → d.Careful call

/-- A step that changes one call, or none. -/
theorem Calls.set (calls : d.Calls) (later : Later d d') {next : Call} (same : d'.calls = d.calls.set k next)
    (careful : d'.Careful next) : d'.Calls := by
  intro k' call found
  rw [same] at found
  by_cases equal : k = k'
  · subst equal
    rw [List.getElem?_set] at found
    simp only [if_true] at found
    split_ifs at found
    cases found
    exact careful
  · rw [List.getElem?_set_ne equal] at found
    exact (calls k' call found).later later

theorem Calls.of_eq (calls : d.Calls) (later : Later d d') (same : d'.calls = d.calls) : d'.Calls :=
  fun k call found => (calls k call (same ▸ found)).later later

/-- A session of a joiner that is begun. -/
theorem begun_joiner {env : Env} {code addr : String} {fallback : Option String} {started : Session × List Frame}
    (success : Session.start c env .joiner code addr fallback i = .ok started) : started.1.side = .joiner := by
  rw [Session.start, bind_eq_ok] at success
  obtain ⟨here, -, success⟩ := success
  cases success
  exact congrArg View.side (Session.view_afterWrite ⟨.joiner, here, code, fallback, .greeting, .default, none⟩ env)

theorem calls_dial (calls : d.Calls) (k : ℕ) (connected : Result Env) (later : Later d (d.dial c k connected)) :
    (d.dial c k connected).Calls := by
  unfold dial at later ⊢
  split at later
  · exact calls
  · next call found =>
    have careful := calls k call found
    split_ifs at later ⊢ with finished
    · exact calls
    · rw [not_or, Bool.not_eq_true, Option.isSome_eq_false_iff, Option.isNone_iff_eq_none, Bool.not_eq_true,
        Option.isSome_eq_false_iff, Option.isNone_iff_eq_none] at finished
      obtain ⟨open_, idle⟩ := finished
      have quiet : ∀ i ∈ call.tried, d.Untrusted i := careful.tried (by rw [open_]; rfl)
      split at later
      · refine calls.set later rfl ⟨fun i now => ?_, fun i now => ?_, fun i now => ?_, careful.nodup,
          fun _ => quiet, fun finished => ?_⟩
        · exact absurd (idle.symm.trans now) (by simp)
        · exact absurd (idle.symm.trans now) (by simp)
        · exact absurd (idle.symm.trans now) (by simp)
        · exact absurd finished (by simp)
      · next dialed rest waiting =>
        split at later
        · refine calls.set later rfl ⟨fun i now => ?_, fun i now => ?_, fun i now => ?_, careful.nodup,
            fun _ => quiet, fun finished => ?_⟩
          · exact open_
          · exact absurd (idle.symm.trans now) (by simp)
          · exact absurd (idle.symm.trans now) (by simp)
          · exact absurd finished (by rw [open_]; simp)
        · next started success =>
          rw [bind_eq_ok] at success
          obtain ⟨env, -, success⟩ := success
          refine calls.set later rfl ⟨fun i now => open_, fun i now => ?_, fun i now member => ?_, careful.nodup,
            fun _ i member => (quiet i member).later later, fun finished => ?_⟩
          · cases now
            refine ⟨started.1, ?_, begun_joiner success⟩
            change (d.sessions ++ [started.1])[d.sessions.length]? = some started.1
            rw [List.getElem?_append_right (le_refl _), Nat.sub_self]
            rfl
          · cases now
            obtain ⟨s, found, -⟩ := quiet _ member
            exact absurd (List.getElem?_eq_some_iff.mp found).1 (lt_irrefl _)
          · exact absurd finished (by rw [open_]; simp)

theorem calls_next (calls : d.Calls) (k : ℕ) (pinned : Result Unit) (later : Later d (d.next k pinned)) :
    (d.next k pinned).Calls := by
  unfold next at later ⊢
  split at later
  · exact calls
  · next call found =>
    have careful := calls k call found
    split at later
    · exact calls
    · next i now =>
      have open_ := careful.attempt i now
      have quiet : ∀ i ∈ call.tried, d.Untrusted i := careful.tried (by rw [open_]; rfl)
      obtain ⟨t, there, side⟩ := careful.latest i now
      split at later
      · exact calls
      · next s present =>
        obtain rfl : t = s := Option.some.inj (there.symm.trans present)
        have distinct : (i :: call.tried).Nodup := List.nodup_cons.mpr ⟨careful.fresh i now, careful.nodup⟩
        -- The attempt ends the call when trust exists or may exist, and only then.
        have done (result : Option (Result Peer × Bool)) (last : Option ClixError) (waiting : List String)
            (finished : result.any (·.2) = true) (later : Later d (d.setCall k ⟨call.code, call.addr, waiting, none,
              i :: call.tried, last, result⟩)) :
            (d.setCall k ⟨call.code, call.addr, waiting, none, i :: call.tried, last, result⟩).Calls := by
          refine calls.set later rfl ⟨fun _ now => ?_, fun _ now => ?_, fun _ now => ?_, distinct,
            fun quiet => ?_, fun _ => ⟨i, call.tried, rfl, ⟨t, there, side⟩, quiet⟩⟩
          · cases now
          · cases now
          · cases now
          · exact absurd (finished.symm.trans quiet) (by simp)
        split at later
        · exact calls
        · exact done _ _ _ rfl later
        · next e ended =>
          split_ifs at later ⊢ with flag
          · exact done _ _ _ rfl later
          · refine calls.set later rfl ⟨fun _ now => ?_, fun _ now => ?_, fun _ now => ?_, distinct,
              fun _ i' member => ?_, fun finished => ?_⟩
            · cases now
            · cases now
            · cases now
            · rcases List.mem_cons.mp member with rfl | before
              · exact ⟨t, there, side, by rw [ended]; rfl, by simpa using flag⟩
              · exact quiet i' before
            · exact absurd finished (by rw [open_]; simp)

theorem step_calls (inv : Inv w d) (calls : d.Calls) (event : Event) : (d.step c w event).Calls := by
  have later := step_later (c := c) inv event
  cases event with
  | listen env code addr remote =>
    refine calls.of_eq later ?_
    change (d.begin c env .listener code addr remote).calls = d.calls
    unfold begin
    split <;> rfl
  | join env code dialed addr =>
    refine calls.of_eq later ?_
    change (d.begin c env .joiner code addr (some dialed)).calls = d.calls
    unfold begin
    split <;> rfl
  | deliver i frame env =>
    refine calls.of_eq later ?_
    change (d.deliver c w i frame env).calls = d.calls
    unfold deliver
    split
    · rfl
    · split_ifs <;> rfl
  | interrupt i e =>
    refine calls.of_eq later ?_
    change (d.interrupt i e).calls = d.calls
    unfold interrupt
    split <;> rfl
  | call code addr candidates =>
    intro k call found
    change (d.calls ++ [_])[k]? = some call at found
    rw [List.getElem?_append] at found
    split_ifs at found
    · exact (calls k call found).later later
    · rw [List.getElem?_singleton] at found
      split_ifs at found
      cases found
      refine ⟨fun _ now => ?_, fun _ now => ?_, fun _ now => ?_, List.nodup_nil,
        fun _ _ member => absurd member List.not_mem_nil, fun finished => absurd finished (by simp)⟩
      · cases now
      · cases now
      · cases now
  | dial k connected => exact calls_dial calls k connected later
  | next k pinned => exact calls_next calls k pinned later

theorem calls_run (c : Crypto) (w : WireFormat) (events : List Event) : (run c w events).Calls := by
  induction events using List.reverseRecOn with
  | nil => exact fun _ _ found => absurd found (by simp [run, empty])
  | append_singleton events event ih =>
    rw [run, List.foldl_concat]
    exact step_calls (inv_run c w events) ih event

/-- Nobody saved anything in an attempt: neither the joiner, nor a listener that answered it. -/
def NothingSaved (d : State) (i : ℕ) : Prop :=
  (∀ s : Session, d.sessions[i]? = some s → s.saved = none) ∧
    ∀ (j : ℕ) (t : Session), d.sessions[j]? = some t → t.side = .listener →
      (∃ key, t.stage.key? = some key ∧ key.a = .own i) → t.saved = none

/-- Without a trace of trust in its progress, an attempt saved nothing on either machine. -/
theorem Inv.nothingSaved (inv : Inv w d) (found : d.sessions[i]? = some s)
    (flag : s.progress.trustMayExist = false) : d.NothingSaved i := by
  have unsaved : s.saved = none := by
    by_contra saved
    obtain ⟨peer, kept⟩ := Option.ne_none_iff_exists'.mp saved
    obtain ⟨-, -, -, -, named⟩ := (inv.own i s found).saved peer kept
    rw [Progress.trustMayExist, Bool.or_eq_false_iff] at flag
    exact absurd (named.symm.trans flag.1) (by simp)
  refine ⟨fun s' found' => ?_, fun j t there listener ⟨key, keyed, answered⟩ => ?_⟩
  · rw [found] at found'
    cases found'
    exact unsaved
  · by_contra saved
    obtain ⟨i', t', there', side, same, -, -, stored, -⟩ := inv.agreed j t there listener saved
    have mine : key.a = .own i' := (inv.own i' t' there').joiner key (same.trans keyed) side
    obtain rfl : i = i' := PakeMsg.own.inj (answered.symm.trans mine)
    rw [found] at there'
    cases there'
    rw [unsaved] at stored
    cases stored

theorem Untrusted.nothingSaved (inv : Inv w d) (untrusted : d.Untrusted i) : d.NothingSaved i := by
  obtain ⟨s, found, -, -, flag⟩ := untrusted
  exact inv.nothingSaved found flag

/-- Pairing reports trust honestly. An attempt that fails with no trust to report saved nothing, here or
on a listener it spoke to; a call that tries many addresses goes on only after such attempts, saves at most
one peer, and reports no trust only when none of its attempts saved anything. -/
theorem pairing_reports (c : Crypto) (w : WireFormat) (events : List Event) :
    (∀ (i : ℕ) (s : Session) (e : ClixError), (run c w events).sessions[i]? = some s → s.side = .joiner →
      s.stage.result? = some (.error e) → s.progress.trustMayExist = false →
      (run c w events).NothingSaved i) ∧
    ∀ (k : ℕ) (call : Call), (run c w events).calls[k]? = some call →
      (∀ i ∈ (call.attempt.toList ++ call.tried).tail, (run c w events).NothingSaved i) ∧
      (∀ i ∈ call.attempt.toList ++ call.tried, ∀ i' ∈ call.attempt.toList ++ call.tried,
        ¬(run c w events).NothingSaved i → ¬(run c w events).NothingSaved i' → i = i') ∧
      ∀ e, call.result = some (.error e, false) →
        ∀ i ∈ call.attempt.toList ++ call.tried, (run c w events).NothingSaved i := by
  have inv := inv_run c w events
  have calls := calls_run c w events
  generalize run c w events = d at inv calls ⊢
  refine ⟨fun i s e found _ _ flag => inv.nothingSaved found flag, fun k call found => ?_⟩
  have careful := calls k call found
  have before : ∀ i ∈ (call.attempt.toList ++ call.tried).tail, d.NothingSaved i := by
    intro i member
    cases now : call.attempt with
    | some latest =>
      rw [now] at member
      have open_ := careful.attempt latest now
      exact (careful.tried (by rw [open_]; rfl) i member).nothingSaved inv
    | none =>
      rw [now] at member
      cases finished : call.result.any (·.2) with
      | false => exact (careful.tried finished i (List.mem_of_mem_tail member)).nothingSaved inv
      | true =>
        obtain ⟨last, rest, split, -, others⟩ := careful.ended finished
        rw [split] at member
        exact (others i member).nothingSaved inv
  refine ⟨before, fun i member i' member' saved saved' => ?_, fun e result i member => ?_⟩
  · cases all : call.attempt.toList ++ call.tried with
    | nil => rw [all] at member; exact absurd member List.not_mem_nil
    | cons first rest =>
      rw [all] at member member' before
      have only (i : ℕ) (member : i ∈ first :: rest) (saved : ¬d.NothingSaved i) : i = first := by
        rcases List.mem_cons.mp member with same | later
        · exact same
        · exact absurd (before i later) saved
      rw [only i member saved, only i' member' saved']
  · have idle : call.attempt = none := by
      cases now : call.attempt with
      | none => rfl
      | some latest => exact absurd ((careful.attempt latest now).symm.trans result) (by simp)
    rw [idle] at member
    exact (careful.tried (by rw [result]; rfl) i member).nothingSaved inv

end State

end Clix.Pairing
