import Clix.Proofs.Mail
import Clix.Proofs.Reachable

/-! # An owner decides about the request they saw

A request that an owner decides about was made after every owner decision about its tool that the machine knows of.
No decision about it succeeds a second time, and one that succeeds changes the grant and the requests of its tool only.
-/

namespace Clix

open Except DurableCell

/-- Two stores have the same grants and requests of other tools. -/
structure Store.OtherTools (key : String) (s t : Store) : Prop where
  grants : t.grants.filter (fun g => g.tool != key) = s.grants.filter (fun g => g.tool != key)
  requests : t.requests.filter (fun r => Grant.toolKey r.tool != key) =
    s.requests.filter (fun r => Grant.toolKey r.tool != key)

/-- Two stores differ in grants, requests and what an update publishes and prunes at most. -/
def Store.Decided (s t : Store) : Prop :=
  t.desk.rows = s.desk.rows ∧ t = { s with
    grants := t.grants
    requests := t.requests
    jobs := t.jobs
    history := t.history
    jobCertificates := t.jobCertificates
    legacyJobs := t.legacyJobs
    outputPruned := t.outputPruned
    historyPruned := t.historyPruned
    formatVersion := t.formatVersion }

namespace Request

variable {fs : FileSystem} {s t : Store} {id : String} {decision : Decision} {g : Option Grant}

/-- A decision is about a request that is pending, and about its tool only. -/
theorem decide_eq_ok (success : decide fs s id decision = .ok (t, g)) :
    ∃ request ∈ s.requests, request.id = id ∧ t = { s with grants := t.grants, requests := t.requests } ∧
      s.OtherTools (Grant.toolKey request.tool) t ∧
      ((s.requests.map (·.id)).Nodup → ∀ r ∈ t.requests, r.id ≠ id) := by
  unfold decide at success
  split at success
  · cases success
  next request found =>
  have member := List.mem_of_find?_eq_some found
  have named := List.find?_some found
  simp only [Bool.and_eq_true, beq_iff_eq, bne_iff_ne] at named
  split at success
  · rw [bind_eq_ok] at success
    obtain ⟨allow, -, success⟩ := success
    rw [bind_eq_ok] at success
    obtain ⟨built, made, success⟩ := success
    rw [refuseIf_bind_eq_ok] at success
    cases success.2
    have tool : built.tool = Grant.toolKey request.tool := by
      unfold Grant.build at made
      rw [bind_eq_ok] at made
      obtain ⟨⟨⟩, -, made⟩ := made
      rw [refuseIf_bind_eq_ok] at made
      obtain ⟨-, made⟩ := made
      rw [bind_eq_ok] at made
      obtain ⟨⟨⟩, -, made⟩ := made
      rw [bind_eq_ok] at made
      obtain ⟨binary, -, made⟩ := made
      rw [bind_eq_ok] at made
      obtain ⟨⟨⟩, -, made⟩ := made
      cases made
      rfl
    refine ⟨request, member, named.1, rfl, ⟨?_, ?_⟩, fun distinct r there same => ?_⟩
    · unfold Grant.commit Grant.invalidateRequests
      dsimp only
      rw [List.filter_append, List.filter_filter, ← tool]
      simp
    · unfold Grant.commit Grant.invalidateRequests
      dsimp only
      rw [List.filter_filter, ← tool]
      simp
    · obtain ⟨old, kept⟩ := List.mem_filter.mp there
      have one := List.inj_on_of_nodup_map distinct old member (same.trans named.1.symm)
      rw [one, ← tool] at kept
      simp at kept
  · cases success
    have first : s.requests.find? (fun r => r.id == id) = some request := by
      rw [← found]
      congr 1
      funext r
      simp [named.2]
    obtain ⟨before, after, same, erased⟩ := List.eraseP_of_find? first
    refine ⟨request, member, named.1, rfl, ⟨rfl, ?_⟩, fun distinct r there same => ?_⟩
    · dsimp only
      rw [erased, same]
      simp
    · exact (List.mem_eraseP_key Request.id distinct there).2 same

end Request

namespace Daemon

variable {c : Crypto} {epoch hostname : String} {seed : Bytes}

/-- The random identifiers that the events of a run draw. -/
def drawn (events : List (Env × Event)) : List String := events.filterMap (fun e => e.1.newId.toOption)

theorem mem_drawn {events : List (Env × Event)} {id : String} :
    id ∈ drawn events ↔ ∃ e ∈ events, e.1.newId = .ok id := by
  rw [drawn, List.mem_filterMap]
  refine exists_congr fun e => and_congr_right fun _ => ?_
  cases e.1.newId with
  | error _ => exact ⟨nofun, nofun⟩
  | ok made => exact ⟨fun same => congrArg Except.ok (Option.some.inj same), fun same => congrArg some (Except.ok.inj same)⟩

/-- A request under an identifier was made by an event of a run, and no owner decision about its tool is newer. -/
def Born (c : Crypto) (epoch hostname : String) (seed : Bytes) (events : List (Env × Event)) (acts : List Act)
    (id tool : String) : Prop :=
  ∃ earlier e later, events = earlier ++ e :: later ∧ e.1.newId = .ok id ∧
    ∃ newer, acts = newer ++ (reach c epoch hostname seed earlier).acts ∧
      ∀ grant, .owner (Grant.toolKey tool) grant ∉ newer

/-- Each pending request of an image was made by an event. -/
def AllBorn (c : Crypto) (epoch hostname : String) (seed : Bytes) (events : List (Env × Event)) (i : Image) : Prop :=
  ∀ r ∈ i.store.requests, Born c epoch hostname seed events i.acts r.id r.tool

variable {events : List (Env × Event)} {e : Env × Event} {i j : Image}

theorem Born.later {acts : List Act} {id tool : String} (born : Born c epoch hostname seed events acts id tool)
    (new : List Act) (none : ∀ grant, .owner (Grant.toolKey tool) grant ∉ new) :
    Born c epoch hostname seed (events ++ [e]) (new ++ acts) id tool := by
  obtain ⟨earlier, made, later, rfl, drawn, newer, rfl, current⟩ := born
  refine ⟨earlier, made, later ++ [e], by simp, drawn, new ++ newer, by simp, fun grant member => ?_⟩
  exact (List.mem_append.mp member).elim (none grant) (current grant)

/-- Every pending request was made by some event, after every newer owner decision about its tool. -/
theorem everywhere_born (events : List (Env × Event)) :
    Everywhere (AllBorn c epoch hostname seed events) (reach c epoch hostname seed events).cell := by
  induction events using List.reverseRecOn with
  | nil =>
    refine (everywhere_unsent c epoch hostname seed).mono (fun i none r member => ?_)
    have empty : i.store.requests = [] := congrArg Mail.requests none
    rw [empty] at member
    cases member
  | append_singleton events e ih =>
    rw [reach_concat]
    have moves : Moves e _ _ := moves_step (c := c) (reach c epoch hostname seed events) e
    refine (everywhere_moves moves).mono (fun i from' r member => ?_)
    rw [everywhere_iff] at ih
    rcases from' with ⟨old, here, mail, acts⟩ | ⟨⟨⟨added, few, rows⟩, -, -, -⟩, new, acts, cleared⟩
    · have requests : i.store.requests = old.store.requests := congrArg Mail.requests mail
      rw [acts]
      exact (ih old here r (requests ▸ member)).later [] (fun _ => List.not_mem_nil)
    · rw [acts]
      have current : ∀ grant, .owner (Grant.toolKey r.tool) grant ∉ new :=
        fun grant there => cleared _ grant there r member rfl
      obtain ⟨old, there, same⟩ := List.mem_map.mp (rows.subset (List.mem_map_of_mem member))
      obtain ⟨id, rest⟩ := Prod.mk.inj same
      obtain ⟨-, tool⟩ := Prod.mk.inj rest
      rcases List.mem_append.mp there with before | made
      · exact id ▸ tool ▸ (ih _ (.inl rfl) old before).later new (tool ▸ current)
      · rcases few with rfl | ⟨x, rfl, drawn⟩
        · cases made
        · obtain rfl := List.mem_singleton.mp made
          exact ⟨events, e, [], rfl, id ▸ drawn, new, rfl, current⟩

theorem Born.drawn {acts : List Act} {id tool : String} (born : Born c epoch hostname seed events acts id tool) :
    id ∈ Daemon.drawn events := by
  obtain ⟨earlier, e, later, rfl, drawn, -⟩ := born
  exact mem_drawn.mpr ⟨e, by simp, drawn⟩

/-- Identifiers of pending requests are distinct while random identifiers do not repeat. -/
theorem everywhere_distinct (events : List (Env × Event)) (fresh : (drawn events).Nodup) :
    Everywhere (Image.Being fun s => (s.requests.map Request.id).Nodup) (reach c epoch hostname seed events).cell := by
  induction events using List.reverseRecOn with
  | nil =>
    refine (everywhere_unsent c epoch hostname seed).mono (fun i none => ?_)
    have empty : i.store.requests = [] := congrArg Mail.requests none
    change (i.store.requests.map Request.id).Nodup
    rw [empty]
    exact List.nodup_nil
  | append_singleton events e ih =>
    rw [drawn, List.filterMap_append, List.nodup_append] at fresh
    obtain ⟨before, -, apart⟩ := fresh
    rw [reach_concat]
    have moves : Moves e _ _ := moves_step (c := c) (reach c epoch hostname seed events) e
    have born : Everywhere (AllBorn c epoch hostname seed events) _ := everywhere_born events
    refine (everywhere_moves moves).mono (fun i from' => ?_)
    have ih := everywhere_iff.mp (ih before)
    change (i.store.requests.map Request.id).Nodup
    rcases from' with ⟨old, here, mail, -⟩ | ⟨⟨⟨added, few, rows⟩, -, -, -⟩, -⟩
    · have requests : i.store.requests = old.store.requests := congrArg Mail.requests mail
      rw [requests]
      exact ih old here
    · have ids := rows.map Prod.fst
      simp only [List.map_map] at ids
      refine List.Nodup.sublist ids ?_
      rw [List.map_append, List.nodup_append]
      refine ⟨ih _ (.inl rfl), ?_, fun id old id' made same => ?_⟩
      · rcases few with rfl | ⟨x, rfl, -⟩ <;> simp
      · rcases few with rfl | ⟨x, rfl, drawn⟩
        · cases made
        · obtain ⟨r, member, rfl⟩ := List.mem_map.mp old
          obtain rfl : id' = x.id := List.mem_singleton.mp made
          have known := (born.1 r member).drawn
          refine apart _ known _ (mem_drawn.mpr ⟨e, List.mem_singleton_self e, drawn⟩) same

/-- A request that is gone stays gone while its identifier is not drawn again. -/
theorem everywhere_gone {d : Daemon} {id : String}
    (gone : Everywhere (Image.Being fun s => ∀ r ∈ s.requests, r.id ≠ id) d.cell) (events : List (Env × Event))
    (undrawn : id ∉ drawn events) :
    Everywhere (Image.Being fun s => ∀ r ∈ s.requests, r.id ≠ id) (d.run c events).cell := by
  induction events using List.reverseRecOn with
  | nil => exact gone
  | append_singleton events e ih =>
    rw [drawn, List.filterMap_append, List.mem_append, not_or] at undrawn
    rw [run_concat]
    have moves : Moves e _ _ := moves_step (c := c) (d.run c events) e
    have ih := everywhere_iff.mp (ih undrawn.1)
    refine (everywhere_moves moves).mono (fun i from' r member => ?_)
    rcases from' with ⟨old, here, mail, -⟩ | ⟨⟨⟨added, few, rows⟩, -, -, -⟩, -⟩
    · have requests : i.store.requests = old.store.requests := congrArg Mail.requests mail
      exact ih old here r (requests ▸ member)
    · obtain ⟨old, there, same⟩ := List.mem_map.mp (rows.subset (List.mem_map_of_mem member))
      rw [← (Prod.mk.inj same).1]
      rcases List.mem_append.mp there with before | made
      · exact ih _ (.inl rfl) old before
      · rcases few with rfl | ⟨x, rfl, draws⟩
        · cases made
        · obtain rfl := List.mem_singleton.mp made
          rintro rfl
          exact undrawn.2 (mem_drawn.mpr ⟨e, List.mem_singleton_self e, draws⟩)

/-- The update of an owner decision, and its answer. -/
def decided (c : Crypto) (env : Env) (d : Daemon) (id : String) (decision : Request.Decision) :
    Daemon × Result (Option Grant) :=
  d.update c env.epochId env.fault (fun s => Request.decide env.fs s id decision) owned

/-- After a failed update nothing has changed in memory, but for an error of the storage. Only a failure after the
rename leaves a changed file. -/
def Unchanged (d d' : Daemon) (fault : Option Fault) : Prop :=
  d' = d ∨ ∃ f, fault = some f ∧ d' = { d with cell := d'.cell } ∧ d'.acts = d.acts ∧
    d'.store = { d.store with writeError := some f.error.text } ∧
    (f.step ≠ .syncDirectory → d'.cell.file = d.cell.file ∧ d'.cell.replaced = d.cell.replaced)

theorem update_error {α : Type} {d : Daemon} {epochId : Result String} {fault : Option Fault}
    {edit : Store → Result (Store × α)} {acts : α → List Act} {e : ClixError}
    (failed : (d.update c epochId fault edit acts).2 = .error e) :
    Unchanged d (d.update c epochId fault edit acts).1 fault := by
  rcases update_cases (d := d) (c := c) epochId fault edit acts with ⟨_, same⟩ | ⟨next, value, -, same⟩
  · rw [same]
    exact .inl rfl
  · rw [same] at failed ⊢
    cases fault with
    | none => cases failed
    | some f =>
      obtain ⟨call, error⟩ := f
      refine .inr ⟨_, rfl, rfl, ?_, ?_, fun early => ?_⟩
      · cases call <;> rfl
      · cases call <;> rfl
      · cases call <;> first | exact absurd rfl early | exact ⟨rfl, rfl⟩

/-- What a decision that succeeded has saved. -/
theorem decided_eq_ok {d : Daemon} {env : Env} {id : String} {decision : Request.Decision} {g : Option Grant}
    (success : (d.decided c env id decision).2 = .ok g) : ∃ next,
    (∃ t, Request.decide env.fs d.store id decision = .ok (t, g) ∧ t.Decided next ∧ next.grants = t.grants ∧
      next.mail = t.mail) ∧
      (d.decided c env id decision).1 = { d with cell := ⟨⟨next, owned g ++ d.acts⟩, ⟨next, owned g ++ d.acts⟩, none⟩ } := by
  unfold decided at success ⊢
  rcases update_cases (d := d) (c := c) env.epochId env.fault (fun s => Request.decide env.fs s id decision) owned with
    ⟨_, same⟩ | ⟨next, value, staged, same⟩
  · rw [same] at success
    cases success
  · rw [same] at success ⊢
    cases fault : env.fault with
    | some f =>
      rw [fault] at success
      cases success
    | none =>
      rw [fault] at success
      obtain rfl : value = g := Except.ok.inj success
      obtain ⟨edited, ran, mail⟩ := Store.stage_mail staged
      obtain ⟨-, again, refreshed, ran', published, fits, -⟩ := Store.stage_eq_ok staged
      rw [ran] at ran'
      cases ran'
      have one := History.refreshOwned_samePublished published
      have two := History.normalizeOutput_samePruned { refreshed with formatVersion := Store.formatVersionNow }
      have three := Storage.evict_samePruned (Storage.prepare_eq_ok fits).2.1
      have desk := (three.desk.trans two.desk).trans one.desk
      refine ⟨next, ⟨edited, ran, ⟨congrArg Desk.rows desk, ?_⟩, congrArg Desk.grants desk, mail⟩, rfl⟩
      rw [three.frame, two.frame, one]

/-- An owner decision is about a request that no owner decision about its tool is newer than, and changes the grant
and the requests of this tool only. No other decision about that request succeeds. One that fails changes nothing. -/
theorem decisions_current (before after : List (Env × Event)) (env : Env) (id : String) (decision : Request.Decision)
    (fresh : (drawn (before ++ (env, .decide id decision) :: after)).Nodup) :
    (∀ g, (reach c epoch hostname seed before).live = true →
      ((reach c epoch hostname seed before).decided c env id decision).2 = .ok g →
      (∃ request ∈ (reach c epoch hostname seed before).store.requests, request.id = id ∧
        Born c epoch hostname seed before (reach c epoch hostname seed before).acts id request.tool ∧
        (reach c epoch hostname seed before).store.OtherTools (Grant.toolKey request.tool)
          (reach c epoch hostname seed (before ++ [(env, .decide id decision)])).store ∧
        (reach c epoch hostname seed before).store.Decided
          (reach c epoch hostname seed (before ++ [(env, .decide id decision)])).store) ∧
      ∀ between env' decision' rest, after = between ++ (env', .decide id decision') :: rest → ∀ g',
        ((reach c epoch hostname seed (before ++ (env, .decide id decision) :: between)).decided c env' id decision').2 ≠
          .ok g') ∧
    ∀ e, ((reach c epoch hostname seed before).decided c env id decision).2 = .error e →
      Unchanged (reach c epoch hostname seed before) ((reach c epoch hostname seed before).decided c env id decision).1
        env.fault := by
  refine ⟨fun g live success => ?_, fun e failed => update_error failed⟩
  obtain ⟨next, ⟨t, ran, saved, grants, mail⟩, made⟩ := decided_eq_ok success
  obtain ⟨request, member, named, frame, others, gone⟩ := Request.decide_eq_ok ran
  have stepped : (reach c epoch hostname seed (before ++ [(env, .decide id decision)])).cell =
      ⟨⟨next, owned g ++ (reach c epoch hostname seed before).acts⟩,
        ⟨next, owned g ++ (reach c epoch hostname seed before).acts⟩, none⟩ := by
    rw [reach_concat, step, live, if_pos rfl]
    exact congrArg Daemon.cell made
  have store : (reach c epoch hostname seed (before ++ [(env, .decide id decision)])).store = next :=
    congrArg (fun cell => cell.mem.store) stepped
  have requests : next.requests = t.requests := congrArg Mail.requests mail
  have born : AllBorn c epoch hostname seed before _ := (everywhere_born before).1
  rw [drawn, List.filterMap_append, List.nodup_append] at fresh
  obtain ⟨fresh, -, apart⟩ := fresh
  refine ⟨⟨request, member, named, named ▸ born request member, ?_, ?_⟩, ?_⟩
  · rw [store]
    exact ⟨grants ▸ others.grants, requests ▸ others.requests⟩
  · rw [store]
    obtain ⟨rows, same⟩ := saved
    refine ⟨rows.trans (congrArg (fun s => s.desk.rows) frame), ?_⟩
    rw [same, frame]
  · rintro between env' decision' rest rfl g' again
    have distinct : ((reach c epoch hostname seed before).store.requests.map Request.id).Nodup :=
      (everywhere_distinct before fresh).1
    have cleared : Everywhere (Image.Being fun s => ∀ r ∈ s.requests, r.id ≠ id)
        (reach c epoch hostname seed (before ++ [(env, .decide id decision)])).cell := by
      rw [stepped]
      have here : ∀ r ∈ next.requests, r.id ≠ id := requests ▸ gone distinct
      exact ⟨here, here, nofun⟩
    have undrawn : id ∉ drawn between := by
      intro there
      refine apart id (named ▸ (born request member).drawn) id ?_ rfl
      rw [← drawn, mem_drawn]
      obtain ⟨e, inside, draws⟩ := mem_drawn.mp there
      exact ⟨e, by simp [inside], draws⟩
    have later := (everywhere_gone (c := c) cleared between undrawn).1
    rw [← reach_append, List.append_assoc, List.singleton_append] at later
    obtain ⟨-, ⟨u, ran', -⟩, -⟩ := decided_eq_ok again
    obtain ⟨other, there, same, -⟩ := Request.decide_eq_ok ran'
    exact later other there same

end Daemon

namespace DecisionExample

set_option maxRecDepth 40000

def crypto : Crypto := Crypto.transparent

/-- What a step reads that draws some identifier. -/
def env (newId : Result String) : Env where
  now := ⟨0, .mon, 0, 0⟩
  newId := newId
  epochId := .ok "epoch"
  fs := ⟨fun tool => .ok ("/bin/" ++ tool), .ok⟩
  fault := none
  meshBusy := false

def quiet : Env := env (.error .unreachable)

/-- Bob starts, and asks himself for a tool. -/
def asked : List (Env × Event) := [
  (quiet, .restart ⟨false, "bob", List.replicate 32 2, none, none, none⟩),
  (env (.ok "request"), .ask "tool")]

abbrev bob (events : List (Env × Event)) : Daemon := Daemon.reach crypto "bobs" "bob" (List.replicate 32 2) events

theorem asked_denied : (bob asked).live = true ∧
    ((bob asked).decided crypto quiet "request" .deny).2 = .ok none := by decide

/-- A denied request cannot be denied again. -/
theorem denied_once : ((bob asked).decided crypto quiet "request" .deny).2 = .ok none ∧
    ((bob (asked ++ [(quiet, .decide "request" .deny)])).decided crypto quiet "request" .deny).2 ≠ .ok none :=
  ⟨asked_denied.2,
    (((Daemon.decisions_current asked [(quiet, .decide "request" .deny)] quiet "request" .deny (by
      simp [Daemon.drawn, asked, quiet, env, Except.toOption])).1 none asked_denied.1 asked_denied.2).2
        [] quiet .deny [] rfl none)⟩

end DecisionExample

end Clix
