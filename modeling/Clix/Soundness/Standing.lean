import Clix.Soundness.Enforcement
import Clix.Soundness.SingleUse
import Clix.Soundness.Authorization

/-! # What the owner decided is in force

Every grant of every state restates the latest decision about its tool, the grant of the latest decision is there until
a run has used it up, and every run is admitted under the decision that was the latest then. A decision that was
acknowledged is forgotten by no failed save and no crash, so that what the owner typed last is what machines may run
from then on.
-/

namespace Clix

open Except DurableCell Act Json

/-- The whole seconds of an instant. -/
def wholeSeconds (t : SystemTime) : SystemTime := t / nanosPerSecond * nanosPerSecond

theorem wholeSeconds_le (t : SystemTime) : wholeSeconds t ≤ t := Nat.div_mul_le_self t nanosPerSecond

theorem wholeSeconds_wholeSeconds (t : SystemTime) : wholeSeconds (wholeSeconds t) = wholeSeconds t := by
  rw [wholeSeconds, wholeSeconds, Nat.mul_div_cancel _ (by decide)]

namespace Grant

/-- A grant says what was decided. A run may hold it, and a restart has kept the whole seconds of its expiry. -/
structure Restates (g decided : Grant) : Prop where
  same : { g with reservation := none, «until» := none } = { decided with reservation := none, «until» := none }
  expiry : g.until = decided.until ∨ g.until = decided.until.map wholeSeconds

variable {g decided : Grant}

theorem Restates.refl (g : Grant) : g.Restates g := ⟨rfl, .inl rfl⟩

theorem Restates.binary (restates : g.Restates decided) : g.binary = decided.binary := by
  have same := restates.same
  simp only [Grant.mk.injEq] at same
  exact same.2.1

theorem Restates.tool (restates : g.Restates decided) : g.tool = decided.tool := by
  have same := restates.same
  simp only [Grant.mk.injEq] at same
  exact same.1

theorem Restates.once (restates : g.Restates decided) : g.once = decided.once := by
  have same := restates.same
  simp only [Grant.mk.injEq] at same
  exact same.2.2.2.1

theorem Restates.reserved (restates : g.Restates decided) (holder : Option String) :
    { g with reservation := holder }.Restates decided := ⟨restates.same, restates.expiry⟩

theorem Restates.reloaded (restates : g.Restates decided) :
    { g with «until» := g.until.map wholeSeconds }.Restates decided := by
  refine ⟨restates.same, .inr ?_⟩
  change g.until.map wholeSeconds = decided.until.map wholeSeconds
  rcases restates.expiry with same | same
  · rw [same]
  · rw [same]
    cases decided.until with
    | none => rfl
    | some t => rw [Option.map_some, Option.map_some, wholeSeconds_wholeSeconds]

/-- Nothing is allowed by a grant that its decision does not allow. -/
theorem Restates.covers (restates : g.Restates decided) {origin : BodyId} {now : Clock} {argv : List String}
    (covers : g.Covers origin now argv) : decided.Covers origin now argv where
  machine := congrArg Grant.allowFrom restates.same ▸ covers.machine
  expiry t ends := by
    rcases restates.expiry with same | same
    · exact covers.expiry t (same.trans ends)
    · have floored : g.until = some (wholeSeconds t) := by rw [same, ends, Option.map_some]
      exact (covers.expiry _ floored).trans (wholeSeconds_le t)
  schedule := congrArg Grant.schedule restates.same ▸ covers.schedule
  arguments := congrArg Grant.args restates.same ▸ covers.arguments

theorem Permits.covers {s : Store} {run : Job} {now : Clock} (permits : g.Permits s run now) :
    g.Covers run.origin now run.argv :=
  ⟨permits.allowFrom, permits.until, permits.schedule, permits.args⟩

end Grant

/-- A grant of a tool says what the owner decided last about it. -/
def Act.Current (acts : List Act) (g : Grant) : Prop :=
  ∃ decided, decision? g.tool acts = some (.owner g.tool (some decided)) ∧ g.Restates decided

/-- A run used up the single use that was granted last: it was admitted since, and its program succeeded. -/
def Act.UsedUp (Won : String → Prop) (acts : List Act) (tool : String) (decided : Grant) : Prop :=
  decided.once = true ∧ ∃ id g, .admitted id g ∈ era tool acts ∧ g.tool = tool ∧ Won id

/-- A list of grants has one that says what was decided. -/
def Grant.Stated (grants : List Grant) (tool : String) (decided : Grant) : Prop :=
  ∃ g ∈ grants, g.tool = tool ∧ g.Restates decided

/-- Every grant is current, the grant of every latest decision is there until a run has used it up, and every run was
admitted under a grant that was current. -/
structure Desk.Stands (Won : String → Prop) (d : Desk) (acts : List Act) : Prop where
  tools : (d.grants.map (·.tool)).Nodup
  current : ∀ g ∈ d.grants, Act.Current acts g
  kept : ∀ tool decided, decision? tool acts = some (.owner tool (some decided)) →
    Grant.Stated d.grants tool decided ∨ Act.UsedUp Won acts tool decided
  /-- A run that holds a grant was admitted under a single use that was granted last. -/
  reserved : ∀ g ∈ d.grants, ∀ id, g.reservation = some id →
    ∃ h, .admitted id h ∈ era g.tool acts ∧ h.tool = g.tool ∧ h.once = true
  admitted : ∀ newer id g older, acts = newer ++ .admitted id g :: older → Act.Current older g

namespace Act

variable {Won Won' : String → Prop} {tool : String} {decided : Grant} {acts : List Act}

theorem UsedUp.mono (used : UsedUp Won acts tool decided) (more : ∀ id, Won id → Won' id) :
    UsedUp Won' acts tool decided := by
  obtain ⟨once, id, g, admitted, named, won⟩ := used
  exact ⟨once, id, g, admitted, named, more id won⟩

/-- An act that decides nothing about a tool takes no use back. -/
theorem UsedUp.cons {act : Act} (used : UsedUp Won acts tool decided) (other : act.decides tool = false) :
    UsedUp Won (act :: acts) tool decided := by
  obtain ⟨once, id, g, admitted, named, won⟩ := used
  exact ⟨once, id, g, by rw [era_cons_of_neg other]; exact List.mem_cons_of_mem _ admitted, named, won⟩

end Act

namespace Desk

variable {Won Won' : String → Prop} {d : Desk} {acts : List Act} {f : Grant → Grant}

theorem Stands.mono (stands : d.Stands Won acts) (more : ∀ id, Won id → Won' id) : d.Stands Won' acts :=
  { stands with kept := fun tool decided latest =>
      (stands.kept tool decided latest).imp_right (fun used => used.mono more) }

theorem Stands.grants (stands : d.Stands Won acts) {e : Desk} (same : e.grants = d.grants) : e.Stands Won acts :=
  ⟨same ▸ stands.tools, same ▸ stands.current, same ▸ stands.kept, same ▸ stands.reserved, stands.admitted⟩

/-- A run that was admitted since the latest decision about a tool was admitted under that decision. -/
theorem Stands.restates {id tool : String} {g decided : Grant} (stands : d.Stands Won acts)
    (admitted : .admitted id g ∈ era tool acts) (named : g.tool = tool)
    (latest : decision? tool acts = some (.owner tool (some decided))) : g.Restates decided := by
  subst named
  obtain ⟨newer, older, split, undecided⟩ := eq_append_of_mem_era admitted
  obtain ⟨other, before, restates⟩ := stands.admitted newer id g older split
  have same : decision? g.tool acts = decision? g.tool older := by
    rw [split, decision?_append_of_neg undecided, decision?_admitted]
  rw [same, before] at latest
  cases latest
  exact restates

/-- A grant that changes in what a run or a restart changes only. -/
def Follows (g h : Grant) : Prop :=
  g.tool = h.tool ∧ (∀ id, g.reservation = some id → h.reservation = some id) ∧
    ∀ decided, h.Restates decided → g.Restates decided

theorem Follows.refl (g : Grant) : Follows g g := ⟨rfl, fun _ => id, fun _ => id⟩

theorem Follows.freed (g : Grant) : Follows { g with reservation := none } g :=
  ⟨rfl, fun _ held => (by cases held), fun _ said => said.reserved none⟩

theorem Follows.reloaded (g : Grant) : Follows { g with «until» := g.until.map wholeSeconds } g :=
  ⟨rfl, fun _ => id, fun _ said => said.reloaded⟩

/-- Grants stay current while they follow those there were, none of them missing but for a use. -/
theorem Stands.regrant (stands : d.Stands Won acts) {grants : List Grant} (tools : (grants.map (·.tool)).Nodup)
    (origins : ∀ g ∈ grants, ∃ h ∈ d.grants, Follows g h)
    (stays : ∀ h ∈ d.grants, (∃ g ∈ grants, Follows g h) ∨ ∀ decided, h.Restates decided →
      decision? h.tool acts = some (.owner h.tool (some decided)) → Act.UsedUp Won acts h.tool decided) :
    Stands Won { d with grants := grants } acts := by
  refine ⟨tools, fun g member => ?_, fun tool decided latest => ?_, fun g member id held => ?_, stands.admitted⟩
  · obtain ⟨h, old, named, -, restates⟩ := origins g member
    obtain ⟨decided, latest, said⟩ := stands.current h old
    exact ⟨decided, named ▸ latest, restates decided said⟩
  · rcases stands.kept tool decided latest with ⟨h, old, rfl, said⟩ | used
    · rcases stays h old with ⟨g, member, named, -, restates⟩ | spent
      · exact .inl ⟨g, member, named, restates decided said⟩
      · exact .inr (spent decided said latest)
    · exact .inr used
  · obtain ⟨h, old, named, holds, -⟩ := origins g member
    exact named ▸ stands.reserved h old id (holds id held)

theorem Stands.owner {tool : String} {decided : Option Grant} {grants : List Grant} (stands : d.Stands Won acts)
    (allowed : d.Allows (.owner tool decided grants)) :
    Stands Won { d with grants := grants } (.owner tool decided :: acts) := by
  obtain ⟨others, free, distinct⟩ := allowed
  obtain ⟨tools, granted⟩ := distinct stands.tools
  have old : ∀ g, g.tool ≠ tool → (g ∈ grants ↔ g ∈ d.grants) := by
    intro g differs
    have same := congrArg (g ∈ ·) others
    simpa [List.mem_filter, differs] using same
  refine ⟨tools, fun g member => ?_, fun other latest found => ?_, fun g member id held => ?_,
    fun newer id h older split => ?_⟩
  · by_cases same : g.tool = tool
    · exact ⟨g, by rw [same, Act.decision?_owner_self, granted g member same], .refl g⟩
    · obtain ⟨decided, latest, said⟩ := stands.current g ((old g same).mp member)
      exact ⟨decided, by rw [Act.decision?_owner_of_ne (Ne.symm same), latest], said⟩
  · by_cases same : tool = other
    · subst same
      rw [Act.decision?_owner_self] at found
      cases found
      obtain ⟨named, -, there⟩ := free latest rfl
      exact .inl ⟨latest, there, named, .refl latest⟩
    · rw [Act.decision?_owner_of_ne same] at found
      rcases stands.kept other latest found with ⟨g, there, rfl, said⟩ | used
      · exact .inl ⟨g, (old g (Ne.symm same)).mpr there, rfl, said⟩
      · exact .inr (used.cons (by simpa [decides] using same))
  · by_cases same : g.tool = tool
    · rw [(free g (granted g member same)).2.1] at held
      cases held
    · obtain ⟨h, admitted, named, once⟩ := stands.reserved g ((old g same).mp member) id held
      exact ⟨h, by rw [era_owner_of_ne (Ne.symm same)]; exact List.mem_cons_of_mem _ admitted, named, once⟩
  · cases newer with
    | nil => cases split
    | cons act rest => exact stands.admitted rest id h older (List.cons.inj split).2

theorem Stands.accept {row : Row} {grant : Grant} (stands : d.Stands Won acts)
    (allowed : d.Allows (.accept row grant)) :
    Stands Won (d.apply (.accept row grant)) (.admitted row.id grant :: acts) := by
  obtain ⟨-, -, -, found, -⟩ := allowed
  have present : grant ∈ d.grants := List.mem_of_find?_eq_some found
  have cases : ∀ g ∈ (d.apply (.accept row grant)).grants, (g ∈ d.grants ∧ g.tool ≠ grant.tool) ∨
      (g = grant ∧ grant.once = false) ∨ (g = { grant with reservation := some row.id } ∧ grant.once = true) :=
    fun g member => Ledger.mem_accept stands.tools found member
  refine ⟨Ledger.accept_tools stands.tools _ _, fun g member => ?_, fun tool decided latest => ?_,
    fun g member id held => ?_, fun newer id h older split => ?_⟩
  · rw [Current, decision?_admitted]
    rcases cases g member with ⟨there, -⟩ | ⟨rfl, -⟩ | ⟨rfl, -⟩
    · exact stands.current g there
    · exact stands.current g present
    · obtain ⟨decided, latest, said⟩ := stands.current grant present
      exact ⟨decided, latest, said.reserved _⟩
  · rw [decision?_admitted] at latest
    rcases stands.kept tool decided latest with ⟨g, there, rfl, said⟩ | used
    · refine .inl ?_
      rw [Desk.apply]
      dsimp only
      split_ifs
      · rcases List.mem_modifyFirst_or there with ⟨same⟩ | ⟨-, same⟩
        · exact ⟨g, same, rfl, said⟩
        · exact ⟨_, same, rfl, said.reserved _⟩
      · exact ⟨g, there, rfl, said⟩
    · exact .inr (used.cons rfl)
  · rw [era_admitted]
    rcases cases g member with ⟨there, -⟩ | ⟨rfl, -⟩ | ⟨rfl, once⟩
    · obtain ⟨h, admitted, named, once⟩ := stands.reserved g there id held
      exact ⟨h, List.mem_cons_of_mem _ admitted, named, once⟩
    · obtain ⟨h, admitted, named, once⟩ := stands.reserved g present id held
      exact ⟨h, List.mem_cons_of_mem _ admitted, named, once⟩
    · cases held
      exact ⟨grant, List.mem_cons_self, rfl, once⟩
  · cases newer with
    | nil =>
      cases split
      exact stands.current grant present
    | cons act rest => exact stands.admitted rest id h older (List.cons.inj split).2

/-- A grant after a completion: unchanged, or freed. -/
theorem mem_settleGrant {grants : List Grant} {grant g : Grant} {id : String} {success : Option Bool}
    (member : g ∈ Exec.settleGrant grants grant id success) :
    g ∈ grants ∨ ∃ h ∈ grants, g = { h with reservation := none } := by
  unfold Exec.settleGrant at member
  dsimp only at member
  split_ifs at member
  · match success with
    | some true => exact .inl (List.mem_of_mem_eraseP member)
    | some false => exact (List.mem_modifyFirst member).imp_right (fun ⟨h, there, _, same⟩ => ⟨h, there, same⟩)
    | none => exact .inl member
  · exact .inl member

/-- A grant is there after a completion, as it was or freed, unless the run that held it succeeded. -/
theorem settleGrant_stays {grants : List Grant} {grant h : Grant} {id : String} {success : Option Bool}
    (member : h ∈ grants) : (∃ g ∈ Exec.settleGrant grants grant id success, Follows g h) ∨
      (success = some true ∧ h.reservation = some id) := by
  unfold Exec.settleGrant
  dsimp only
  split_ifs
  · match success with
    | some true =>
      by_cases held : (h.tool == grant.tool && h.reservation == some id) = true
      · exact .inr ⟨rfl, by simpa using (Bool.and_eq_true_iff.mp held).2⟩
      · have kept : h ∈ grants.eraseP (fun g => g.tool == grant.tool && g.reservation == some id) :=
          (List.mem_eraseP_of_neg (p := fun g => g.tool == grant.tool && g.reservation == some id) held).mpr member
        exact .inl ⟨h, kept, .refl h⟩
    | some false =>
      rcases List.mem_modifyFirst_or member with same | ⟨-, same⟩
      · exact .inl ⟨h, same, .refl h⟩
      · exact .inl ⟨_, same, .freed h⟩
    | none => exact .inl ⟨h, member, .refl h⟩
  · exact .inl ⟨h, member, .refl h⟩

theorem Stands.finish {row : Row} {grant : Grant} {success : Option Bool} (stands : d.Stands Won acts)
    (won : success = some true → Won row.id) : Stands Won (d.apply (.finish row grant success)) acts := by
  refine (stands.grants rfl : Stands Won (d.putRow row) acts).regrant (Ledger.settle_tools stands.tools _ _ _)
    (fun g member => ?_) (fun h member => ?_)
  · rcases mem_settleGrant member with there | ⟨h, there, rfl⟩
    · exact ⟨g, there, .refl g⟩
    · exact ⟨h, there, .freed h⟩
  · rcases settleGrant_stays member with stays | ⟨succeeded, held⟩
    · exact .inl stays
    · refine .inr (fun decided _ latest => ?_)
      obtain ⟨g, admitted, named, once⟩ := stands.reserved h member row.id held
      have said := stands.restates admitted named latest
      exact ⟨said.once ▸ once, row.id, g, admitted, named, won succeeded⟩

end Desk

namespace Daemon

/-- What is known of a completion that succeeded. -/
def Wins (Won : String → Prop) : Completion := fun row _ success _ => success = some true → Won row.id

theorem preserved_stands (Won : String → Prop) : Preserved (Wins Won) (Desk.Stands Won) where
  deed d deed acts allowed fits stands := by
    cases deed with
    | owner tool decided grants => exact stands.owner allowed
    | accept row grant => exact stands.accept allowed
    | finish row grant success => exact stands.finish fits
    | _ => exact stands.grants rfl
  reload s acts stands := by
    refine stands.regrant ?_ (fun g member => ?_) (fun h member => ?_)
    · have kept : s.reloaded.grants.map (·.tool) = s.grants.map (·.tool) := by
        rw [Store.reloaded, List.map_map]
        rfl
      exact kept ▸ stands.tools
    · obtain ⟨h, there, rfl⟩ := List.mem_map.mp member
      exact ⟨h, there, .reloaded h⟩
    · exact .inl ⟨_, List.mem_map_of_mem member, .reloaded h⟩

/-- No content loses what it descends from. -/
theorem preserved_descends (old : List Act) : Preserved (fun _ _ _ _ => True) (fun _ acts => old <:+ acts) where
  deed _ deed _ _ _ suffix := suffix.trans (List.suffix_append deed.acts _)
  reload _ _ suffix := suffix

variable {c : Crypto} {epoch hostname : String} {seed : Bytes}

theorem everywhere_after {Q : Desk → List Act → Prop} (keeps : Preserved (fun _ _ _ _ => True) Q)
    {before : List (Env × Event)} (after : List (Env × Event))
    (holds : Everywhere (Image.Has Q) (reach c epoch hostname seed before).cell) :
    Everywhere (Image.Has Q) (reach c epoch hostname seed (before ++ after)).cell := by
  induction after using List.reverseRecOn with
  | nil => rwa [List.append_nil]
  | append_singleton after e ih =>
    have step := step_cases (inv_run (inv_fresh (c := c) epoch hostname seed) (before ++ after)) e
    rw [← List.append_assoc, reach_concat]
    generalize Daemon.step c (reach c epoch hostname seed (before ++ after)) e = d' at step
    cases step with
    | stopped dead going exits _ same =>
      rw [same]
      exact ih
    | restarted boot same =>
      rw [same]
      exact everywhere_restart keeps e.1 boot ih
    | live running going sound core carried => exact everywhere_core keeps anyCompletion sound core ih

/-- Every run that won in the machine before a step had won when it is over. -/
theorem everywhere_stands (events : List (Env × Event)) :
    Everywhere (Image.Has (Desk.Stands (Succeeded (reach c epoch hostname seed events))))
      (reach c epoch hostname seed events).cell := by
  induction events using List.reverseRecOn with
  | nil =>
    have desk := desk_first c epoch hostname seed
    have empty : (Store.first c epoch hostname seed).desk.Stands (Succeeded (fresh c epoch hostname seed)) [] := by
      rw [desk]
      refine ⟨List.nodup_nil, fun _ member => absurd member List.not_mem_nil, fun _ _ latest => (by cases latest),
        fun _ member => absurd member List.not_mem_nil, fun newer id g older split => ?_⟩
      simp at split
    exact everywhere_installed empty
  | append_singleton events e ih =>
    have inv := inv_run (inv_fresh (c := c) epoch hostname seed) events
    have step := step_cases inv e
    have books := books_run (c := c) epoch hostname seed events
    rw [reach_concat]
    generalize Daemon.step c (reach c epoch hostname seed events) e = d' at step
    refine Everywhere.mono (P := Image.Has (Desk.Stands (Succeeded (reach c epoch hostname seed events))))
      (fun image stands => stands.mono (fun id won => succeeded_step step won)) ?_
    cases step with
    | stopped dead going exits _ same =>
      rw [same]
      exact ih
    | restarted boot same =>
      rw [same]
      exact everywhere_restart (preserved_stands _) e.1 boot ih
    | live running going sound core carried =>
      refine everywhere_core (preserved_stands _) (fun id task outcome found ended succeeded => ?_) sound core ih
      rw [Exec.finished_row, show (task.run.row).id = id from task?_id found]
      exact books.won id task outcome found ended succeeded

/-! ## Acknowledged decisions -/

/-- A step in which the machine acknowledged what the owner decided about a tool. -/
def Acknowledged (c : Crypto) (d : Daemon) (env : Env) (tool : String) (decided : Option Grant) : Event → Prop
  | .add path allow once expiry schedule args => ∃ g, g.tool = tool ∧ decided = some g ∧
      (d.update c env.epochId env.fault (fun s => Grant.addWithArgs env.fs s path allow once expiry schedule args)
        (fun g => owned (some g))).2 = .ok g
  | .remove name => ∃ g, g.tool = tool ∧ decided = none ∧
      (d.update c env.epochId env.fault (fun s => Grant.remove env.fs s name) (fun g => [.owner g.tool none])).2 = .ok g
  | .decide id decision => ∃ g, g.tool = tool ∧ decided = some g ∧
      (d.update c env.epochId env.fault (fun s => Request.decide env.fs s id decision) owned).2 = .ok (some g)
  | _ => False

/-- The edit of an update that was acknowledged went through. -/
theorem edited_of_update {α : Type} {d : Daemon} {epochId : Result String} {fault : Option Fault}
    {edit : Store → Result (Store × α)} {acts : α → List Act} {value : α}
    (success : (d.update c epochId fault edit acts).2 = .ok value) : ∃ t, edit d.store = .ok (t, value) := by
  rcases update_cases (c := c) (d := d) epochId fault edit acts with ⟨e, failed⟩ | ⟨next, saved, staged, same⟩
  · rw [failed] at success
    cases success
  · rw [same] at success
    obtain ⟨-, edited, -, ran, -⟩ := Store.stage_eq_ok staged
    cases fault with
    | some f => cases success
    | none =>
      cases success
      exact ⟨edited, ran⟩

theorem added_of_acknowledged {d : Daemon} {env : Env} {path : String} {allow : List String} {once : Bool}
    {expiry : Option SystemTime} {schedule : Option Schedule} {args : Option (List (List String))} {tool : String}
    {g : Grant} (acknowledged : Acknowledged c d env tool (some g) (.add path allow once expiry schedule args)) :
    ∃ t, Grant.addWithArgs env.fs d.store path allow once expiry schedule args = .ok (t, g) := by
  obtain ⟨_, -, same, success⟩ := acknowledged
  cases same
  exact edited_of_update success

theorem decided_of_acknowledged {d : Daemon} {env : Env} {id : String} {decision : Request.Decision} {tool : String}
    {g : Grant} (acknowledged : Acknowledged c d env tool (some g) (.decide id decision)) :
    ∃ t, Request.decide env.fs d.store id decision = .ok (t, some g) := by
  obtain ⟨_, -, same, success⟩ := acknowledged
  cases same
  exact edited_of_update success

/-- What an update that was acknowledged made is in memory and in the file, and nothing older can come back. -/
theorem everywhere_of_update {α : Type} {d : Daemon} {epochId : Result String} {fault : Option Fault}
    {edit : Store → Result (Store × α)} {acts : α → List Act} {value : α} {P : Image → Prop}
    (success : (d.update c epochId fault edit acts).2 = .ok value)
    (holds : ∀ next, Store.stage c epochId d.store edit = .ok (next, value) → P ⟨next, acts value ++ d.acts⟩) :
    Everywhere P (d.update c epochId fault edit acts).1.cell := by
  rcases update_cases (c := c) (d := d) epochId fault edit acts with ⟨e, same⟩ | ⟨next, saved, staged, same⟩
  · rw [same] at success
    cases success
  · rw [same] at success ⊢
    cases fault with
    | some f => cases success
    | none =>
      cases success
      exact ⟨holds next staged, holds next staged, fun old absent => by cases absent⟩

theorem everywhere_update {α : Type} {d : Daemon} {epochId : Result String} {fault : Option Fault}
    {edit : Store → Result (Store × α)} {acts : α → List Act} {value : α}
    (success : (d.update c epochId fault edit acts).2 = .ok value) :
    Everywhere (fun image => acts value ++ d.acts <:+ image.acts) (d.update c epochId fault edit acts).1.cell :=
  everywhere_of_update success (fun _ _ => List.suffix_rfl)

theorem everywhere_acknowledged {d : Daemon} {env : Env} {event : Event} {tool : String} {decided : Option Grant}
    (live : d.live = true) (acknowledged : Acknowledged c d env tool decided event) :
    Everywhere (fun image => .owner tool decided :: d.acts <:+ image.acts) (d.step c (env, event)).cell := by
  cases event with
  | add path allow once expiry schedule args =>
    obtain ⟨g, rfl, rfl, success⟩ := acknowledged
    rw [step, if_pos live]
    exact everywhere_update success
  | remove name =>
    obtain ⟨g, rfl, rfl, success⟩ := acknowledged
    rw [step, if_pos live]
    exact everywhere_update success
  | decide id decision =>
    obtain ⟨g, rfl, rfl, success⟩ := acknowledged
    rw [step, if_pos live]
    exact everywhere_update success
  | _ => cases acknowledged

/-- A decision that was acknowledged stays in every content of the machine, whatever happens afterwards. -/
theorem everywhere_decided {before after : List (Env × Event)} {env : Env} {event : Event} {tool : String}
    {decided : Option Grant} (live : (reach c epoch hostname seed before).live = true)
    (acknowledged : Acknowledged c (reach c epoch hostname seed before) env tool decided event) :
    Everywhere (fun image => .owner tool decided :: (reach c epoch hostname seed before).acts <:+ image.acts)
      (reach c epoch hostname seed (before ++ (env, event) :: after)).cell := by
  have now := everywhere_acknowledged live acknowledged
  rw [← reach_concat] at now
  have later := everywhere_after (preserved_descends _) after now
  rwa [List.append_assoc, List.singleton_append] at later

/-! ## What machines run -/

/-- The step that admitted the run of a child: the child tells its state and its time, and the run is accepted then. -/
structure AdmittedAt (c : Crypto) (epoch hostname : String) (seed : Bytes) (before : List (Env × Event))
    (e : Env × Event) (start : Start) : Prop where
  state : start.admission.before = (reach c epoch hostname seed before).store
  clock : start.admission.clock = e.1.now
  accepted : Accepted (reach c epoch hostname seed (before ++ [e])) start.run

/-- A child runs the program of a decision that was the latest about its tool when its run was admitted, and that
covers its command at that time. -/
theorem start_current {events : List (Env × Event)} {start : Start}
    (started : start ∈ (reach c epoch hostname seed events).starts) :
    ∃ before e after decided, events = before ++ e :: after ∧ AdmittedAt c epoch hostname seed before e start ∧
      decision? start.grant.tool (reach c epoch hostname seed before).acts =
        some (.owner start.grant.tool (some decided)) ∧
      start.command = ⟨decided.binary, decided.tool, start.run.argv.drop 1⟩ ∧
      decided.Covers start.run.origin start.admission.clock start.run.argv := by
  obtain ⟨before, e, after, split, state, clock, permits, -, accepted⟩ := run_admitted events start started
  have held : start.grant ∈ (reach c epoch hostname seed before).store.grants := List.mem_of_find?_eq_some permits.held
  have stands := (@everywhere_stands c epoch hostname seed before).1
  obtain ⟨decided, latest, restates⟩ := stands.current start.grant held
  have command := Exec.command_eq_ok (run_command events start started)
  refine ⟨before, e, after, decided, split, ⟨state, clock, accepted⟩, latest,
    by rw [command, restates.binary, restates.tool], ?_⟩
  rw [clock]
  exact restates.covers permits.covers

/-- A child that was admitted to a tool after a grant of it was acknowledged, with nothing else decided in between, runs
what that grant covers. -/
theorem start_acknowledged {before after : List (Env × Event)} {env : Env} {event : Event} {grant : Grant}
    (live : (reach c epoch hostname seed before).live = true)
    (acknowledged : Acknowledged c (reach c epoch hostname seed before) env grant.tool (some grant) event) {start : Start}
    (started : start ∈ (reach c epoch hostname seed (before ++ (env, event) :: after)).starts)
    (named : start.grant.tool = grant.tool) :
    ∃ past e later, before ++ (env, event) :: after = past ++ e :: later ∧
      AdmittedAt c epoch hostname seed past e start ∧
      (before.length < past.length → ∃ newer,
        (reach c epoch hostname seed past).acts =
          newer ++ .owner grant.tool (some grant) :: (reach c epoch hostname seed before).acts ∧
        ((∀ act ∈ newer, act.decides grant.tool = false) →
          grant.Covers start.run.origin start.admission.clock start.run.argv)) := by
  obtain ⟨past, e, later, decided, split, admitted, latest, -, covers⟩ := start_current started
  refine ⟨past, e, later, split, admitted, fun longer => ?_⟩
  obtain ⟨between, rfl⟩ : ∃ between, past = before ++ (env, event) :: between := by
    rcases List.append_eq_append_iff.mp split with ⟨extra, rfl, ends⟩ | ⟨extra, rfl, -⟩
    · cases extra with
      | nil => simp at longer
      | cons first others => exact ⟨others, by rw [(List.cons.inj ends).1]⟩
    · rw [List.length_append] at longer
      omega
  obtain ⟨newer, acts⟩ : .owner grant.tool (some grant) :: (reach c epoch hostname seed before).acts <:+
      (reach c epoch hostname seed (before ++ (env, event) :: between)).acts := (everywhere_decided live acknowledged).1
  refine ⟨newer, acts.symm, fun undecided => ?_⟩
  rw [named, ← acts, decision?_append_of_neg undecided, decision?_owner_self] at latest
  cases latest
  exact covers

/-- In every run: every grant of every content restates the latest decision about its tool, the grant of every latest
decision is in every content unless it was for a single run and a run admitted under it succeeded, and every admission
was under the decision that was the latest then; every child runs the program of such a decision, with a command that
it covers at the time of its admission; and no failed save and no crash takes a decision back that was acknowledged. -/
theorem decisions_stand (c : Crypto) (epoch hostname : String) (seed : Bytes) (events : List (Env × Event)) :
    Everywhere (Image.Has (Desk.Stands (Succeeded (reach c epoch hostname seed events))))
        (reach c epoch hostname seed events).cell ∧
      (∀ start ∈ (reach c epoch hostname seed events).starts, ∃ before e after decided, events = before ++ e :: after ∧
        AdmittedAt c epoch hostname seed before e start ∧
        decision? start.grant.tool (reach c epoch hostname seed before).acts =
          some (.owner start.grant.tool (some decided)) ∧
        start.command = ⟨decided.binary, decided.tool, start.run.argv.drop 1⟩ ∧
        decided.Covers start.run.origin start.admission.clock start.run.argv) ∧
      ∀ before env event after tool decided, events = before ++ (env, event) :: after →
        (reach c epoch hostname seed before).live = true →
        Acknowledged c (reach c epoch hostname seed before) env tool decided event →
        Everywhere (fun image => .owner tool decided :: (reach c epoch hostname seed before).acts <:+ image.acts)
          (reach c epoch hostname seed events).cell := by
  refine ⟨everywhere_stands events, fun start started => start_current started, ?_⟩
  rintro before env event after tool decided rfl live acknowledged
  exact everywhere_decided live acknowledged

end Daemon

namespace Owner

open Daemon

variable {c : Crypto} {epoch hostname : String} {seed : Bytes} {word : ℕ} {fs : FileSystem} {calendar : Cli.Calendar}
  {g : Cli.GrantCli} {cmd : Cli.Cmd} {request : Value} {rest : Bytes} {grant : Grant}

/-- From what the owner typed to what machines run: when `clix add` was acknowledged, every child that is admitted to
its tool afterwards, while nothing else is decided about that tool, runs a command that the flags allow its requester
at the time of the admission. -/
theorem typed_enforced (small : word ≤ 2 ^ 64) {tool : String}
    (parsed : Cli.parseAdd calendar (some tool) g = .returns (.ok cmd)) (written : rpcFromCmd fs cmd = .ok request)
    (short : request.text.length < Limits.ownerRequestBytes) {path : String} {allow : List String} {once : Bool}
    {expiry : Option SystemTime} {schedule : Option Schedule} {args : Option (List (List String))} {env : Env}
    (received : (receive word env.now.instant (payload request ++ rest)).1 =
      some (.ok (.add path allow once expiry schedule args)))
    {before after : List (Env × Event)} (live : (reach c epoch hostname seed before).live = true)
    (acknowledged : Acknowledged c (reach c epoch hostname seed before) env grant.tool (some grant)
      (.add path allow once expiry schedule args)) {start : Start}
    (started : start ∈ (reach c epoch hostname seed (before ++ (env, .add path allow once expiry schedule args) ::
      after)).starts) (named : start.grant.tool = grant.tool) :
    ∃ past e later, before ++ (env, .add path allow once expiry schedule args) :: after = past ++ e :: later ∧
      AdmittedAt c epoch hostname seed past e start ∧
      (before.length < past.length → ∃ newer,
        (reach c epoch hostname seed past).acts =
          newer ++ .owner grant.tool (some grant) :: (reach c epoch hostname seed before).acts ∧
        ((∀ act ∈ newer, act.decides grant.tool = false) →
          g.Permits calendar env.now.instant none start.run.origin start.admission.clock start.run.argv)) := by
  obtain ⟨past, e, later, split, admitted, since⟩ := start_acknowledged live acknowledged started named
  refine ⟨past, e, later, split, admitted, fun longer => ?_⟩
  obtain ⟨newer, acts, covers⟩ := since longer
  obtain ⟨t, added⟩ := added_of_acknowledged acknowledged
  exact ⟨newer, acts, fun undecided =>
    ((covers_iff_of_added small parsed written short received added).2 _ _ _).mp (covers undecided)⟩

end Owner

namespace StandingExample

set_option maxRecDepth 40000

open Daemon EnforcementExample

def crypto : Crypto := Crypto.transparent

def aliceKey : Bytes := List.replicate 32 1

def bobKey : Bytes := List.replicate 32 2

def peer : Peer := ⟨bob, bobKey, none⟩

def env (now : Clock) : Env where
  now := now
  newId := .ok "id"
  epochId := .ok "epoch"
  fs := fs
  fault := none
  meshBusy := false

/-- Monday, at midnight. -/
def first : Env := env ⟨0, .mon, 1, 0⟩

def paired : List (Env × Event) := [
  (first, .restart ⟨false, "alice", aliceKey, none, none, none⟩),
  (first, .pair "alice" aliceKey peer)]

def add : Event := .add "/bin/git" ["bob"] false none (some monday) (some [["status"]])

/-- Bob runs `git status` on Monday at ten. -/
def ran : List (Env × Event) := [
  (env now, .accept bobKey),
  (env now, .exec peer "job" ["git", "status"]),
  (env now, .launch "job" none)]

abbrev alice (events : List (Env × Event)) : Daemon := reach crypto "alices" "alice" aliceKey events

theorem received : (Owner.receive (2 ^ 64) first.now.instant
    (Owner.payload (Owner.addRequest "/bin/git" narrow (some [["status"]])) ++ [])).1 =
      some (.ok (.add "/bin/git" ["bob"] false none (some monday) (some [["status"]]))) := received_add

theorem live : (alice paired).live = true := by decide

theorem acknowledged : Acknowledged crypto (alice paired) first added.tool (some added) add :=
  ⟨added, rfl, rfl, by decide⟩

theorem started : (alice (paired ++ (first, add) :: ran)).starts.map (·.grant.tool) = [added.tool] := by
  decide

/-- The child that Bob had started was admitted to what the flags say. -/
theorem started_enforced : ∃ start : Start, start.grant.tool = added.tool ∧ ∃ past e later,
    paired ++ (first, add) :: ran = past ++ e :: later ∧ AdmittedAt crypto "alices" "alice" aliceKey past e start ∧
      (paired.length < past.length → ∃ newer,
        (alice past).acts = newer ++ .owner added.tool (some added) :: (alice paired).acts ∧
        ((∀ act ∈ newer, act.decides added.tool = false) →
          flags.Permits calendar first.now.instant none start.run.origin start.admission.clock start.run.argv)) := by
  obtain ⟨start, rest, all, tool, -⟩ := List.map_eq_cons_iff.mp started
  have member : start ∈ (alice (paired ++ (first, add) :: ran)).starts := by
    rw [all]
    exact List.mem_cons_self
  have enforced := Owner.typed_enforced le_rfl parsed_flags written_add (by decide +kernel) received live acknowledged member
    tool
  exact ⟨start, tool, enforced⟩

end StandingExample

end Clix
