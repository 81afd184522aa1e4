import Clix.Soundness.Standing

/-! # What a button of the desktop grants

The owner may answer a request from a notification or from the tray. A button grants to the machine that asked and to no
other, and what it granted stays until something else is decided about the tool.
-/

namespace Clix

open Except

namespace Request

variable {action : String} {decision : Decision}

/-- A button allows the requester without limit of time, or denies. -/
theorem fromAction_eq_ok (pressed : Decision.fromAction action = .ok decision) :
    (action = "deny" ∧ decision = .deny) ∨
      (action ≠ "deny" ∧ decision = .allow .requester (action != "allow") none none) := by
  rw [Decision.fromAction] at pressed
  split_ifs at pressed with once allow deny
  · cases pressed
    rcases once with rfl | rfl <;> exact .inr ⟨by decide, rfl⟩
  · cases pressed
    exact .inr ⟨by rw [allow]; decide, by rw [allow]; rfl⟩
  · cases pressed
    exact .inl ⟨deny, rfl⟩

variable {fs : FileSystem} {s t : Store} {id : String} {once : Bool} {expiry : Option SystemTime}
  {schedule : Option Schedule} {grant : Grant}

/-- An approval for the requester is for a pending request, and for the machine that made it. -/
theorem decide_requester (decided : decide fs s id (.allow .requester once expiry schedule) = .ok (t, some grant)) :
    ∃ asking ∈ s.requests, asking.id = id ∧ grant.tool = Grant.toolKey asking.tool ∧
      grant.allowFrom = some [asking.origin] ∧ grant.once = once := by
  rw [decide] at decided
  cases found : s.requests.find? (fun r => r.id == id && id != "") with
  | none =>
    rw [found] at decided
    cases decided
  | some asking =>
    rw [found] at decided
    obtain ⟨names, reaching, decided⟩ := bind_eq_ok.mp decided
    cases reaching
    obtain ⟨built, made, decided⟩ := bind_eq_ok.mp decided
    obtain ⟨-, decided⟩ := refuseIf_bind_eq_ok.mp decided
    cases decided
    obtain ⟨tool, bodies, -, -, -, -, single⟩ := Grant.build_eq_ok made
    have matched := List.find?_some found
    rw [Bool.and_eq_true, beq_iff_eq] at matched
    refine ⟨asking, List.mem_of_find?_eq_some found, matched.1, tool, ?_, single⟩
    rw [bodies, if_neg (List.cons_ne_nil _ _)]
    rfl

/-- A denial grants nothing, and takes the request away. -/
theorem decide_deny {g : Option Grant} (decided : decide fs s id .deny = .ok (t, g)) :
    g = none ∧ t = { s with requests := s.requests.eraseP (fun r => r.id == id) } := by
  rw [decide] at decided
  split at decided
  · cases decided
  · cases decided
    exact ⟨rfl, rfl⟩

end Request

namespace Daemon

open Act

variable {c : Crypto} {epoch hostname : String} {seed : Bytes} {action : String} {decision : Request.Decision}
  {before after : List (Env × Event)} {env : Env} {id : String} {grant : Grant}

/-- When a button was pressed for a pending request and its grant was saved, every child that is admitted to that tool
afterwards, while nothing else is decided about it, runs for the machine that had asked. -/
theorem pressed_enforced (pressed : Request.Decision.fromAction action = .ok decision)
    (live : (reach c epoch hostname seed before).live = true)
    (acknowledged : Acknowledged c (reach c epoch hostname seed before) env grant.tool (some grant)
      (.decide id decision)) :
    ∃ asking ∈ (reach c epoch hostname seed before).store.requests, asking.id = id ∧
      grant.tool = Grant.toolKey asking.tool ∧ (grant.once = true ↔ action ≠ "allow") ∧
      ∀ start ∈ (reach c epoch hostname seed (before ++ (env, .decide id decision) :: after)).starts,
        start.grant.tool = grant.tool → ∃ past e later,
          before ++ (env, .decide id decision) :: after = past ++ e :: later ∧
            AdmittedAt c epoch hostname seed past e start ∧
            (before.length < past.length → ∃ newer,
              (reach c epoch hostname seed past).acts =
                newer ++ .owner grant.tool (some grant) :: (reach c epoch hostname seed before).acts ∧
              ((∀ act ∈ newer, act.decides grant.tool = false) → start.run.origin = asking.origin)) := by
  obtain ⟨t, decided⟩ := decided_of_acknowledged acknowledged
  rcases Request.fromAction_eq_ok pressed with ⟨-, rfl⟩ | ⟨-, rfl⟩
  · cases (Request.decide_deny decided).1
  obtain ⟨asking, pending, named, tool, bodies, single⟩ := Request.decide_requester decided
  refine ⟨asking, pending, named, tool, by rw [single, bne_iff_ne], fun start started same => ?_⟩
  obtain ⟨past, e, later, split, admitted, since⟩ := start_acknowledged live acknowledged started same
  refine ⟨past, e, later, split, admitted, fun longer => ?_⟩
  obtain ⟨newer, acts, covers⟩ := since longer
  exact ⟨newer, acts, fun undecided => List.mem_singleton.mp ((covers undecided).machine _ bodies)⟩

end Daemon

namespace ButtonExample

set_option maxRecDepth 40000

open Daemon EnforcementExample StandingExample

/-- Bob asks for the tool. -/
def asked : List (Env × Event) := paired ++ [(first, .accept bobKey), (first, .request peer "git" none)]

/-- The owner presses "Allow". -/
def press : Event := .decide "id" (.allow .requester false none none)

def allowed : Grant := ⟨"git", "/bin/git", some [bob], false, none, none, none, none⟩

theorem live : (alice asked).live = true := by decide

theorem acknowledged : Acknowledged crypto (alice asked) first allowed.tool (some allowed) press :=
  ⟨allowed, rfl, rfl, by decide⟩

theorem started : (alice (asked ++ (first, press) :: ran)).starts.map (·.grant.tool) = [allowed.tool] := by
  decide

/-- The child that was started runs for the machine that had asked. -/
theorem started_requester : ∃ start : Start, start.grant.tool = "git" ∧
    ∃ asking ∈ (alice asked).store.requests, asking.id = "id" ∧ ∃ past e later,
      asked ++ (first, press) :: ran = past ++ e :: later ∧ AdmittedAt crypto "alices" "alice" aliceKey past e start ∧
        (asked.length < past.length → ∃ newer,
          (alice past).acts = newer ++ .owner allowed.tool (some allowed) :: (alice asked).acts ∧
          ((∀ act ∈ newer, act.decides allowed.tool = false) → start.run.origin = asking.origin)) := by
  obtain ⟨start, rest, all, tool, -⟩ := List.map_eq_cons_iff.mp started
  have member : start ∈ (alice (asked ++ (first, press) :: ran)).starts := by
    rw [all]
    exact List.mem_cons_self
  have pressed : Request.Decision.fromAction "allow" = .ok (.allow .requester false none none) := rfl
  obtain ⟨asking, pending, named, -, -, enforced⟩ := pressed_enforced pressed live acknowledged
  exact ⟨start, tool, asking, pending, named, enforced start member tool⟩

end ButtonExample

end Clix
