import Clix.Proofs.Deeds

/-! # Approving a permission again

An approval of what a tool's grant already permits replaces the grant by a fresh one, at the end of the list.
Only a grant that no run holds, and that is there already, is the same afterwards.
-/

namespace Clix

open Except

namespace Request

variable {fs : FileSystem} {s t : Store} {id : String} {scope : Scope} {once : Bool} {expiry : Option SystemTime}
  {schedule : Option Schedule} {g p : Grant}

/-- An approval commits the grant it builds, when that permits what the existing one does. -/
theorem decide_allow_eq_ok {granted : Option Grant}
    (approved : decide fs s id (.allow scope once expiry schedule) = .ok (t, granted)) :
    ∃ p, granted = some p ∧ t = Grant.commit s p ∧ p.reservation = none ∧
      ∀ g, s.grant? p.tool = some g → Grant.samePermission g p = true := by
  unfold decide at approved
  split at approved
  · cases approved
  next request found =>
  dsimp only at approved
  rw [bind_eq_ok] at approved
  obtain ⟨allow, -, approved⟩ := approved
  rw [bind_eq_ok] at approved
  obtain ⟨built, made, approved⟩ := approved
  rw [refuseIf_bind_eq_ok] at approved
  obtain ⟨same, approved⟩ := approved
  cases approved
  refine ⟨built, rfl, rfl, Grant.build_reservation made, fun g existing => ?_⟩
  by_contra differs
  exact same ⟨g, existing, by simpa using differs⟩

/-- A free grant is what approving its permission again builds. -/
theorem eq_of_samePermission (same : Grant.samePermission g p = true) (free : g.reservation = none)
    (fresh : p.reservation = none) : g = p := by
  have equal : ({ g with reservation := none } : Grant) = { p with reservation := none } := by
    simpa [Grant.samePermission] using same
  obtain ⟨tool, binary, allowFrom, once, expiry, schedule, reservation, args⟩ := g
  obtain ⟨tool', binary', allowFrom', once', expiry', schedule', reservation', args'⟩ := p
  obtain rfl : reservation = none := free
  obtain rfl : reservation' = none := fresh
  exact equal

/-- The grants stay as they were exactly when the tool's grant is free, alone and the last one. -/
theorem grants_commit_iff (existing : s.grant? p.tool = some g) (same : Grant.samePermission g p = true)
    (fresh : p.reservation = none) :
    (Grant.commit s p).grants = s.grants ↔
      g.reservation = none ∧ ∃ others, s.grants = others ++ [g] ∧ ∀ h ∈ others, h.tool ≠ g.tool := by
  have tool : g.tool = p.tool := by simpa using List.find?_some existing
  change s.grants.filter (fun h => h.tool != p.tool) ++ [p] = s.grants ↔ _
  constructor
  · intro kept
    have first : s.grants.find? (fun h => h.tool == p.tool) = some p := by
      rw [← kept, List.find?_append, List.find?_eq_none.mpr (fun h member => by simpa using (List.mem_filter.mp member).2)]
      simp
    obtain rfl : g = p := Option.some.inj (existing.symm.trans first)
    exact ⟨fresh, _, kept.symm, fun h member => by simpa using (List.mem_filter.mp member).2⟩
  · rintro ⟨free, others, split, apart⟩
    obtain rfl := eq_of_samePermission same free fresh
    rw [split, List.filter_append, List.filter_eq_self.mpr (fun h member => by simpa using apart h member)]
    simp

/-- Up to their order, exactly when the tool's grant is free and alone. -/
theorem perm_commit_iff (existing : s.grant? p.tool = some g) (same : Grant.samePermission g p = true)
    (fresh : p.reservation = none) :
    (Grant.commit s p).grants.Perm s.grants ↔
      g.reservation = none ∧ s.grants.filter (fun h => h.tool == g.tool) = [g] := by
  have tool : g.tool = p.tool := by simpa using List.find?_some existing
  rw [tool]
  change (s.grants.filter (fun h => h.tool != p.tool) ++ [p]).Perm s.grants ↔ _
  constructor
  · intro kept
    have selected : [p].Perm (s.grants.filter (fun h => h.tool == p.tool)) := by
      have others : (s.grants.filter (fun h => h.tool != p.tool)).filter (fun h => h.tool == p.tool) = [] := by
        simp [List.filter_filter]
      simpa [others] using kept.filter (fun h => h.tool == p.tool)
    have alone := List.perm_singleton.mp selected.symm
    have first : s.grants.find? (fun h => h.tool == p.tool) = some p := by
      rw [← List.head?_filter, alone]
      rfl
    obtain rfl : g = p := Option.some.inj (existing.symm.trans first)
    exact ⟨fresh, alone⟩
  · rintro ⟨free, alone⟩
    obtain rfl := eq_of_samePermission same free fresh
    have split := List.filter_append_perm (fun h : Grant => h.tool == g.tool) s.grants
    rw [alone] at split
    exact (List.perm_append_comm.trans split)

/-- Approving an existing permission again changes nothing but the tool's requests exactly when its grant is held
by no run, is the only one for the tool and the last of all. But for the order of the grants, exactly when it is held
by no run and the only one for the tool. -/
theorem reapproval_unchanged_iff (existing : s.grant? p.tool = some g)
    (approved : decide fs s id (.allow scope once expiry schedule) = .ok (t, some p)) :
    (t = Grant.invalidateRequests s g.tool ↔
      g.reservation = none ∧ ∃ others, s.grants = others ++ [g] ∧ ∀ h ∈ others, h.tool ≠ g.tool) ∧
    ((∃ grants, grants.Perm s.grants ∧ t = { Grant.invalidateRequests s g.tool with grants := grants }) ↔
      g.reservation = none ∧ s.grants.filter (fun h => h.tool == g.tool) = [g]) := by
  obtain ⟨built, equal, rfl, fresh, permits⟩ := decide_allow_eq_ok approved
  obtain rfl : p = built := Option.some.inj equal
  have same := permits g existing
  have tool : g.tool = p.tool := by simpa using List.find?_some existing
  have frame : Grant.commit s p =
      { Grant.invalidateRequests s g.tool with grants := (Grant.commit s p).grants } := by
    rw [tool]
    rfl
  constructor
  · rw [← grants_commit_iff existing same fresh]
    constructor
    · intro unchanged
      rw [unchanged]
      rfl
    · intro kept
      rw [frame, kept]
      rfl
  · rw [← perm_commit_iff existing same fresh]
    constructor
    · rintro ⟨grants, order, unchanged⟩
      rw [unchanged]
      exact order
    · intro order
      exact ⟨_, order, frame⟩

end Request

namespace ReapprovalExample

def bob : BodyId := ⟨"bob"⟩

def fs : FileSystem := ⟨fun tool => .ok ("/bin/" ++ tool), .ok⟩

def free : Grant := ⟨"tool", "/bin/tool", some [bob], true, none, none, none, none⟩

/-- Held by the run of a job. -/
def held : Grant := { free with reservation := some "first" }

def job : Job := ⟨"first", ⟨"alice"⟩, ["tool"], bob, .running, [], []⟩

def store : Store := { Store.blank "alice" [] with
  peers := [⟨bob, [], none⟩]
  grants := [held]
  jobs := [job]
  requests := [⟨"request", bob, "tool", true⟩] }

def approveOnce : Request.Decision := .allow .requester true none none

def now : Clock := ⟨0, .mon, 0, 0⟩

/-- While its job runs, approving a single-use permission again frees it for a second run. -/
theorem second_run :
    ∃ t, Request.decide fs store "request" approveOnce = .ok (t, some free) ∧ store.grant? "tool" = some held ∧
      t.grant? "tool" = some free ∧ t ≠ Grant.invalidateRequests store "tool" ∧
      Exec.authorize store bob ["tool"] now = .error (.grantBusy "tool") ∧
      Exec.authorize t bob ["tool"] now = .ok free := by
  refine ⟨Grant.commit store free, by rfl, by decide, by decide, fun same => ?_, by decide, by decide⟩
  exact absurd (congrArg Store.grants same) (by decide)

def settled : Store := { store with grants := [free], jobs := [] }

theorem settled_unchanged :
    ∃ t, Request.decide fs settled "request" approveOnce = .ok (t, some free) ∧
      t = Grant.invalidateRequests settled "tool" := by
  have approved : Request.decide fs settled "request" approveOnce = .ok (Grant.commit settled free, some free) := by rfl
  have existing : settled.grant? free.tool = some free := by decide
  exact ⟨_, approved, (Request.reapproval_unchanged_iff existing approved).1.mpr ⟨rfl, [], rfl, nofun⟩⟩

end ReapprovalExample

end Clix
