import Clix.Model.Store
import Clix.Model.Limits

/-! # Granting tools and checking grants

Looking a program up on the search path and making a path absolute depend on the file system, so
both are parameters. Grants are kept in a list; a lookup uses the first one for the tool.
-/

namespace Clix

open Except

/-- What a command needs from its process environment. -/
structure FileSystem where
  /-- The executable a name denotes. -/
  resolveTool : String → Result String
  /-- The absolute spelling of a path. -/
  absolute : String → Result String

namespace Grant

/-- The parts of a path between slashes. -/
def components : List Char → List (List Char)
  | [] => [[]]
  | ch :: rest =>
    match components rest with
    | [] => [[ch]]
    | part :: others => if ch = '/' then [] :: part :: others else (ch :: part) :: others

/-- The last component of a path, or the whole name when there is none. -/
def toolKey (name : String) : String :=
  let parts := (components name.toList).filter (fun part => part ≠ [] ∧ part ≠ ['.'])
  match parts.getLast? with
  | none => name
  | some part => if part = ['.', '.'] then name else String.ofList part

/-- Each allowed argument vector must be the tail of an admissible invocation. -/
def validateArgs (key : String) : List (List String) → Result Unit
  | [] => .ok ()
  | pattern :: rest => do
    Limits.invocation "allowlist" (key :: pattern)
    validateArgs key rest

/-- An argument allowlist is checked only when there is one. -/
def checkPatterns (key : String) (args : Option (List (List String))) : Result Unit :=
  match args with
  | none => .ok ()
  | some patterns => do
    refuseIf (patterns = []) (.usage "an argument allowlist needs at least one entry")
    validateArgs key patterns

/-- Each allowed machine must be this one or a paired one. -/
def validateAllow (s : Store) : List String → Result Unit
  | [] => .ok ()
  | name :: rest => do
    refuseIf (name ≠ s.bodyName ∧ ¬s.peers.any (fun p => p.name.name == name))
      (.usage (name ++ " is not a paired machine"))
    validateAllow s rest

/-- The grant an addition or approval would produce. -/
def build (fs : FileSystem) (s : Store) (tool : String) (allow : List String) (once : Bool)
    (expiry : Option SystemTime) (schedule : Option Schedule) (args : Option (List (List String))) :
    Result Grant := do
  Limits.tool tool
  refuseIf (once = true ∧ schedule.isSome = true) (.usage "use --once or a schedule, not both")
  checkPatterns (toolKey tool) args
  let binary ← fs.resolveTool tool
  validateAllow s allow
  return {
    tool := toolKey tool
    binary := binary
    allowFrom := if allow = [] then none else some (allow.map BodyId.mk)
    once := once
    «until» := expiry
    schedule := schedule
    reservation := none
    args := args }

/-- A pending approval cannot supersede a later owner decision for this slot. -/
def invalidateRequests (s : Store) (key : String) : Store :=
  { s with requests := s.requests.filter (fun r => toolKey r.tool != key) }

/-- Replace any grant for the same tool and invalidate its pending requests. -/
def commit (s : Store) (grant : Grant) : Store :=
  invalidateRequests
    { s with grants := s.grants.filter (fun g => g.tool != grant.tool) ++ [grant] } grant.tool

def addWithArgs (fs : FileSystem) (s : Store) (tool : String) (allow : List String) (once : Bool)
    (expiry : Option SystemTime) (schedule : Option Schedule) (args : Option (List (List String))) :
    Result (Store × Grant) := do
  let grant ← build fs s tool allow once expiry schedule args
  return (commit s grant, grant)

/-- Two grants describe the same permission, ignoring a transient run reservation. -/
def samePermission (a b : Grant) : Bool :=
  decide ({ a with reservation := none } = { b with reservation := none })

/-- How one allowed argument vector is shown. -/
def describeArgs (pattern : List String) : String :=
  if pattern = [] then "(no arguments)" else " ".intercalate pattern

/-- Enforce a grant's argument allowlist: `argv[1..]` must be one of its vectors exactly. -/
def checkArgs (grant : Grant) (argv : List String) : Result Unit :=
  match grant.args with
  | none => .ok ()
  | some patterns =>
    if patterns.any (fun p => p == argv.drop 1) then .ok ()
    else .error (.usage (grant.tool ++ " is granted only with these arguments: " ++
      " | ".intercalate (patterns.map describeArgs)))

def isPath (tool : String) : Bool := tool.toList.contains '/'

/-- Resolve only the spelling of a removal path, never its filesystem target. -/
def removalTarget (fs : FileSystem) (tool : String) : Result String :=
  if isPath tool then fs.absolute tool else .ok tool

/-- Whether a removal of this name and target selects a grant. -/
def isRemoved (tool target : String) (g : Grant) : Bool :=
  if isPath tool then g.binary == target else g.tool == tool

/-- A removal names a tool by its key, or by the absolute path of its program. The removed grant is
returned. -/
def remove (fs : FileSystem) (s : Store) (tool : String) : Result (Store × Grant) := do
  let target ← removalTarget fs tool
  match s.grants.find? (isRemoved tool target) with
  | none => .error (.notAdded tool s.bodyName)
  | some removed =>
    return (invalidateRequests { s with grants := s.grants.eraseP (isRemoved tool target) } removed.tool,
      removed)

/-- The grant that lets a machine use a tool at this time. -/
def checkAt (s : Store) (tool : String) (origin : BodyId) (now : Clock) : Result Grant := do
  let grant ← match s.grant? tool with
    | none => .error (.notAdded tool s.bodyName)
    | some grant => .ok grant
  refuseIf (grant.reservation.isSome = true) (.grantBusy grant.tool)
  refuseIf (∃ allowed ∈ grant.allowFrom, origin ∉ allowed)
    (.notAllowed grant.tool origin.name s.bodyName)
  refuseIf (∃ expiry ∈ grant.until, expiry < now.instant) (.expired grant.tool s.bodyName)
  refuseIf (∃ schedule ∈ grant.schedule, schedule.allowsAt now = false)
    (.notAddedAtTime grant.tool s.bodyName)
  return grant

/-- Every condition a successful check has established. -/
theorem checkAt_eq_ok {s : Store} {tool : String} {origin : BodyId} {now : Clock} {g : Grant}
    (success : checkAt s tool origin now = .ok g) :
    s.grant? tool = some g ∧ g.reservation = none ∧
      (∀ allowed, g.allowFrom = some allowed → origin ∈ allowed) ∧
      (∀ expiry, g.until = some expiry → now.instant ≤ expiry) ∧
      (∀ schedule, g.schedule = some schedule → schedule.allowsAt now = true) := by
  rw [checkAt] at success
  cases found : s.grant? tool with
  | none => simp [found] at success
  | some grant =>
    simp only [found, ok_bind, refuseIf_bind_eq_ok, pure_eq_ok, Except.ok.injEq] at success
    obtain ⟨free, allowed, current, scheduled, rfl⟩ := success
    refine ⟨rfl, by simpa using free, ?_, ?_, ?_⟩
    · intro list same
      by_contra outside
      exact allowed ⟨list, same, outside⟩
    · intro expiry same
      by_contra late
      exact current ⟨expiry, same, not_le.mp late⟩
    · intro schedule same
      by_contra closed
      exact scheduled ⟨schedule, same, Bool.eq_false_iff.mpr closed⟩

theorem checkAt_tool {s : Store} {tool : String} {origin : BodyId} {now : Clock} {g : Grant}
    (success : checkAt s tool origin now = .ok g) : g.tool = tool := by
  have found := (checkAt_eq_ok success).1
  simpa using List.find?_some found

theorem checkArgs_eq_ok {g : Grant} {argv : List String} :
    checkArgs g argv = .ok () ↔ ∀ patterns, g.args = some patterns → argv.drop 1 ∈ patterns := by
  rw [checkArgs]
  cases g.args with
  | none => simp
  | some patterns => simp

end Grant

end Clix
