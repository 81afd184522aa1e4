import Clix.Soundness.Commands

/-! # What the flags of a grant come to

The flags that the owner typed allow machines, times and arguments. The grant that the sidecar commits on the request
allows exactly these, and no state that restates the grant allows more.
-/

namespace Clix

open Except Json

namespace Cli

/-- The day a flag names. -/
def dayNamed (text : String) : Option Weekday := weekday? (String.ofList (toAsciiLowercase (trim text.toList)))

/-- The day of the month a flag names. -/
def dateNamed (text : String) : Option ℕ := parseBelow (2 ^ 8) (trim text.toList)

/-- A time of day within a window, which may go past midnight. -/
def Within (t : NaiveTime) : Option NaiveTime → Option NaiveTime → Prop
  | none, none => True
  | some opens, none => opens ≤ t
  | none, some closes => t ≤ closes
  | some opens, some closes => (opens ≤ t ∧ t ≤ closes) ∨ (closes < opens ∧ (opens ≤ t ∨ t ≤ closes))

/-- What flags allow that were given at some instant. Flags that name no machine mean the one that asked, and a deadline
beside a duration is not looked at. -/
structure GrantCli.Permits (calendar : Calendar) (g : GrantCli) (asked : SystemTime) (requester : Option BodyId)
    (origin : BodyId) (now : Clock) (argv : List String) : Prop where
  machine : g.all = true ∨ origin.name ∈ g.allow ∨ (g.server = true ∧ origin.name = "server") ∨
    (g.allow = [] ∧ g.server = false ∧ requester = some origin)
  duration : ∀ text secs, g.forDur = some text → parseDuration text = .returns (.ok secs) →
    now.instant ≤ asked + secs.toNat * nanosPerSecond
  deadline : g.forDur = none → ∀ text t, g.until = some text → parseUntil calendar text = .ok t →
    now.instant ≤ t / nanosPerSecond * nanosPerSecond
  day : (g.days = [] ∧ g.dates = [] ∧ g.weekdays = false) ∨ (∃ text ∈ g.days, dayNamed text = some now.weekday) ∨
    (g.weekdays = true ∧ now.weekday ∈ Owner.workdays) ∨ ∃ text ∈ g.dates, dateNamed text = some now.day.toNat
  time : Within now.time (g.opensAt.bind time?) (g.closesAt.bind time?)
  arguments : g.only = [] ∨ ∃ line ∈ g.only, argv.drop 1 = splitWhitespace line

/-! ## Accepted flags -/

theorem validateDays_eq_ok {days lower : List String} (success : validateDays days = .ok lower) :
    lower = days.map (fun day => String.ofList (toAsciiLowercase (trim day.toList))) ∧
      ∀ day ∈ lower, day ∈ weekdayNames := by
  induction days generalizing lower with
  | nil =>
    cases success
    exact ⟨rfl, by simp⟩
  | cons day rest ih =>
    rw [validateDays] at success
    obtain ⟨named, success⟩ := refuseIf_bind_eq_ok.mp success
    obtain ⟨others, checked, same⟩ := bind_eq_ok.mp success
    cases same
    obtain ⟨mapped, known⟩ := ih checked
    exact ⟨by rw [List.map_cons, mapped], List.forall_mem_cons.mpr ⟨not_not.mp named, known⟩⟩

theorem parseDates_eq_ok {texts : List String} {dates : List UInt8} (success : parseDates texts = .ok dates) :
    (∀ date ∈ dates, 1 ≤ date.toNat ∧ date.toNat ≤ 31) ∧ (dates = [] ↔ texts = []) ∧
      ∀ day : UInt8, day ∈ dates ↔ ∃ text ∈ texts, dateNamed text = some day.toNat := by
  induction texts generalizing dates with
  | nil =>
    cases success
    simp
  | cons text rest ih =>
    rw [parseDates] at success
    cases parsed : parseBelow (2 ^ 8) (trim text.toList) with
    | none =>
      rw [parsed] at success
      cases success
    | some n =>
      rw [parsed] at success
      obtain ⟨inRange, success⟩ := refuseIf_bind_eq_ok.mp success
      obtain ⟨others, checked, same⟩ := bind_eq_ok.mp success
      cases same
      have range := not_not.mp inRange
      have back : n.toUInt8.toNat = n := by
        change n % 256 = n
        omega
      obtain ⟨each, -, named⟩ := ih checked
      have meant : dateNamed text = some n := parsed
      refine ⟨List.forall_mem_cons.mpr ⟨by rwa [back], each⟩, by simp, fun day => ?_⟩
      have first : day = n.toUInt8 ↔ dateNamed text = some day.toNat := by
        rw [meant, Option.some.injEq, ← UInt8.toNat_inj, back, eq_comm]
      rw [List.mem_cons, named day, first]
      simp

theorem checkEach_eq_ok {o : Option String} (success : checkEach validateAmpm o = .ok ()) (s : String)
    (given : o = some s) : (parseAmpm s).isOk = true := by
  subst given
  obtain ⟨minutes, parsed, -⟩ := bind_eq_ok.mp success
  rw [parsed]
  rfl

/-- What is known of flags that were accepted. -/
structure Parsed (calendar : Calendar) (g : GrantCli) (defaultOnce requireScope : Bool) (n : GrantNarrow) : Prop where
  alone : g.all = true → g.server = false ∧ g.allow = []
  machines : requireScope = true → g.all = true ∨ g.server = true ∨ g.allow ≠ []
  exclusive : g.weekdays = true → g.days = []
  narrowed : ∃ days dates forDur deadline, n = g.narrow defaultOnce days dates forDur deadline
  days : validateDays g.days = .ok n.days
  dates : parseDates g.dates = .ok n.dates
  opens : checkEach validateAmpm g.opensAt = .ok ()
  closes : checkEach validateAmpm g.closesAt = .ok ()
  duration : parseFor g.forDur = .returns (.ok n.forDur)
  deadline : n.until = none ∧ g.until = none ∨ ∃ text t, g.until = some text ∧ parseUntil calendar text = .ok t ∧
    n.until = some t

theorem checkGrantCli_eq_ok {g : GrantCli} {requireScope : Bool} {days : List String} {dates : List UInt8}
    (success : checkGrantCli g requireScope = .ok (days, dates)) :
    (g.all = true → g.server = false ∧ g.allow = []) ∧
      (requireScope = true → g.all = true ∨ g.server = true ∨ g.allow ≠ []) ∧
      (g.weekdays = true → g.days = []) ∧ validateDays g.days = .ok days ∧ parseDates g.dates = .ok dates ∧
      checkEach validateAmpm g.opensAt = .ok () ∧ checkEach validateAmpm g.closesAt = .ok () := by
  rw [checkGrantCli] at success
  obtain ⟨alone, success⟩ := refuseIf_bind_eq_ok.mp success
  obtain ⟨machines, success⟩ := refuseIf_bind_eq_ok.mp success
  obtain ⟨-, success⟩ := refuseIf_bind_eq_ok.mp success
  obtain ⟨exclusive, success⟩ := refuseIf_bind_eq_ok.mp success
  obtain ⟨lower, checked, success⟩ := bind_eq_ok.mp success
  obtain ⟨numbers, parsed, success⟩ := bind_eq_ok.mp success
  obtain ⟨⟨⟩, opens, success⟩ := bind_eq_ok.mp success
  obtain ⟨⟨⟩, closes, success⟩ := bind_eq_ok.mp success
  cases success
  refine ⟨fun all => ?_, fun required => ?_, fun weekdays => ?_, checked, parsed, opens, closes⟩
  · refine ⟨Bool.eq_false_iff.mpr (fun server => alone ⟨all, .inl server⟩), ?_⟩
    by_contra listed
    exact alone ⟨all, .inr listed⟩
  · by_contra unscoped
    rw [not_or, not_or, not_not] at unscoped
    exact machines ⟨required, Bool.eq_false_iff.mpr unscoped.1, Bool.eq_false_iff.mpr unscoped.2.1, unscoped.2.2⟩
  · by_contra listed
    exact exclusive ⟨weekdays, listed⟩

theorem parseGrantCli_eq_ok {calendar : Calendar} {g : GrantCli} {defaultOnce requireScope : Bool} {n : GrantNarrow}
    (success : parseGrantCli calendar g defaultOnce requireScope = .returns (.ok n)) :
    Parsed calendar g defaultOnce requireScope n := by
  rw [parseGrantCli] at success
  cases checked : checkGrantCli g requireScope with
  | error e =>
    rw [checked] at success
    cases success
  | ok lists =>
    obtain ⟨days, dates⟩ := lists
    rw [checked] at success
    obtain ⟨alone, machines, exclusive, named, numbered, opens, closes⟩ := checkGrantCli_eq_ok checked
    dsimp only at success
    cases duration : parseFor g.forDur with
    | panics =>
      rw [duration] at success
      cases success
    | returns result =>
      rw [duration] at success
      cases result with
      | error e => cases success
      | ok forDur =>
        obtain ⟨deadline, parsed, same⟩ := bind_eq_ok.mp (Call.returns.inj success)
        cases same
        refine ⟨alone, machines, exclusive, ⟨_, _, _, _, rfl⟩, named, numbered, opens, closes, duration, ?_⟩
        cases given : g.until with
        | none =>
          rw [given] at parsed
          cases parsed
          exact .inl ⟨rfl, rfl⟩
        | some text =>
          rw [given, parseDeadline] at parsed
          cases instant : parseUntil calendar text with
          | error e =>
            rw [instant] at parsed
            cases parsed
          | ok t =>
            rw [instant] at parsed
            cases parsed
            exact .inr ⟨text, t, rfl, instant, rfl⟩

theorem parseUntil_lt {calendar : Calendar} {s : String} {t : SystemTime} (success : parseUntil calendar s = .ok t) :
    t / nanosPerSecond < 2 ^ 63 := by
  obtain ⟨minutes, -, success⟩ := bind_eq_ok.mp success
  obtain ⟨today, resolved, success⟩ := bind_eq_ok.mp success
  have first : today / nanosPerSecond < 2 ^ 63 := by
    cases known : calendar.today minutes with
    | none =>
      rw [known] at resolved
      cases resolved
    | some instant =>
      rw [known] at resolved
      cases resolved
      exact calendar.today_lt minutes today known
  split_ifs at success with later
  · cases success
    exact first
  · obtain ⟨resolve, follows, success⟩ := bind_eq_ok.mp success
    cases next : calendar.tomorrow with
    | none =>
      rw [next] at follows
      cases follows
    | some tomorrow =>
      rw [next] at follows
      cases follows
      cases known : resolve minutes with
      | none =>
        rw [known] at success
        cases success
      | some instant =>
        rw [known] at success
        cases success
        exact calendar.tomorrow_lt resolve minutes t next known

variable {calendar : Calendar} {g : GrantCli} {defaultOnce requireScope : Bool} {n : GrantNarrow}

theorem Parsed.checked (parsed : Parsed calendar g defaultOnce requireScope n) : n.Checked := by
  obtain ⟨lower, known⟩ := validateDays_eq_ok parsed.days
  obtain ⟨days, dates, forDur, deadline, same⟩ := parsed.narrowed
  have weekdays : n.weekdays = g.weekdays := by rw [same, GrantCli.narrow]
  have opens : n.opensAt = g.opensAt := by rw [same, GrantCli.narrow]
  have closes : n.closesAt = g.closesAt := by rw [same, GrantCli.narrow]
  refine ⟨known, fun given => ?_, fun date member => ?_, ?_, ?_, fun t given => ?_⟩
  · rw [lower, parsed.exclusive (weekdays ▸ given), List.map_nil]
  · exact (parseDates_eq_ok parsed.dates).1 date member
  · exact opens ▸ checkEach_eq_ok parsed.opens
  · exact closes ▸ checkEach_eq_ok parsed.closes
  · rcases parsed.deadline with ⟨none, -⟩ | ⟨text, instant, -, known, some⟩
    · rw [none] at given
      cases given
    · rw [some] at given
      cases given
      exact parseUntil_lt known

end Cli

/-! ## Grants -/

namespace Grant

/-- What a grant allows, when no run holds it. -/
structure Covers (g : Grant) (origin : BodyId) (now : Clock) (argv : List String) : Prop where
  machine : ∀ bodies, g.allowFrom = some bodies → origin ∈ bodies
  expiry : ∀ t, g.until = some t → now.instant ≤ t
  schedule : ∀ schedule, g.schedule = some schedule → schedule.allowsAt now = true
  arguments : ∀ patterns, g.args = some patterns → argv.drop 1 ∈ patterns

/-- Whether a state lets a machine run this now. -/
def Allowed (s : Store) (tool : String) (origin : BodyId) (now : Clock) (argv : List String) : Prop :=
  ∃ g, checkAt s tool origin now = .ok g ∧ checkArgs g argv = .ok ()

variable {s : Store} {tool : String} {origin : BodyId} {now : Clock} {argv : List String} {g : Grant}

theorem checkAt_of_free (found : s.grant? tool = some g) (free : g.reservation = none)
    (machine : ∀ bodies, g.allowFrom = some bodies → origin ∈ bodies)
    (expiry : ∀ t, g.until = some t → now.instant ≤ t)
    (schedule : ∀ schedule, g.schedule = some schedule → schedule.allowsAt now = true) :
    checkAt s tool origin now = .ok g := by
  have unreserved : ¬g.reservation.isSome = true := by simp [free]
  have listed : ¬∃ allowed ∈ g.allowFrom, origin ∉ allowed := by
    rintro ⟨bodies, given, outside⟩
    exact outside (machine bodies given)
  have current : ¬∃ t ∈ g.until, t < now.instant := by
    rintro ⟨t, given, late⟩
    exact absurd (expiry t given) (not_le.mpr late)
  have scheduled : ¬∃ schedule ∈ g.schedule, schedule.allowsAt now = false := by
    rintro ⟨window, given, closed⟩
    rw [schedule window given] at closed
    cases closed
  rw [checkAt, found]
  change (refuseIf _ _ >>= _) = _
  rw [refuseIf_neg unreserved, ok_bind, refuseIf_neg listed, ok_bind, refuseIf_neg current, ok_bind,
    refuseIf_neg scheduled]
  rfl

theorem allowed_iff : Allowed s tool origin now argv ↔
    ∃ g, s.grant? tool = some g ∧ g.reservation = none ∧ g.Covers origin now argv := by
  constructor
  · rintro ⟨g, checked, fits⟩
    obtain ⟨found, free, machine, expiry, schedule⟩ := checkAt_eq_ok checked
    exact ⟨g, found, free, machine, expiry, schedule, checkArgs_eq_ok.mp fits⟩
  · rintro ⟨g, found, free, covers⟩
    exact ⟨g, checkAt_of_free found free covers.machine covers.expiry covers.schedule,
      checkArgs_eq_ok.mpr covers.arguments⟩

/-- The grant of a request that passes every check. -/
theorem build_eq_ok {fs : FileSystem} {path : String} {allow : List String} {once : Bool} {expiry : Option SystemTime}
    {schedule : Option Schedule} {args : Option (List (List String))}
    (success : build fs s path allow once expiry schedule args = .ok g) :
    g.tool = toolKey path ∧ g.allowFrom = (if allow = [] then none else some (allow.map BodyId.mk)) ∧ g.until = expiry ∧
      g.schedule = schedule ∧ g.reservation = none ∧ g.args = args ∧ g.once = once := by
  rw [build] at success
  obtain ⟨⟨⟩, -, success⟩ := bind_eq_ok.mp success
  obtain ⟨-, success⟩ := refuseIf_bind_eq_ok.mp success
  obtain ⟨⟨⟩, -, success⟩ := bind_eq_ok.mp success
  obtain ⟨binary, -, success⟩ := bind_eq_ok.mp success
  obtain ⟨⟨⟩, -, success⟩ := bind_eq_ok.mp success
  cases success
  exact ⟨rfl, rfl, rfl, rfl, rfl, rfl, rfl⟩

theorem grant?_commit : (commit s g).grant? g.tool = some g := by
  rw [Store.grant?, commit, invalidateRequests]
  dsimp only
  rw [List.find?_append, List.find?_eq_none.mpr, Option.none_or, List.find?_cons_of_pos (by simp)]
  intro h member
  simpa using (List.mem_filter.mp member).2

theorem allowed_commit_iff (free : g.reservation = none) :
    Allowed (commit s g) g.tool origin now argv ↔ g.Covers origin now argv := by
  rw [allowed_iff, grant?_commit]
  simp [free]

/-- A restart never widens what is allowed: it keeps the whole seconds of an expiry. -/
theorem allowed_of_reloaded (allowed : Allowed s.reloaded tool origin now argv) : Allowed s tool origin now argv := by
  obtain ⟨g, found, free, covers⟩ := allowed_iff.mp allowed
  rw [Store.grant?, Store.reloaded, List.find?_map, Option.map_eq_some_iff] at found
  obtain ⟨h, found, same⟩ := found
  rw [← same] at free covers
  refine allowed_iff.mpr ⟨h, found, free, covers.machine, fun t ends => ?_, covers.schedule, covers.arguments⟩
  have floored := covers.expiry (t / nanosPerSecond * nanosPerSecond) (by rw [ends, Option.map_some])
  exact floored.trans (Nat.div_mul_le_self t nanosPerSecond)

end Grant

/-! ## What flags come to -/

namespace Cli

variable {calendar : Calendar} {g : GrantCli} {n : GrantNarrow} {asked : SystemTime} {origin : BodyId} {now : Clock}
  {argv : List String} {defaultOnce requireScope : Bool}

theorem within_iff (opens closes : Option NaiveTime) (t : NaiveTime) (days : List Weekday) (dates : List UInt8) :
    (Schedule.mk days dates opens closes).timeOk t = true ↔ Within t opens closes := by
  cases opens with
  | none => cases closes <;> simp [Schedule.timeOk, Within]
  | some o =>
    cases closes with
    | none => simp [Schedule.timeOk, Within]
    | some c =>
      by_cases ordered : o ≤ c
      · simp [Schedule.timeOk, Within, ordered, not_lt.mpr ordered]
      · simp only [Schedule.timeOk, Within, if_neg ordered, Bool.or_eq_true, decide_eq_true_eq, not_le.mp ordered,
          true_and]
        constructor
        · exact .inr
        · rintro (⟨late, early⟩ | inside)
          · exact .inl late
          · exact inside

theorem weekday?_isSome {day : String} (named : day ∈ weekdayNames) : (weekday? day).isSome = true := by
  obtain ⟨d, meant, -⟩ := Owner.parseWeekday_of_name named
  rw [meant]
  rfl

theorem Parsed.mem_namedDays (parsed : Parsed calendar g defaultOnce requireScope n) (day : Weekday) :
    day ∈ n.namedDays ↔
      (g.weekdays = true ∧ day ∈ Owner.workdays) ∨ ∃ text ∈ g.days, dayNamed text = some day := by
  obtain ⟨days, dates, forDur, deadline, same⟩ := parsed.narrowed
  have weekdays : n.weekdays = g.weekdays := by rw [same, GrantCli.narrow]
  have named : day ∈ n.days.filterMap weekday? ↔ ∃ text ∈ g.days, dayNamed text = some day := by
    rw [(validateDays_eq_ok parsed.days).1, List.filterMap_map, List.mem_filterMap]
    rfl
  rw [GrantNarrow.namedDays, List.mem_append, named, weekdays]
  by_cases flag : g.weekdays = true <;> simp [flag]

theorem Parsed.namedDays_eq_nil (parsed : Parsed calendar g defaultOnce requireScope n) :
    n.namedDays = [] ↔ g.weekdays = false ∧ g.days = [] := by
  obtain ⟨days, dates, forDur, deadline, same⟩ := parsed.narrowed
  have weekdays : n.weekdays = g.weekdays := by rw [same, GrantCli.narrow]
  obtain ⟨lower, known⟩ := validateDays_eq_ok parsed.days
  have none : n.days.filterMap weekday? = [] ↔ g.days = [] := by
    rw [List.filterMap_eq_nil_iff, ← List.map_eq_nil_iff, ← lower]
    constructor
    · intro unknown
      refine List.eq_nil_iff_forall_not_mem.mpr (fun day member => ?_)
      have some := weekday?_isSome (known day member)
      rw [unknown day member] at some
      cases some
    · intro empty
      rw [empty]
      simp
  rw [GrantNarrow.namedDays, List.append_eq_nil_iff, none, weekdays]
  cases g.weekdays <;> simp [Owner.workdays]

/-- A schedule that limits nothing is not written. -/
theorem schedule_allows_iff {days : List Weekday} {dates : List UInt8} {opens closes : Option NaiveTime} :
    (∀ schedule, (if days = [] ∧ dates = [] ∧ opens = none ∧ closes = none then none
        else some (Schedule.mk days dates opens closes)) = some schedule → schedule.allowsAt now = true) ↔
      ((days = [] ∧ dates = []) ∨ now.weekday ∈ days ∨ now.day ∈ dates) ∧ Within now.time opens closes := by
  have calendarOk : (Schedule.mk days dates opens closes).calendarOk now = true ↔
      (days = [] ∧ dates = []) ∨ now.weekday ∈ days ∨ now.day ∈ dates := by
    simp [Schedule.calendarOk, or_assoc]
  by_cases unlimited : days = [] ∧ dates = [] ∧ opens = none ∧ closes = none
  · obtain ⟨dayless, dateless, unopened, unclosed⟩ := unlimited
    rw [if_pos ⟨dayless, dateless, unopened, unclosed⟩, unopened, unclosed]
    constructor
    · intro _
      exact ⟨.inl ⟨dayless, dateless⟩, trivial⟩
    · intro _ schedule given
      cases given
  · rw [if_neg unlimited]
    constructor
    · intro each
      obtain ⟨allowed, inside⟩ := Bool.and_eq_true_iff.mp (each _ rfl)
      exact ⟨calendarOk.mp allowed, (within_iff ..).mp inside⟩
    · rintro ⟨allowed, inside⟩ schedule given
      rw [← Option.some.inj given]
      exact Bool.and_eq_true_iff.mpr ⟨calendarOk.mpr allowed, (within_iff ..).mpr inside⟩

theorem Parsed.schedule_iff (parsed : Parsed calendar g defaultOnce requireScope n) :
    (∀ schedule, n.schedule = some schedule → schedule.allowsAt now = true) ↔
      ((g.days = [] ∧ g.dates = [] ∧ g.weekdays = false) ∨ (∃ text ∈ g.days, dayNamed text = some now.weekday) ∨
        (g.weekdays = true ∧ now.weekday ∈ Owner.workdays) ∨ ∃ text ∈ g.dates, dateNamed text = some now.day.toNat) ∧
      Within now.time (g.opensAt.bind time?) (g.closesAt.bind time?) := by
  obtain ⟨days, dates, forDur, deadline, same⟩ := parsed.narrowed
  have opens : n.opensAt = g.opensAt := by rw [same, GrantCli.narrow]
  have closes : n.closesAt = g.closesAt := by rw [same, GrantCli.narrow]
  obtain ⟨-, noDates, dated⟩ := parseDates_eq_ok parsed.dates
  have limits : (∀ schedule, n.schedule = some schedule → schedule.allowsAt now = true) ↔
      ((n.namedDays = [] ∧ n.dates = []) ∨ now.weekday ∈ n.namedDays ∨ now.day ∈ n.dates) ∧
        Within now.time (g.opensAt.bind time?) (g.closesAt.bind time?) := by
    rw [← opens, ← closes]
    exact schedule_allows_iff
  rw [limits, parsed.namedDays_eq_nil, parsed.mem_namedDays, noDates, dated]
  refine and_congr_left' (or_congr ?_ ?_)
  · constructor
    · rintro ⟨⟨weekdays, dayless⟩, dateless⟩
      exact ⟨dayless, dateless, weekdays⟩
    · rintro ⟨dayless, dateless, weekdays⟩
      exact ⟨⟨weekdays, dayless⟩, dateless⟩
  · rw [or_comm (a := g.weekdays = true ∧ _), or_assoc]

theorem Parsed.allow_eq (parsed : Parsed calendar g defaultOnce requireScope n) :
    n.allow = if g.server then g.allow ++ ["server"] else g.allow := by
  obtain ⟨days, dates, forDur, deadline, same⟩ := parsed.narrowed
  rw [same, GrantCli.narrow]

theorem mem_map_bodyId {names : List String} : origin ∈ names.map BodyId.mk ↔ origin.name ∈ names := by
  rw [List.mem_map]
  constructor
  · rintro ⟨name, member, made⟩
    exact made ▸ member
  · intro member
    exact ⟨origin.name, member, rfl⟩

theorem Parsed.mem_allow (parsed : Parsed calendar g defaultOnce requireScope n) :
    origin ∈ n.allow.map BodyId.mk ↔ origin.name ∈ g.allow ∨ (g.server = true ∧ origin.name = "server") := by
  rw [mem_map_bodyId, parsed.allow_eq]
  cases g.server <;> simp

theorem Parsed.allow_eq_nil (parsed : Parsed calendar g defaultOnce requireScope n) :
    n.allow = [] ↔ g.allow = [] ∧ g.server = false := by
  rw [parsed.allow_eq]
  cases g.server <;> simp

/-- Flags that must name machines, and name none, are for every machine. -/
theorem Parsed.all_of_unlisted (parsed : Parsed calendar g defaultOnce true n) (unlisted : n.allow = []) :
    g.all = true := by
  obtain ⟨empty, absent⟩ := parsed.allow_eq_nil.mp unlisted
  rcases parsed.machines rfl with all | server | named
  · exact all
  · rw [absent] at server
    cases server
  · exact absurd empty named

theorem Parsed.add_machine_iff (parsed : Parsed calendar g defaultOnce true n) :
    (∀ bodies, (if n.allow = [] then none else some (n.allow.map BodyId.mk)) = some bodies → origin ∈ bodies) ↔
      g.all = true ∨ origin.name ∈ g.allow ∨ (g.server = true ∧ origin.name = "server") ∨
        (g.allow = [] ∧ g.server = false ∧ (none : Option BodyId) = some origin) := by
  by_cases unlisted : n.allow = []
  · rw [if_pos unlisted]
    simp [parsed.all_of_unlisted unlisted]
  · rw [if_neg unlisted]
    simp only [Option.some.injEq, forall_eq', parsed.mem_allow, reduceCtorEq, and_false, or_false]
    constructor
    · exact .inr
    · rintro (all | listed)
      · obtain ⟨absent, empty⟩ := parsed.alone all
        exact absurd (parsed.allow_eq_nil.mpr ⟨empty, absent⟩) unlisted
      · exact listed

/-- An approval is for the machines listed, or else for the one that asked. -/
theorem Parsed.allow_machine_iff {requester : BodyId} {names : List String}
    (parsed : Parsed calendar g defaultOnce requireScope n) (selective : g.all = false)
    (reaching : (if n.allow = [] then Request.Scope.requester else .bodies n.allow).names requester = .ok names) :
    (∀ bodies, (if names = [] then none else some (names.map BodyId.mk)) = some bodies → origin ∈ bodies) ↔
      g.all = true ∨ origin.name ∈ g.allow ∨ (g.server = true ∧ origin.name = "server") ∨
        (g.allow = [] ∧ g.server = false ∧ some requester = some origin) := by
  by_cases unlisted : n.allow = []
  · rw [if_pos unlisted, Request.Scope.names] at reaching
    cases reaching
    obtain ⟨empty, absent⟩ := parsed.allow_eq_nil.mp unlisted
    simp [empty, absent, selective, eq_comm]
  · rw [if_neg unlisted] at reaching
    have listed : names = n.allow := by
      cases same : n.allow with
      | nil => exact absurd same unlisted
      | cons name others =>
        rw [same] at reaching
        exact (Except.ok.inj reaching).symm
    rw [listed, if_neg unlisted]
    have unasked : ¬(g.allow = [] ∧ g.server = false ∧ some requester = some origin) := by
      rintro ⟨empty, absent, -⟩
      exact unlisted (parsed.allow_eq_nil.mpr ⟨empty, absent⟩)
    simp only [Option.some.injEq, forall_eq', parsed.mem_allow, selective, Bool.false_eq_true, false_or]
    simp only [Option.some.injEq] at unasked
    rw [or_iff_left unasked]

theorem Parsed.expiry_iff {e : Option SystemTime} (parsed : Parsed calendar g defaultOnce requireScope n)
    (expires : n.expiry asked = .ok e) : (∀ t, e = some t → now.instant ≤ t) ↔
      (∀ text secs, g.forDur = some text → parseDuration text = .returns (.ok secs) →
        now.instant ≤ asked + secs.toNat * nanosPerSecond) ∧
      (g.forDur = none → ∀ text t, g.until = some text → parseUntil calendar text = .ok t →
        now.instant ≤ t / nanosPerSecond * nanosPerSecond) := by
  have duration := parsed.duration
  rw [GrantNarrow.expiry] at expires
  cases given : g.forDur with
  | none =>
    rw [given, parseFor] at duration
    rw [← Except.ok.inj (Call.returns.inj duration)] at expires
    cases expires
    rcases parsed.deadline with ⟨endless, untyped⟩ | ⟨text, t, typed, resolved, ends⟩
    · simp [endless, untyped]
    · constructor
      · intro each
        refine ⟨by simp, fun _ other ending typed' resolved' => ?_⟩
        cases typed.symm.trans typed'
        cases resolved.symm.trans resolved'
        exact each _ (by rw [ends, Option.map_some])
      · rintro ⟨-, deadline⟩ ending same
        rw [ends, Option.map_some] at same
        exact Option.some.inj same ▸ deadline rfl text t typed resolved
  | some text =>
    rw [given, parseFor] at duration
    cases read : parseDuration text with
    | panics =>
      rw [read] at duration
      cases duration
    | returns result =>
      rw [read] at duration
      cases result with
      | error refused => cases Call.returns.inj duration
      | ok secs =>
        rw [← Except.ok.inj (Call.returns.inj duration)] at expires
        dsimp only at expires
        cases added : Owner.checkedAddSecs asked secs.toNat with
        | none =>
          rw [added] at expires
          cases expires
        | some ending =>
          rw [added] at expires
          cases expires
          have sum : ending = asked + secs.toNat * nanosPerSecond := by
            rw [Owner.checkedAddSecs] at added
            split_ifs at added
            exact (Option.some.inj added).symm
          constructor
          · intro each
            refine ⟨fun other more typed read' => ?_, by simp⟩
            cases typed
            cases read.symm.trans read'
            exact sum ▸ each ending rfl
          · rintro ⟨duration, -⟩ t same
            rw [← Option.some.inj same, sum]
            exact duration text secs rfl read

theorem Parsed.covers_iff {requester : Option BodyId} {grant : Grant}
    (parsed : Parsed calendar g defaultOnce requireScope n)
    (machine : (∀ bodies, grant.allowFrom = some bodies → origin ∈ bodies) ↔
      g.all = true ∨ origin.name ∈ g.allow ∨ (g.server = true ∧ origin.name = "server") ∨
        (g.allow = [] ∧ g.server = false ∧ requester = some origin))
    (expiry : n.expiry asked = .ok grant.until) (schedule : grant.schedule = n.schedule)
    (arguments : grant.args = g.args) :
    grant.Covers origin now argv ↔ g.Permits calendar asked requester origin now argv := by
  have ends : (∀ t, grant.until = some t → now.instant ≤ t) ↔ _ := parsed.expiry_iff expiry
  have opens : (∀ schedule, n.schedule = some schedule → schedule.allowsAt now = true) ↔ _ := parsed.schedule_iff
  have listed : (∀ patterns, grant.args = some patterns → argv.drop 1 ∈ patterns) ↔
      g.only = [] ∨ ∃ line ∈ g.only, argv.drop 1 = splitWhitespace line := by
    rw [arguments, GrantCli.args]
    by_cases free : g.only = []
    · simp [free]
    · simp [free, eq_comm]
  constructor
  · intro covers
    obtain ⟨duration, deadline⟩ := ends.mp covers.expiry
    obtain ⟨day, time⟩ := opens.mp (schedule ▸ covers.schedule)
    exact ⟨machine.mp covers.machine, duration, deadline, day, time, listed.mp covers.arguments⟩
  · intro permits
    exact ⟨machine.mpr permits.machine, ends.mpr ⟨permits.duration, permits.deadline⟩,
      schedule ▸ opens.mpr ⟨permits.day, permits.time⟩, listed.mpr permits.arguments⟩

theorem parseAdd_eq_ok {tool : String} {cmd : Cmd} (success : parseAdd calendar (some tool) g = .returns (.ok cmd)) :
    ∃ n, cmd = .add tool n g.args ∧ Parsed calendar g false true n := by
  rw [parseAdd] at success
  cases parsed : parseGrantCli calendar g false true with
  | panics =>
    rw [parsed] at success
    cases success
  | returns result =>
    rw [parsed] at success
    cases result with
    | error refused => cases Call.returns.inj success
    | ok n =>
      cases Call.returns.inj success
      exact ⟨n, rfl, parseGrantCli_eq_ok parsed⟩

theorem parseAllow_eq_ok {id : String} {cmd : Cmd} (success : parseAllow calendar id g = .returns (.ok cmd)) :
    ∃ n, cmd = .allow id n ∧ g.args = none ∧ g.all = false ∧ Parsed calendar g true false n := by
  rw [parseAllow] at success
  cases parsed : parseGrantCli calendar g true false with
  | panics =>
    rw [parsed] at success
    cases success
  | returns result =>
    rw [parsed] at success
    obtain ⟨n, known, success⟩ := bind_eq_ok.mp (Call.returns.inj success)
    obtain ⟨unlisted, success⟩ := refuseIf_bind_eq_ok.mp success
    obtain ⟨some, success⟩ := refuseIf_bind_eq_ok.mp success
    cases success
    subst known
    exact ⟨n, rfl, by simpa using unlisted, by simpa using some, parseGrantCli_eq_ok parsed⟩

end Cli

namespace Owner

variable {word : ℕ} {fs fs' : FileSystem} {calendar : Cli.Calendar} {g : Cli.GrantCli} {cmd : Cli.Cmd} {request : Value}
  {rest : Bytes} {asked : SystemTime} {s t : Store} {grant : Grant}

/-- A received request is the operation of its command. -/
theorem received_op (small : word ≤ 2 ^ 64) (checked : cmd.Checked word) (written : rpcFromCmd fs cmd = .ok request)
    (short : request.text.length < Limits.ownerRequestBytes) :
    (receive word asked (payload request ++ rest)).1 = some (cmd.op fs asked) := by
  obtain ⟨fits, read⟩ : Fits inOrder maxDepth request ∧ readOp word asked request = cmd.op fs asked :=
    readOp_request small checked written
  rw [receive_payload fits short rest, read]

/-- The grant that an addition builds is what the flags say. -/
theorem covers_iff_of_added (small : word ≤ 2 ^ 64) {tool : String}
    (parsed : Cli.parseAdd calendar (some tool) g = .returns (.ok cmd)) (written : rpcFromCmd fs cmd = .ok request)
    (short : request.text.length < Limits.ownerRequestBytes) {path : String} {allow : List String} {once : Bool}
    {expiry : Option SystemTime} {schedule : Option Schedule} {args : Option (List (List String))}
    (received : (receive word asked (payload request ++ rest)).1 =
      some (.ok (.add path allow once expiry schedule args)))
    (added : Grant.addWithArgs fs' s path allow once expiry schedule args = .ok (t, grant)) :
    (t = Grant.commit s grant ∧ grant.reservation = none) ∧ ∀ (origin : BodyId) (now : Clock) (argv : List String),
      grant.Covers origin now argv ↔ g.Permits calendar asked none origin now argv := by
  obtain ⟨n, rfl, accepted⟩ := Cli.parseAdd_eq_ok parsed
  have checked : (Cli.Cmd.add tool n g.args).Checked word := accepted.checked
  have meant := Option.some.inj ((received_op small checked written short).symm.trans received)
  obtain ⟨found, -, meant⟩ := bind_eq_ok.mp meant
  obtain ⟨ends, expires, meant⟩ := bind_eq_ok.mp meant
  cases meant
  obtain ⟨built, made, same⟩ := bind_eq_ok.mp added
  cases same
  obtain ⟨-, bodies, ending, schedule, free, args, -⟩ := Grant.build_eq_ok made
  refine ⟨⟨rfl, free⟩, fun origin now argv => ?_⟩
  have machine : (∀ allowed, grant.allowFrom = some allowed → origin ∈ allowed) ↔ _ :=
    bodies ▸ accepted.add_machine_iff
  exact accepted.covers_iff machine (ending ▸ expires) schedule args

/-- The grant that the flags of `clix add` were checked for, written, sent, read and committed as allows exactly the
machines, times and arguments that the flags name, and no more of them after a restart. -/
theorem add_enforced (small : word ≤ 2 ^ 64) {tool : String}
    (parsed : Cli.parseAdd calendar (some tool) g = .returns (.ok cmd)) (written : rpcFromCmd fs cmd = .ok request)
    (short : request.text.length < Limits.ownerRequestBytes) {path : String} {allow : List String} {once : Bool}
    {expiry : Option SystemTime} {schedule : Option Schedule} {args : Option (List (List String))}
    (received : (receive word asked (payload request ++ rest)).1 =
      some (.ok (.add path allow once expiry schedule args)))
    (added : Grant.addWithArgs fs' s path allow once expiry schedule args = .ok (t, grant))
    (origin : BodyId) (now : Clock) (argv : List String) :
    (Grant.Allowed t grant.tool origin now argv ↔ g.Permits calendar asked none origin now argv) ∧
      (Grant.Allowed t.reloaded grant.tool origin now argv → g.Permits calendar asked none origin now argv) := by
  obtain ⟨⟨rfl, free⟩, covers⟩ := covers_iff_of_added small parsed written short received added
  have same := (Grant.allowed_commit_iff (s := s) free).trans (covers origin now argv)
  exact ⟨same, fun allowed => same.mp (Grant.allowed_of_reloaded allowed)⟩

/-- So does the grant of `clix allow`, where no machine named means the one that asked. -/
theorem allow_enforced (small : word ≤ 2 ^ 64) {id : String}
    (parsed : Cli.parseAllow calendar id g = .returns (.ok cmd)) (written : rpcFromCmd fs cmd = .ok request)
    (short : request.text.length < Limits.ownerRequestBytes) {pending : String} {decision : Request.Decision}
    (received : (receive word asked (payload request ++ rest)).1 = some (.ok (.decide pending decision)))
    (decided : Request.decide fs' s pending decision = .ok (t, some grant)) :
    ∃ asking ∈ s.requests, asking.id = id ∧ grant.tool = Grant.toolKey asking.tool ∧
      ∀ (origin : BodyId) (now : Clock) (argv : List String),
        (Grant.Allowed t grant.tool origin now argv ↔ g.Permits calendar asked (some asking.origin) origin now argv) ∧
          (Grant.Allowed t.reloaded grant.tool origin now argv →
            g.Permits calendar asked (some asking.origin) origin now argv) := by
  obtain ⟨n, rfl, unlisted, selective, accepted⟩ := Cli.parseAllow_eq_ok parsed
  have checked : (Cli.Cmd.allow id n).Checked word := accepted.checked
  have meant := Option.some.inj ((received_op small checked written short).symm.trans received)
  obtain ⟨named, filled, meant⟩ := bind_eq_ok.mp meant
  obtain ⟨ends, expires, meant⟩ := bind_eq_ok.mp meant
  cases meant
  have same : pending = id := by
    rw [Cli.filled] at filled
    split_ifs at filled
    exact (Except.ok.inj filled).symm
  subst same
  rw [Request.decide] at decided
  cases found : s.requests.find? (fun r => r.id == pending && pending != "") with
  | none =>
    rw [found] at decided
    cases decided
  | some asking =>
    rw [found] at decided
    obtain ⟨names, reaching, decided⟩ := bind_eq_ok.mp decided
    obtain ⟨built, made, decided⟩ := bind_eq_ok.mp decided
    obtain ⟨-, decided⟩ := refuseIf_bind_eq_ok.mp decided
    cases decided
    obtain ⟨tool, bodies, ending, schedule, free, args, -⟩ := Grant.build_eq_ok made
    refine ⟨asking, List.mem_of_find?_eq_some found, ?_, tool, fun origin now argv => ?_⟩
    · have matched := List.find?_some found
      rw [Bool.and_eq_true, beq_iff_eq] at matched
      exact matched.1
    · have machine : (∀ allowed, grant.allowFrom = some allowed → origin ∈ allowed) ↔ _ :=
        bodies ▸ accepted.allow_machine_iff selective reaching
      have covers : grant.Covers origin now argv ↔ g.Permits calendar asked (some asking.origin) origin now argv :=
        accepted.covers_iff machine (ending ▸ expires) schedule (args.trans unlisted.symm)
      have same := (Grant.allowed_commit_iff (s := s) free).trans covers
      exact ⟨same, fun allowed => same.mp (Grant.allowed_of_reloaded allowed)⟩

end Owner

namespace EnforcementExample

open Owner

def calendar : Cli.Calendar := ⟨0, fun _ => none, none, by simp, by simp⟩

/-- `--allow bob --days Mon --from 9am --only "status"`, and the owner typed more spaces than that. -/
def flags : Cli.GrantCli :=
  ⟨["bob"], false, false, false, none, none, [" Mon "], [], some "9am", none, false, ["  status  "]⟩

def fs : FileSystem := ⟨fun _ => .ok "/bin/git", .ok⟩

def narrow : Cli.GrantNarrow := ⟨["bob"], false, none, none, ["mon"], [], some "9am", none, false⟩

def bob : BodyId := ⟨"bob"⟩

def store : Store := { Store.blank "alice" [] with
  peers := [⟨bob, [], none⟩]
  requests := [⟨"request", bob, "git", true⟩] }

def monday : Schedule := ⟨[.mon], [], some (9 * 60 * 60 * nanosPerSecond), none⟩

def added : Grant := ⟨"git", "/bin/git", some [bob], false, none, some monday, none, some [["status"]]⟩

def now : Clock := ⟨0, .mon, 1, 10 * 60 * 60 * nanosPerSecond⟩

theorem parsed_flags : Cli.parseAdd calendar (some "git") flags =
    .returns (.ok (.add "git" narrow (some [["status"]]))) := by decide

theorem narrow_checked (word : ℕ) : (Cli.Cmd.add "git" narrow (some [["status"]])).Checked word := by
  obtain ⟨n, same, accepted⟩ := Cli.parseAdd_eq_ok parsed_flags
  cases same
  exact accepted.checked

theorem written_add : rpcFromCmd fs (.add "git" narrow (some [["status"]])) =
    .ok (addRequest "/bin/git" narrow (some [["status"]])) := rfl

theorem received_add : (receive (2 ^ 64) 0 (payload (addRequest "/bin/git" narrow (some [["status"]])) ++ [])).1 =
    some (.ok (.add "/bin/git" ["bob"] false none (some monday) (some [["status"]]))) := by
  rw [received_op le_rfl (narrow_checked _) written_add (by decide +kernel)]
  decide

theorem added_eq : Grant.addWithArgs fs store "/bin/git" ["bob"] false none (some monday) (some [["status"]]) =
    .ok (Grant.commit store added, added) := by rfl

theorem permits_status : flags.Permits calendar 0 none bob now ["git", "status"] where
  machine := .inr (.inl (by decide))
  duration := by simp [flags]
  deadline := by simp [flags]
  day := .inr (.inl ⟨" Mon ", by decide, by decide⟩)
  time := by
    have opens : flags.opensAt.bind Cli.time? = some (9 * 60 * 60 * nanosPerSecond) := by decide
    have closes : flags.closesAt.bind Cli.time? = none := rfl
    rw [opens, closes]
    change 9 * 60 * 60 * nanosPerSecond ≤ now.time
    decide
  arguments := .inr ⟨"  status  ", by decide, by decide⟩

/-- Bob may run `git status` on Monday at ten, and not `git push`. -/
theorem status_only : Grant.Allowed (Grant.commit store added) "git" bob now ["git", "status"] ∧
    ¬Grant.Allowed (Grant.commit store added) "git" bob now ["git", "push"] := by
  have enforced := fun argv => (add_enforced le_rfl parsed_flags written_add (by decide +kernel) received_add added_eq bob
    now argv).1
  refine ⟨(enforced ["git", "status"]).mpr permits_status, fun allowed => ?_⟩
  rcases ((enforced ["git", "push"]).mp allowed).arguments with free | ⟨line, only, same⟩
  · exact absurd free (by decide)
  · rw [List.mem_singleton.mp only] at same
    exact absurd same (by decide)

/-- `clix allow request`, without flags. -/
def unlimited : Cli.GrantCli := ⟨[], false, false, false, none, none, [], [], none, none, false, []⟩

def onceNarrow : Cli.GrantNarrow := ⟨[], true, none, none, [], [], none, none, false⟩

def approval : Request.Decision := .allow .requester true none none

def approved : Grant := ⟨"git", "/bin/git", some [bob], true, none, none, none, none⟩

theorem parsed_unlimited : Cli.parseAllow calendar "request" unlimited = .returns (.ok (.allow "request" onceNarrow)) := by
  decide

theorem onceNarrow_checked (word : ℕ) : (Cli.Cmd.allow "request" onceNarrow).Checked word := by
  obtain ⟨n, same, -, -, accepted⟩ := Cli.parseAllow_eq_ok parsed_unlimited
  cases same
  exact accepted.checked

theorem written_allow : rpcFromCmd fs (.allow "request" onceNarrow) = .ok (allowRequest "request" onceNarrow) := rfl

theorem received_allow : (receive (2 ^ 64) 0 (payload (allowRequest "request" onceNarrow) ++ [])).1 =
    some (.ok (.decide "request" approval)) := by
  rw [received_op le_rfl (onceNarrow_checked _) written_allow (by decide +kernel)]
  decide

theorem approved_eq : Request.decide fs store "request" approval = .ok (Grant.commit store approved, some approved) := by
  rfl

/-- An approval without flags is for the machine that asked, and for no other. -/
theorem requester_only : Grant.Allowed (Grant.commit store approved) "git" bob now ["git"] ∧
    ¬Grant.Allowed (Grant.commit store approved) "git" ⟨"carol"⟩ now ["git"] := by
  obtain ⟨asking, pending, -, -, enforced⟩ := allow_enforced le_rfl parsed_unlimited written_allow
    (by decide +kernel) received_allow approved_eq
  rw [List.mem_singleton.mp pending] at enforced
  refine ⟨(enforced bob now ["git"]).1.mpr ?_, fun allowed => ?_⟩
  · exact ⟨by decide, by simp [unlimited], by simp [unlimited], .inl (by decide), trivial, .inl rfl⟩
  · exact absurd ((enforced ⟨"carol"⟩ now ["git"]).1.mp allowed).machine (by decide)

end EnforcementExample

end Clix
