import Clix.Model.Owner

/-! # Reading a request back

The fields of a request are found in it, whatever their order, and those of a grant are read as they were written.
-/

namespace Clix

open Except Json

namespace Cli

/-- The day a name stands for. -/
def weekday? : String → Option Weekday
  | "mon" => some .mon
  | "tue" => some .tue
  | "wed" => some .wed
  | "thu" => some .thu
  | "fri" => some .fri
  | "sat" => some .sat
  | "sun" => some .sun
  | _ => none

/-- The time of day a text stands for. -/
def time? (s : String) : Option NaiveTime := (parseAmpm s).toOption.map (· * 60 * nanosPerSecond)

/-- What the checks of the command line have established. -/
structure GrantNarrow.Checked (n : GrantNarrow) : Prop where
  days : ∀ day ∈ n.days, day ∈ weekdayNames
  exclusive : n.weekdays = true → n.days = []
  dates : ∀ date ∈ n.dates, 1 ≤ date.toNat ∧ date.toNat ≤ 31
  opens : ∀ s, n.opensAt = some s → (parseAmpm s).isOk = true
  closes : ∀ s, n.closesAt = some s → (parseAmpm s).isOk = true
  deadline : ∀ t, n.until = some t → t / nanosPerSecond < 2 ^ 63

/-- When a grant ends: a duration counts from now, a deadline is in whole seconds. -/
def GrantNarrow.expiry (n : GrantNarrow) (now : SystemTime) : Result (Option SystemTime) :=
  match n.forDur with
  | some secs => (Owner.checkedAddSecs now secs.toNat).elim (.error (.usage "grant duration is out of range")) (.ok ∘ some)
  | none => .ok (n.until.map (fun t => t / nanosPerSecond * nanosPerSecond))

def GrantNarrow.namedDays (n : GrantNarrow) : List Weekday :=
  (if n.weekdays then Owner.workdays else []) ++ n.days.filterMap weekday?

def GrantNarrow.schedule (n : GrantNarrow) : Option Schedule :=
  let opens := n.opensAt.bind time?
  let closes := n.closesAt.bind time?
  if n.namedDays = [] ∧ n.dates = [] ∧ opens = none ∧ closes = none then none
  else some ⟨n.namedDays, n.dates, opens, closes⟩

end Cli

namespace Owner

/-! ## Fields -/

theorem fits_message {depth : ℕ} {op : String} {names : List String} {values : List Value}
    (each : ∀ v ∈ values, Fits inOrder (depth + 1) v) : Fits inOrder (depth + 2) (message op names values) :=
  keeps_inOrder.fits_record (List.forall_mem_cons.mpr ⟨trivial, each⟩)

theorem get_message (op : String) (names : List String) (values : List Value) (nodup : ("op" :: names).Nodup)
    (all : names.length = values.length) (name : String) :
    (message op names values).get name = OrdMap.lookupEntry name (("op" :: names).zip (.string op :: values)) :=
  keeps_inOrder.get_record nodup _ (by rw [List.length_cons, List.length_cons, all]) name

theorem fits_strings {depth : ℕ} (l : List String) : Fits inOrder (depth + 1) (toValue inOrder l) := by
  have carried : Carries 0 (depth + 1) l := carries_list (fun s _ => carries_string s)
  exact carried.fits keeps_inOrder

/-- A request that carries the fields of a grant. -/
structure Carried (req : Value) (n : Cli.GrantNarrow) (args : Option (List (List String))) : Prop where
  allow : req.get "allow" = some (toValue inOrder n.allow)
  once : req.get "once" = some (.bool n.once)
  forSecs : req.get "for_secs" = some (toValue inOrder n.forDur)
  deadline : req.get "until" = some (toValue inOrder (n.until.map (· / nanosPerSecond)))
  days : req.get "days" = some (toValue inOrder n.days)
  dates : req.get "dates" = some (toValue inOrder n.dates)
  opens : req.get "from" = some (toValue inOrder n.opensAt)
  closes : req.get "to" = some (toValue inOrder n.closesAt)
  weekdays : req.get "weekdays" = some (.bool n.weekdays)
  args : ∀ v, req.get "args" = some v → v = toValue inOrder args

/-! ## Texts, numbers and lists of them -/

theorem asStr_optional (o : Option String) : (some (toValue inOrder o)).bind Value.asStr = o := by
  cases o <;> rfl

theorem filterMap_asStr (l : List String) : (l.map Value.string).filterMap Value.asStr = l := by
  rw [List.filterMap_map]
  exact List.filterMap_some

theorem asU64_natCast {n : ℕ} (small : n < 2 ^ 64) : Value.asU64 (.number n) = some n := by
  rw [Value.asU64, natBelow_natCast small]

theorem asU64_secs (o : Option UInt64) : (some (toValue inOrder o)).bind Value.asU64 = o.map UInt64.toNat := by
  cases o with
  | none => rfl
  | some secs =>
    have number : toValue inOrder (some secs) = .number secs.toNat := rfl
    rw [number, Option.bind_some, asU64_natCast secs.toNat_lt, Option.map_some]

theorem asU64_seconds {o : Option ℕ} (small : ∀ n, o = some n → n < 2 ^ 64) :
    (some (toValue inOrder o)).bind Value.asU64 = o := by
  cases o with
  | none => rfl
  | some n =>
    have number : toValue inOrder (some n) = .number n := rfl
    rw [number, Option.bind_some, asU64_natCast (small n rfl)]

theorem stringsOrNull_list (l : List String) : stringsOrNull (toValue inOrder l) = true := by
  change ((l.map Value.string).all (fun v => v.asStr.isSome)) = true
  rw [List.all_map, List.all_eq_true]
  exact fun _ _ => rfl

theorem vectorsOrNull_args (args : Option (List (List String))) : vectorsOrNull (toValue inOrder args) = true := by
  cases args with
  | none => rfl
  | some patterns =>
    change ((patterns.map (toValue inOrder)).all
      (fun v => v.asArray.any (fun p => p.all (fun v => v.asStr.isSome)))) = true
    rw [List.all_map, List.all_eq_true]
    exact fun p _ => stringsOrNull_list p

theorem datesOrNull_list {l : List UInt8} (each : ∀ date ∈ l, 1 ≤ date.toNat ∧ date.toNat ≤ 31) :
    datesOrNull (toValue inOrder l) = true := by
  have items : (toValue inOrder l).asArray = some (l.map (toValue inOrder)) := rfl
  rw [datesOrNull, items, Option.any_some, List.all_map, Bool.or_eq_true, List.all_eq_true]
  refine .inr (fun date member => ?_)
  have number : toValue inOrder date = .number date.toNat := rfl
  rw [Function.comp_apply, number, asU64_natCast (date.toNat_lt.trans (by decide))]
  simpa using each date member

theorem readArgs_args (word : ℕ) (args : Option (List (List String))) :
    readArgs word (some (toValue inOrder args)) = .ok args := by
  cases args with
  | none => rfl
  | some patterns =>
    have carried : Carries word 2 patterns := carries_list (fun p _ => carries_list (fun s _ => carries_string s))
    have back := carried.back keeps_inOrder
    change (fromValue word (toValue inOrder patterns) : Option (List (List String))).elim _ _ = _
    rw [back]
    rfl

/-! ## The fields of a grant -/

variable {req : Value} {n : Cli.GrantNarrow} {args : Option (List (List String))}

theorem checkFields_eq_ok {good : Value → Bool} {complaint : String} {keys : List String}
    (each : ∀ key ∈ keys, ∀ v, req.get key = some v → good v = true) : checkFields req good complaint keys = .ok () := by
  induction keys with
  | nil => rfl
  | cons key rest ih =>
    obtain ⟨first, others⟩ := List.forall_mem_cons.mp each
    have fine : ¬(req.get key).any (fun v => !good v) = true := by
      cases found : req.get key with
      | none => simp
      | some v => simp [first v found]
    rw [checkFields, refuseIf_neg fine]
    exact ih others

theorem good_of_get {key : String} {v : Value} {good : Value → Bool} (there : req.get key = some v)
    (fine : good v = true) (w : Value) (found : req.get key = some w) : good w = true := by
  rwa [← Option.some.inj (there.symm.trans found)]

theorem Carried.valid (carried : Carried req n args) (checked : n.Checked) : validateGrantFields req = .ok () := by
  have deadline : ∀ m, n.until.map (· / nanosPerSecond) = some m → m < 2 ^ 64 := by
    intro m same
    obtain ⟨t, given, rfl⟩ := Option.map_eq_some_iff.mp same
    exact (checked.deadline t given).trans (by decide)
  have times : ∀ o : Option String, textOrNull (toValue inOrder o) = true := by
    rintro (_ | s) <;> rfl
  have secs : ∀ o : Option UInt64, countOrNull (toValue inOrder o) = true := by
    rintro (_ | secs)
    · rfl
    · change (false || (Value.asU64 (.number secs.toNat)).isSome) = true
      rw [asU64_natCast secs.toNat_lt]
      rfl
  have seconds : countOrNull (toValue inOrder (n.until.map (· / nanosPerSecond))) = true := by
    cases given : n.until.map (· / nanosPerSecond) with
    | none => rfl
    | some m =>
      have number : toValue inOrder (some m) = .number m := rfl
      rw [number, countOrNull, asU64_natCast (deadline m given)]
      rfl
  have vectors : ∀ v, req.get "args" = some v → vectorsOrNull v = true := fun v found => by
    rw [carried.args v found]
    exact vectorsOrNull_args args
  have pair : ∀ {a b : String} {P : String → Prop}, P a → P b → ∀ key ∈ [a, b], P key := fun first second =>
    List.forall_mem_cons.mpr ⟨first, List.forall_mem_singleton.mpr second⟩
  rw [validateGrantFields,
    checkFields_eq_ok (pair (good_of_get carried.once rfl) (good_of_get carried.weekdays rfl)), ok_bind,
    checkFields_eq_ok (pair (good_of_get carried.allow (stringsOrNull_list _))
      (good_of_get carried.days (stringsOrNull_list _))), ok_bind,
    checkFields_eq_ok (List.forall_mem_singleton.mpr (good_of_get carried.dates (datesOrNull_list checked.dates))), ok_bind,
    checkFields_eq_ok (pair (good_of_get carried.forSecs (secs _)) (good_of_get carried.deadline seconds)), ok_bind,
    checkFields_eq_ok (pair (good_of_get carried.opens (times _)) (good_of_get carried.closes (times _))), ok_bind]
  exact checkFields_eq_ok (List.forall_mem_singleton.mpr vectors)

theorem Carried.expiry (carried : Carried req n args) (checked : n.Checked) (now : SystemTime) :
    rpcUntil now req = n.expiry now := by
  have small : ∀ m, n.until.map (· / nanosPerSecond) = some m → m < 2 ^ 63 := by
    intro m same
    obtain ⟨t, given, rfl⟩ := Option.map_eq_some_iff.mp same
    exact checked.deadline t given
  rw [rpcUntil, carried.forSecs, asU64_secs, carried.deadline,
    asU64_seconds (fun m same => (small m same).trans (by decide)), Cli.GrantNarrow.expiry]
  cases n.forDur with
  | some secs => rfl
  | none =>
    cases given : n.until with
    | none => rfl
    | some t =>
      have inRange : 0 / nanosPerSecond + t / nanosPerSecond < 2 ^ 63 := by
        rw [Nat.zero_div, Nat.zero_add]
        exact checked.deadline t given
      simp only [Option.map_none, Option.map_some, checkedAddSecs, if_pos inRange, Option.elim_some, Function.comp_apply,
        Nat.zero_add]

theorem parseWeekday_of_name {day : String} (named : day ∈ Cli.weekdayNames) :
    ∃ d, Cli.weekday? day = some d ∧ parseWeekday day = .ok d := by
  have all : ∀ day ∈ Cli.weekdayNames, ∃ d, Cli.weekday? day = some d ∧ parseWeekday day = .ok d := by
    simp only [Cli.weekdayNames, List.forall_mem_cons, List.not_mem_nil, false_implies, implies_true, and_true]
    exact ⟨⟨.mon, rfl, rfl⟩, ⟨.tue, rfl, rfl⟩, ⟨.wed, rfl, rfl⟩, ⟨.thu, rfl, rfl⟩, ⟨.fri, rfl, rfl⟩, ⟨.sat, rfl, rfl⟩,
      ⟨.sun, rfl, rfl⟩⟩
  exact all day named

theorem mapM_readDay {days : List String} (named : ∀ day ∈ days, day ∈ Cli.weekdayNames) :
    (days.map Value.string).mapM readDay = .ok (days.filterMap Cli.weekday?) := by
  induction days with
  | nil => rfl
  | cons day rest ih =>
    obtain ⟨first, others⟩ := List.forall_mem_cons.mp named
    obtain ⟨d, meant, read⟩ := parseWeekday_of_name first
    rw [List.map_cons, List.mapM_cons, show readDay (.string day) = .ok d from read, ok_bind, ih others, ok_bind,
      List.filterMap_cons_some meant]
    rfl

theorem mapM_readDate {dates : List UInt8} (each : ∀ date ∈ dates, 1 ≤ date.toNat ∧ date.toNat ≤ 31) :
    (dates.map (toValue inOrder)).mapM readDate = .ok dates := by
  induction dates with
  | nil => rfl
  | cons date rest ih =>
    obtain ⟨first, others⟩ := List.forall_mem_cons.mp each
    have read : readDate (toValue inOrder date) = .ok date := by
      have number : (toValue inOrder date).asU64 = some date.toNat := asU64_natCast (date.toNat_lt.trans (by decide))
      rw [readDate, number]
      change (refuseIf _ _ >>= fun _ => _) = _
      rw [refuseIf_neg (not_not.mpr first)]
      exact congrArg Except.ok UInt8.ofNat_toNat
    rw [List.map_cons, List.mapM_cons, read, ok_bind, ih others]
    rfl

theorem hour24_lt {hour : ℕ} (least : 1 ≤ hour) (most : hour ≤ 12) (pm : Bool) : Cli.hour24 hour pm < 24 := by
  rw [Cli.hour24]
  split_ifs <;> omega

theorem parseAmpm_lt {s : String} {minutes : ℕ} (success : Cli.parseAmpm s = .ok minutes) : minutes < 24 * 60 := by
  rw [Cli.parseAmpm] at success
  split at success
  · cases success
  · split at success
    · cases success
    · next digits pm _ _ hour _ =>
      obtain ⟨inRange, same⟩ := refuseIf_bind_eq_ok.mp success
      cases same
      have := hour24_lt (not_not.mp inRange).1 (not_not.mp inRange).2 pm
      omega

theorem readTime_of_ok {o : Option String} (fine : ∀ s, o = some s → (Cli.parseAmpm s).isOk = true) :
    readTime o = .ok (o.bind Cli.time?) ∧ (o.bind Cli.time? = none ↔ o = none) := by
  cases o with
  | none => exact ⟨rfl, by simp⟩
  | some s =>
    cases parsed : Cli.parseAmpm s with
    | error e =>
      have bad := fine s rfl
      rw [parsed] at bad
      cases bad
    | ok minutes =>
      have meant : Cli.time? s = some (minutes * 60 * nanosPerSecond) := by rw [Cli.time?, parsed]; rfl
      refine ⟨?_, by simp [meant]⟩
      rw [readTime, parseAmpmNaive, parsed, ok_bind, refuseIf_neg (not_not.mpr (parseAmpm_lt parsed)), Option.bind_some,
        meant]
      rfl

theorem Carried.schedule (carried : Carried req n args) (checked : n.Checked) :
    rpcSchedule req = .ok n.schedule := by
  have once : ¬(n.weekdays = true ∧ (some (n.days.map Value.string)).any (fun a => !a.isEmpty) = true) := by
    rintro ⟨weekdays, given⟩
    rw [checked.exclusive weekdays] at given
    cases given
  have days : (some (toValue inOrder n.days)).bind Value.asArray = some (n.days.map Value.string) := rfl
  have dates : (some (toValue inOrder n.dates)).bind Value.asArray = some (n.dates.map (toValue inOrder)) := rfl
  have weekdays : ((some (Value.bool n.weekdays)).bind Value.asBool).getD false = n.weekdays := rfl
  rw [rpcSchedule, carried.weekdays, weekdays, carried.days, days, carried.dates, dates, carried.opens, carried.closes]
  dsimp only
  rw [asStr_optional, asStr_optional, refuseIf_neg once, ok_bind, Option.getD_some, mapM_readDay checked.days, ok_bind,
    Option.getD_some, mapM_readDate checked.dates, ok_bind, (readTime_of_ok checked.opens).1, ok_bind,
    (readTime_of_ok checked.closes).1, ok_bind, Cli.GrantNarrow.schedule, Cli.GrantNarrow.namedDays]
  split_ifs <;> rfl

end Owner

end Clix
