import Clix.Proofs.Reachable

/-! # The account of every grant

What a state descends from accounts for the grants it holds. Of the runs admitted under a single-use
grant since the owner committed it, all are over without success except the one that holds its
reservation; and under an earlier decision at most one run is not.
-/

namespace Clix

open Except

namespace Act

/-- Whether an act is an owner decision about a tool. -/
def decides (tool : String) : Act → Bool
  | .owner other _ => other == tool
  | .admitted _ _ => false

/-- The latest owner decision about a tool. -/
def decision? (tool : String) (acts : List Act) : Option Act := acts.find? (decides tool)

/-- The acts since the latest owner decision about a tool. -/
def era (tool : String) (acts : List Act) : List Act := acts.takeWhile (fun a => !a.decides tool)

/-- The run an act admitted, if it did so under a grant for a tool. -/
def run? (tool : String) : Act → Option String
  | .admitted id grant => if grant.tool = tool then some id else none
  | .owner _ _ => none

/-- The runs admitted under grants for a tool. -/
def runs (tool : String) (acts : List Act) : List String := acts.filterMap (run? tool)

/-- The runs admitted under any grant. -/
def ids (acts : List Act) : List String :=
  acts.filterMap (fun | .admitted id _ => some id | .owner _ _ => none)

variable {tool other id : String} {grant : Grant} {decided : Option Grant} {acts : List Act}

theorem era_sublist (tool : String) (acts : List Act) : (era tool acts).Sublist acts :=
  List.takeWhile_sublist _

theorem mem_ids {id : String} {grant : Grant} (member : Act.admitted id grant ∈ acts) : id ∈ ids acts :=
  List.mem_filterMap.mpr ⟨_, member, rfl⟩

/-- A run that was admitted once was admitted under one grant. -/
theorem grant_unique {g h : Grant} (distinct : (ids acts).Nodup) (left : Act.admitted id g ∈ acts)
    (right : Act.admitted id h ∈ acts) : g = h := by
  induction acts with
  | nil => exact absurd left List.not_mem_nil
  | cons act rest ih =>
    cases act with
    | owner tool grant =>
      rw [List.mem_cons] at left right
      exact ih distinct (left.resolve_left nofun) (right.resolve_left nofun)
    | admitted other grant =>
      have apart : other ∉ ids rest ∧ (ids rest).Nodup := List.nodup_cons.mp distinct
      rcases List.mem_cons.mp left with first | left' <;> rcases List.mem_cons.mp right with second | right'
      · cases first
        cases second
        rfl
      · cases first
        exact absurd (mem_ids right') apart.1
      · cases second
        exact absurd (mem_ids left') apart.1
      · exact ih apart.2 left' right'

@[simp] theorem decision?_owner_self : decision? tool (.owner tool decided :: acts) =
    some (.owner tool decided) := by simp [decision?, decides]

theorem decision?_owner_of_ne (differs : other ≠ tool) :
    decision? tool (.owner other decided :: acts) = decision? tool acts := by
  simp [decision?, decides, differs]

@[simp] theorem decision?_admitted : decision? tool (.admitted id grant :: acts) = decision? tool acts := by
  simp [decision?, decides]

@[simp] theorem era_owner_self : era tool (.owner tool decided :: acts) = [] := by simp [era, decides]

/-- An act that decides nothing about a tool belongs to the time since the latest decision. -/
theorem era_cons_of_neg {act : Act} (undecided : act.decides tool = false) :
    era tool (act :: acts) = act :: era tool acts := by
  simp [era, undecided]

theorem decision?_append_of_neg {newer : List Act} (undecided : ∀ act ∈ newer, act.decides tool = false) :
    decision? tool (newer ++ acts) = decision? tool acts := by
  rw [decision?, List.find?_append, List.find?_eq_none.mpr (fun act member => by simp [undecided act member]),
    Option.none_or]
  rfl

/-- Nothing was decided about a tool after an act of the time since its latest decision. -/
theorem eq_append_of_mem_era {act : Act} (member : act ∈ era tool acts) :
    ∃ newer older, acts = newer ++ act :: older ∧ ∀ act ∈ newer, act.decides tool = false := by
  induction acts with
  | nil => exact absurd member List.not_mem_nil
  | cons first rest ih =>
    by_cases decided : first.decides tool = true
    · simp [era, decided] at member
    · rw [Bool.not_eq_true] at decided
      rw [era_cons_of_neg decided] at member
      rcases List.mem_cons.mp member with rfl | later
      · exact ⟨[], rest, rfl, List.forall_mem_nil _⟩
      · obtain ⟨newer, older, split, undecided⟩ := ih later
        exact ⟨first :: newer, older, by rw [split, List.cons_append], List.forall_mem_cons.mpr ⟨decided, undecided⟩⟩

theorem era_owner_of_ne (differs : other ≠ tool) :
    era tool (.owner other decided :: acts) = .owner other decided :: era tool acts := by
  simp [era, decides, differs]

@[simp] theorem era_admitted :
    era tool (.admitted id grant :: acts) = .admitted id grant :: era tool acts := by
  simp [era, decides]

@[simp] theorem runs_owner : runs tool (.owner other decided :: acts) = runs tool acts := rfl

theorem runs_admitted_self (named : grant.tool = tool) :
    runs tool (.admitted id grant :: acts) = id :: runs tool acts := by simp [runs, run?, named]

theorem runs_admitted_of_ne (differs : grant.tool ≠ tool) :
    runs tool (.admitted id grant :: acts) = runs tool acts := by simp [runs, run?, differs]

end Act

namespace Desk

variable {Lost : String → Prop} {d : Desk} {deed : Deed}

/-- A run that is over and did not succeed. -/
def Dead (Lost : String → Prop) (d : Desk) (id : String) : Prop :=
  Lost id ∧ ∃ row, d.row? id = some row ∧ row.status.isTerminal = true ∧
    ∀ reason, row.status ≠ .uncertain reason

/-- A run of this machine, for a tool, that goes on or may have taken effect. -/
def Held (d : Desk) (id tool : String) : Prop :=
  ∃ row, d.row? id = some row ∧ row.body.name = d.name ∧ row.argv.head? = some tool ∧
    (row.status = .running ∨ ∃ reason, row.status = .uncertain reason)

theorem Dead.apply {id : String} (dead : d.Dead Lost id) (allowed : d.Allows deed) :
    (d.apply deed).Dead Lost id := by
  obtain ⟨lost, row, found, terminal, certain⟩ := dead
  exact ⟨lost, row, row?_apply_of_terminal allowed found terminal, terminal, certain⟩

theorem Dead.mono {Lost' : String → Prop} {id : String} (dead : d.Dead Lost id)
    (more : ∀ id, Lost id → Lost' id) : d.Dead Lost' id := ⟨more id dead.1, dead.2⟩

/-- Whether a deed completes a run. -/
def Finishes (id : String) : Deed → Prop
  | .finish row _ _ => row.id = id
  | _ => False

/-- A held run stays held until it is finished. -/
theorem Held.apply {id tool : String} (held : d.Held id tool) (named : Pair.isName d.name = true)
    (allowed : d.Allows deed) (kept : ¬Finishes id deed) :
    (d.apply deed).Held id tool := by
  obtain ⟨row, found, own, argv, state⟩ := held
  have same : row.id = id := row?_id found
  subst same
  have name := name_apply allowed named found
  rcases state with running | ⟨reason, uncertain⟩
  · by_cases ends : deed.Ends row.id
    · cases deed with
      | finish new grant success => exact absurd ends kept
      | lose other reason =>
        obtain rfl : other = row.id := ends
        exact ⟨{ row with status := .uncertain reason }, (row?_setStatus_self d _ _).trans (by rw [found]; rfl),
          own, argv, .inr ⟨reason, rfl⟩⟩
      | recover reason =>
        refine ⟨{ row with status := .uncertain reason }, ?_, own, argv, .inr ⟨reason, rfl⟩⟩
        rw [Desk.apply, row?_interrupt, found, Option.map_some, if_pos ⟨own, running⟩]
      | _ => exact absurd ends not_false
    · have going : d.Running row := ⟨row, found, running, rfl, rfl, rfl, own⟩
      obtain ⟨after, present, status, body, -, args, -⟩ := going.apply named allowed ends
      exact ⟨after, present, by rw [body, name]; exact own, by rw [args]; exact argv, .inl status⟩
  · have spent : row.status.isTerminal = true := by rw [uncertain]; rfl
    exact ⟨row, row?_apply_of_terminal allowed found spent, by rw [name]; exact own, argv,
      .inr ⟨reason, uncertain⟩⟩

end Desk

open Act

/-- The account of the grants of a state. -/
structure Ledger (Lost : String → Prop) (desk : Desk) (acts : List Act) : Prop where
  named : Pair.isName desk.name = true
  tools : (desk.grants.map (·.tool)).Nodup
  settled : ∀ id ∈ ids acts, desk.Settled id
  distinct : (ids acts).Nodup
  /-- A reservation is held by a run that was admitted since the owner committed the grant. -/
  reserved : ∀ g ∈ desk.grants, ∀ id, g.reservation = some id → desk.Held id g.tool ∧
    ∃ h, .admitted id h ∈ era g.tool acts ∧ h.tool = g.tool ∧ h.once = true
  current : ∀ g ∈ desk.grants, ∃ decided, decision? g.tool acts = some (.owner g.tool (some decided)) ∧
    decided.once = g.once ∧
    (g.once = true → ∀ id ∈ runs g.tool (era g.tool acts), g.reservation = some id ∨ desk.Dead Lost id)
  past : ∀ rest, rest <:+ acts → ∀ tool decided, decision? tool rest = some (.owner tool (some decided)) →
    decided.once = true → ∃ exempt, ∀ id ∈ runs tool (era tool rest), id = exempt ∨ desk.Dead Lost id

namespace Ledger

variable {Lost : String → Prop} {d d' : Desk} {acts : List Act}

/-- Rows may change in ways that keep runs settled, held and dead. -/
theorem rows (ledger : Ledger Lost d acts) (named : Pair.isName d'.name = true) (grants : d'.grants = d.grants)
    (settled : ∀ id, d.Settled id → d'.Settled id) (held : ∀ id tool, d.Held id tool → d'.Held id tool)
    (dead : ∀ id, d.Dead Lost id → d'.Dead Lost id) : Ledger Lost d' acts where
  named := named
  tools := grants ▸ ledger.tools
  settled id member := settled id (ledger.settled id member)
  distinct := ledger.distinct
  reserved g member id same := by
    obtain ⟨holds, admitted⟩ := ledger.reserved g (grants ▸ member) id same
    exact ⟨held id g.tool holds, admitted⟩
  current g member := by
    obtain ⟨decided, latest, once, spent⟩ := ledger.current g (grants ▸ member)
    exact ⟨decided, latest, once, fun single id run => (spent single id run).imp_right (dead id)⟩
  past rest suffix tool decided latest once := by
    obtain ⟨exempt, spent⟩ := ledger.past rest suffix tool decided latest once
    exact ⟨exempt, fun id run => (spent id run).imp_right (dead id)⟩

/-- A deed that is neither a decision, an admission nor a completion. -/
theorem quiet {deed : Deed} (ledger : Ledger Lost d acts) (allowed : d.Allows deed)
    (grants : (d.apply deed).grants = d.grants) (kept : ∀ id, ¬Desk.Finishes id deed) :
    Ledger Lost (d.apply deed) acts :=
  ledger.rows (Desk.isName_apply allowed ledger.named) grants (fun _ settled => settled.apply allowed)
    (fun id _ held => held.apply ledger.named allowed (kept id)) (fun _ dead => dead.apply allowed)

/-- The owner decides about a tool. -/
theorem owner {tool : String} {decided : Option Grant} {grants : List Grant} (ledger : Ledger Lost d acts)
    (allowed : d.Allows (.owner tool decided grants)) :
    Ledger Lost { d with grants := grants } (.owner tool decided :: acts) := by
  obtain ⟨others, free, distinct⟩ := allowed
  obtain ⟨tools, granted⟩ := distinct ledger.tools
  have old : ∀ g ∈ grants, g.tool ≠ tool → g ∈ d.grants := by
    intro g member differs
    have kept : g ∈ grants.filter (fun g => g.tool != tool) :=
      List.mem_filter.mpr ⟨member, by simpa using differs⟩
    rw [others] at kept
    exact (List.mem_filter.mp kept).1
  refine ⟨ledger.named, tools, ledger.settled, ledger.distinct, ?_, ?_, ?_⟩
  · intro g member id reservation
    by_cases same : g.tool = tool
    · rw [(free g (granted g member same)).2.1] at reservation
      cases reservation
    · obtain ⟨held, h, admitted, named, once⟩ := ledger.reserved g (old g member same) id reservation
      refine ⟨held, h, ?_, named, once⟩
      rw [era_owner_of_ne (Ne.symm same)]
      exact List.mem_cons_of_mem _ admitted
  · intro g member
    by_cases same : g.tool = tool
    · subst same
      refine ⟨g, by rw [decision?_owner_self, granted g member rfl], rfl, fun _ id run => ?_⟩
      rw [era_owner_self] at run
      exact absurd run List.not_mem_nil
    · obtain ⟨latest, found, once, spent⟩ := ledger.current g (old g member same)
      rw [decision?_owner_of_ne (Ne.symm same), era_owner_of_ne (Ne.symm same), runs_owner]
      exact ⟨latest, found, once, spent⟩
  · intro rest suffix other latest found once
    rcases List.suffix_cons_iff.mp suffix with rfl | earlier
    · by_cases same : tool = other
      · subst same
        refine ⟨"", fun id run => ?_⟩
        rw [era_owner_self] at run
        exact absurd run List.not_mem_nil
      · rw [decision?_owner_of_ne same] at found
        rw [era_owner_of_ne same, runs_owner]
        exact ledger.past acts List.suffix_rfl other latest found once
    · exact ledger.past rest earlier other latest found once

/-- A grant after a run was reserved it: another one, or the reserved grant. -/
theorem mem_reserve {grants : List Grant} (distinct : (grants.map (·.tool)).Nodup) {grant g : Grant}
    {id : String} (found : grants.find? (fun h => h.tool == grant.tool) = some grant)
    (member : g ∈ Exec.reserveGrant grants grant.tool id) :
    (g ∈ grants ∧ g.tool ≠ grant.tool) ∨ g = { grant with reservation := some id } := by
  rcases List.mem_modifyFirst_of_key (fun h : Grant => h.tool) (fun a same => by simpa using same) distinct
    member with ⟨there, other⟩ | ⟨h, there, same, rfl⟩
  · exact .inl ⟨there, by simpa using other⟩
  · obtain rfl : h = grant := List.eq_of_mem_of_key_eq (fun h : Grant => h.tool) distinct there
      (List.mem_of_find?_eq_some found) (by simpa using same)
    exact .inr rfl

theorem accept_tools (distinct : (d.grants.map (·.tool)).Nodup) (row : Row) (grant : Grant) :
    ((d.apply (.accept row grant)).grants.map (·.tool)).Nodup := by
  rw [Desk.apply]
  dsimp only
  split_ifs
  · have kept : (Exec.reserveGrant d.grants grant.tool row.id).map (·.tool) = d.grants.map (·.tool) :=
      List.map_modifyFirst_of_eq _ _ _ _ (fun _ _ _ => rfl)
    exact kept ▸ distinct
  · exact distinct

/-- A grant after a run was admitted: another one, or the one of the run, which a single use is reserved of. -/
theorem mem_accept {row : Row} {grant g : Grant} (distinct : (d.grants.map (·.tool)).Nodup)
    (found : d.grant? grant.tool = some grant) (member : g ∈ (d.apply (.accept row grant)).grants) :
    (g ∈ d.grants ∧ g.tool ≠ grant.tool) ∨ (g = grant ∧ grant.once = false) ∨
      (g = { grant with reservation := some row.id } ∧ grant.once = true) := by
  rw [Desk.apply] at member
  dsimp only at member
  split_ifs at member with once
  · rcases mem_reserve distinct found member with ⟨there, differs⟩ | same
    · exact .inl ⟨there, differs⟩
    · exact .inr (.inr ⟨same, once⟩)
  · by_cases same : g.tool = grant.tool
    · have equal := List.eq_of_mem_of_key_eq (fun g : Grant => g.tool) distinct member
        (List.mem_of_find?_eq_some found) same
      exact .inr (.inl ⟨equal, by simpa using once⟩)
    · exact .inl ⟨member, same⟩

/-- A run is admitted under a grant. -/
theorem accept {row : Row} {grant : Grant} (ledger : Ledger Lost d acts)
    (allowed : d.Allows (.accept row grant)) :
    Ledger Lost (d.apply (.accept row grant)) (.admitted row.id grant :: acts) := by
  obtain ⟨⟨own, startable⟩, running, tool, found, free⟩ := allowed
  have allowed : d.Allows (.accept row grant) := ⟨⟨own, startable⟩, running, tool, found, free⟩
  have present : grant ∈ d.grants := List.mem_of_find?_eq_some found
  have row? : (d.apply (.accept row grant)).row? row.id = some row := Desk.row?_putRow_self d row
  have tools : ((d.apply (.accept row grant)).grants.map (·.tool)).Nodup := accept_tools ledger.tools row grant
  have cases : ∀ g ∈ (d.apply (.accept row grant)).grants, (g ∈ d.grants ∧ g.tool ≠ grant.tool) ∨
      (g = grant ∧ grant.once = false) ∨ (g = { grant with reservation := some row.id } ∧ grant.once = true) :=
    fun g member => mem_accept ledger.tools found member
  refine ⟨Desk.isName_apply allowed ledger.named, tools, ?_, ?_, ?_, ?_, ?_⟩
  · intro id member
    rcases List.mem_cons.mp member with rfl | old
    · exact ⟨ledger.named, row, row?, .inr ⟨running, own⟩⟩
    · exact (ledger.settled id old).apply allowed
  · refine List.nodup_cons.mpr ⟨fun member => ?_, ledger.distinct⟩
    exact (ledger.settled row.id member).not_startable ⟨own, startable⟩
  · intro g member id reservation
    rcases cases g member with ⟨there, -⟩ | ⟨rfl, -⟩ | ⟨rfl, once⟩
    · obtain ⟨held, h, admitted, named, once⟩ := ledger.reserved g there id reservation
      refine ⟨held.apply ledger.named allowed not_false, h, ?_, named, once⟩
      rw [era_admitted]
      exact List.mem_cons_of_mem _ admitted
    · rw [free] at reservation
      cases reservation
    · cases reservation
      exact ⟨⟨row, row?, own, tool, .inl running⟩, grant, by rw [era_admitted]; exact List.mem_cons_self, rfl,
        once⟩
  · intro g member
    rw [decision?_admitted, era_admitted]
    rcases cases g member with ⟨there, differs⟩ | ⟨rfl, once⟩ | ⟨rfl, once⟩
    · obtain ⟨decided, latest, once, spent⟩ := ledger.current g there
      rw [runs_admitted_of_ne (Ne.symm differs)]
      exact ⟨decided, latest, once, fun single id run => (spent single id run).imp_right (fun dead => dead.apply allowed)⟩
    · obtain ⟨decided, latest, same, -⟩ := ledger.current g present
      refine ⟨decided, latest, same, fun single => ?_⟩
      rw [once] at single
      cases single
    · obtain ⟨decided, latest, same, spent⟩ := ledger.current grant present
      refine ⟨decided, latest, same, fun _ id run => ?_⟩
      change id ∈ runs grant.tool (.admitted row.id grant :: era grant.tool acts) at run
      rw [runs_admitted_self rfl] at run
      rcases List.mem_cons.mp run with rfl | earlier
      · exact .inl rfl
      · rcases spent once id earlier with reserved | dead
        · rw [free] at reserved
          cases reserved
        · exact .inr (dead.apply allowed)
  · intro rest suffix other decided latest once
    rcases List.suffix_cons_iff.mp suffix with rfl | earlier
    · rw [decision?_admitted] at latest
      rw [era_admitted]
      by_cases same : grant.tool = other
      · subst same
        obtain ⟨decided', latest', equal, spent⟩ := ledger.current grant present
        rw [latest] at latest'
        cases latest'
        rw [runs_admitted_self rfl]
        refine ⟨row.id, fun id run => ?_⟩
        rcases List.mem_cons.mp run with rfl | earlier
        · exact .inl rfl
        · rcases spent (equal ▸ once) id earlier with reserved | dead
          · rw [free] at reserved
            cases reserved
          · exact .inr (dead.apply allowed)
      · rw [runs_admitted_of_ne same]
        obtain ⟨exempt, spent⟩ := ledger.past acts List.suffix_rfl other decided latest once
        exact ⟨exempt, fun id run => (spent id run).imp_right (fun dead => dead.apply allowed)⟩
    · obtain ⟨exempt, spent⟩ := ledger.past rest earlier other decided latest once
      exact ⟨exempt, fun id run => (spent id run).imp_right (fun dead => dead.apply allowed)⟩

/-- A grant after a completion: unchanged and held by another run, or freed. -/
theorem mem_settle {grants : List Grant} (distinct : (grants.map (·.tool)).Nodup) {grant g : Grant} {id : String}
    {success : Option Bool} (once : grant.once = true) (certain : success.isSome = true)
    (member : g ∈ Exec.settleGrant grants grant id success) :
    (g ∈ grants ∧ ¬(g.tool = grant.tool ∧ g.reservation = some id)) ∨
      (success = some false ∧ ∃ h ∈ grants, h.tool = grant.tool ∧ h.reservation = some id ∧
        g = { h with reservation := none }) := by
  have shared : ∀ h : Grant, (h.tool == grant.tool && h.reservation == some id) = true → h.tool = grant.tool := by
    intro h same
    simp only [Bool.and_eq_true, beq_iff_eq] at same
    exact same.1
  unfold Exec.settleGrant at member
  dsimp only at member
  rw [if_pos once] at member
  match success, certain with
  | some true, _ =>
    obtain ⟨there, other⟩ := List.mem_eraseP_of_key (fun h : Grant => h.tool) shared distinct member
    exact .inl ⟨there, by simpa using other⟩
  | some false, _ =>
    rcases List.mem_modifyFirst_of_key (fun h : Grant => h.tool) shared distinct member with
      ⟨there, other⟩ | ⟨h, there, same, rfl⟩
    · exact .inl ⟨there, by simpa using other⟩
    · simp only [Bool.and_eq_true, beq_iff_eq] at same
      exact .inr ⟨rfl, h, there, same.1, same.2, rfl⟩

theorem settle_tools {grants : List Grant} (distinct : (grants.map (·.tool)).Nodup) (grant : Grant) (id : String)
    (success : Option Bool) : ((Exec.settleGrant grants grant id success).map (·.tool)).Nodup := by
  unfold Exec.settleGrant
  dsimp only
  split_ifs
  · split
    · exact distinct.sublist (List.eraseP_sublist.map _)
    · have kept : (grants.modifyFirst (fun g : Grant => g.tool == grant.tool && g.reservation == some id)
          (fun g => { g with reservation := none })).map (·.tool) = grants.map (·.tool) :=
        List.map_modifyFirst_of_eq _ _ _ _ (fun _ _ _ => rfl)
      exact kept ▸ distinct
    · exact distinct
  · exact distinct

/-- A run is completed: the reservation it held is consumed or freed, or stays when its success is not
known. -/
theorem finish {row : Row} {grant : Grant} {success : Option Bool} (ledger : Ledger Lost d acts)
    (allowed : d.Allows (.finish row grant success)) (admitted : .admitted row.id grant ∈ acts)
    (lost : success = some false → Lost row.id) :
    Ledger Lost (d.apply (.finish row grant success)) acts := by
  have apart {id : String} (differs : row.id ≠ id) {tool : String} (held : d.Held id tool) :
      (d.apply (.finish row grant success)).Held id tool := held.apply ledger.named allowed differs
  have dead {id : String} (spent : d.Dead Lost id) : (d.apply (.finish row grant success)).Dead Lost id :=
    spent.apply allowed
  obtain ⟨⟨old, present, running, -, -, argv, own⟩, tool, outcome⟩ := id allowed
  have row? : (d.apply (.finish row grant success)).row? row.id = some row := Desk.row?_putRow_self d row
  -- A grant that this run has reserved is the run's own, and single-use.
  have own? : ∀ g ∈ d.grants, g.reservation = some row.id → g.tool = grant.tool ∧ grant.once = true := by
    intro g member reservation
    obtain ⟨⟨there, found, -, args, -⟩, h, admittedUnder, named, once⟩ := ledger.reserved g member row.id reservation
    obtain rfl : old = there := Option.some.inj (present.symm.trans found)
    have same := grant_unique ledger.distinct admitted ((era_sublist _ _).subset admittedUnder)
    rw [argv, tool] at args
    exact ⟨(Option.some.inj args).symm, same ▸ once⟩
  have keeps : ∀ g ∈ (d.apply (.finish row grant success)).grants,
      (g ∈ d.grants ∧ (g.reservation = some row.id → ∃ reason, row.status = .uncertain reason)) ∨
      (success = some false ∧ ∃ h ∈ d.grants, h.tool = grant.tool ∧ h.reservation = some row.id ∧
        g = { h with reservation := none }) := by
    intro g member
    change g ∈ Exec.settleGrant d.grants grant row.id success at member
    cases known : success with
    | none =>
      rw [known] at member outcome
      have same : Exec.settleGrant d.grants grant row.id none = d.grants := by simp [Exec.settleGrant]
      rw [same] at member
      refine .inl ⟨member, fun _ => ?_⟩
      cases status : row.status with
      | uncertain reason => exact ⟨reason, rfl⟩
      | _ => rw [status] at outcome; cases outcome
    | some value =>
      rw [known] at member
      by_cases once : grant.once = true
      · rcases mem_settle ledger.tools once rfl member with ⟨there, other⟩ | freed
        · refine .inl ⟨there, fun reservation => absurd ⟨(own? g there reservation).1, reservation⟩ other⟩
        · exact .inr freed
      · have same : Exec.settleGrant d.grants grant row.id (some value) = d.grants := by
          unfold Exec.settleGrant
          exact if_neg once
        rw [same] at member
        exact .inl ⟨member, fun reservation => absurd (own? g member reservation).2 once⟩
  refine ⟨Desk.isName_apply allowed ledger.named, settle_tools ledger.tools _ _ _, ?_, ledger.distinct, ?_, ?_, ?_⟩
  · exact fun id member => (ledger.settled id member).apply allowed
  · intro g member id reservation
    rcases keeps g member with ⟨there, uncertain⟩ | ⟨-, h, -, -, -, rfl⟩
    · obtain ⟨held, since⟩ := ledger.reserved g there id reservation
      refine ⟨?_, since⟩
      by_cases same : row.id = id
      · subst same
        exact ⟨row, row?, own, by rw [tool, (own? g there reservation).1], .inr (uncertain reservation)⟩
      · exact apart same held
    · cases reservation
  · intro g member
    rcases keeps g member with ⟨there, -⟩ | ⟨unsuccessful, h, there, -, reservation, rfl⟩
    · obtain ⟨decided, latest, once, spent⟩ := ledger.current g there
      exact ⟨decided, latest, once, fun single id run => (spent single id run).imp_right dead⟩
    · obtain ⟨decided, latest, once, spent⟩ := ledger.current h there
      refine ⟨decided, latest, once, fun single id run => .inr ?_⟩
      rcases spent single id run with reserved | spent
      · rw [reservation] at reserved
        cases reserved
        refine ⟨lost unsuccessful, row, row?, Desk.isTerminal_of_isOutcome outcome, fun reason uncertain => ?_⟩
        rw [uncertain, unsuccessful] at outcome
        cases outcome
      · exact dead spent
  · intro rest suffix other decided latest once
    obtain ⟨exempt, spent⟩ := ledger.past rest suffix other decided latest once
    exact ⟨exempt, fun id run => (spent id run).imp_right dead⟩

/-- What is known of a completion. -/
def Known (Lost : String → Prop) : Completion := fun row grant success acts =>
  .admitted row.id grant ∈ acts ∧ (success = some false → Lost row.id)

/-- Grants may change in ways that keep their tools, uses and reservations. -/
theorem regrant {f : Grant → Grant} (ledger : Ledger Lost d acts)
    (same : ∀ g, (f g).tool = g.tool ∧ (f g).once = g.once ∧ (f g).reservation = g.reservation) :
    Ledger Lost { d with grants := d.grants.map f } acts := by
  refine ⟨ledger.named, ?_, ledger.settled, ledger.distinct, ?_, ?_, ledger.past⟩
  · have tools : (d.grants.map f).map (·.tool) = d.grants.map (·.tool) := by
      rw [List.map_map]
      exact List.map_congr_left (fun g _ => (same g).1)
    exact tools ▸ ledger.tools
  · intro g member id reservation
    obtain ⟨h, there, rfl⟩ := List.mem_map.mp member
    rw [(same h).1]
    exact ledger.reserved h there id ((same h).2.2 ▸ reservation)
  · intro g member
    obtain ⟨h, there, rfl⟩ := List.mem_map.mp member
    rw [(same h).1, (same h).2.1, (same h).2.2]
    exact ledger.current h there

theorem preserved (Lost : String → Prop) : Daemon.Preserved (Known Lost) (Ledger Lost) where
  deed d deed acts allowed fits ledger := by
    cases deed with
    | owner tool decided grants => exact ledger.owner allowed
    | accept row grant => exact ledger.accept allowed
    | finish row grant success => exact ledger.finish allowed fits.1 fits.2
    | _ => exact ledger.quiet allowed rfl (fun _ => not_false)
  reload _ _ ledger := ledger.regrant (fun _ => ⟨rfl, rfl, rfl⟩)

theorem mono {Lost' : String → Prop} (ledger : Ledger Lost d acts) (more : ∀ id, Lost id → Lost' id) :
    Ledger Lost' d acts where
  named := ledger.named
  tools := ledger.tools
  settled := ledger.settled
  distinct := ledger.distinct
  reserved := ledger.reserved
  current g member := by
    obtain ⟨decided, latest, once, spent⟩ := ledger.current g member
    exact ⟨decided, latest, once, fun single id run => (spent single id run).imp_right (fun dead => dead.mono more)⟩
  past rest suffix tool decided latest once := by
    obtain ⟨exempt, spent⟩ := ledger.past rest suffix tool decided latest once
    exact ⟨exempt, fun id run => (spent id run).imp_right (fun dead => dead.mono more)⟩

end Ledger

end Clix
