import Clix.Model.Delivery
import Clix.Proofs.Images

/-! # What becomes of access requests

A machine keeps the requests that wait for its owner, a receipt of each delivery, and the requests it has yet to
deliver itself. One step of a machine either leaves all three alone in whatever it has or may find on disk, or saves
one state in which they follow from what is in memory.
-/

namespace Clix

open Except DurableCell

/-- Which request a row is of, however often it was made. -/
def Request.slot (r : Request) : String × BodyId × String := (r.id, r.origin, r.tool)

/-- Which request an outgoing row is of, whatever became of its deliveries. -/
def OutboundRequest.slot (r : OutboundRequest) : String × BodyId × String := (r.id, r.body, r.tool)

/-- The delivery a receipt is of. -/
def RequestReceipt.delivery (r : RequestReceipt) : BodyId × String := (r.request.origin, r.deliveryId)

/-- What a store knows of access requests. -/
structure Mail where
  requests : List Request
  receipts : List RequestReceipt
  outbound : List OutboundRequest

def Store.mail (s : Store) : Mail := ⟨s.requests, s.requestReceipts, s.outboundRequests⟩

/-- The mail of a machine that was just installed. -/
def Mail.none : Mail := ⟨[], [], []⟩

/-- What one event makes of requests: at most one is new, pending or outgoing, under a random identifier; receipts
stay, and a new one is of a new delivery; outgoing requests stay until they are delivered. -/
structure Mail.Follows (newId : Result String) (settled : Option String) (m n : Mail) : Prop where
  requests : ∃ added : List Request, (added = [] ∨ ∃ r, added = [r] ∧ newId = .ok r.id) ∧
    (n.requests.map Request.slot).Sublist ((m.requests ++ added).map Request.slot)
  receipts : ∃ added : List RequestReceipt, n.receipts = m.receipts ++ added ∧
    (added = [] ∨ ∃ x, added = [x] ∧ x.delivery ∉ m.receipts.map RequestReceipt.delivery)
  kept : ∀ r ∈ m.outbound, r.slot ∈ n.outbound.map OutboundRequest.slot ∨ settled = some r.id
  sent : ∃ added : List OutboundRequest, (added = [] ∨ ∃ r, added = [r] ∧ newId = .ok r.id) ∧
    n.outbound.map OutboundRequest.slot ⊆ (m.outbound ++ added).map OutboundRequest.slot

namespace Mail.Follows

variable {newId : Result String} {settled : Option String} {m n : Mail}

/-- Only pending requests and receipts differ. -/
theorem of_inbox (requests : ∃ added : List Request, (added = [] ∨ ∃ r, added = [r] ∧ newId = .ok r.id) ∧
      (n.requests.map Request.slot).Sublist ((m.requests ++ added).map Request.slot))
    (receipts : ∃ added : List RequestReceipt, n.receipts = m.receipts ++ added ∧
      (added = [] ∨ ∃ x, added = [x] ∧ x.delivery ∉ m.receipts.map RequestReceipt.delivery))
    (outbound : n.outbound = m.outbound) : m.Follows newId settled n where
  requests := requests
  receipts := receipts
  kept r member := .inl (outbound ▸ List.mem_map_of_mem member)
  sent := ⟨[], .inl rfl, by rw [outbound, List.append_nil]; exact List.Subset.refl _⟩

/-- Only outgoing requests differ. -/
theorem of_outbound {outbound : List OutboundRequest}
    (kept : ∀ r ∈ m.outbound, r.slot ∈ outbound.map OutboundRequest.slot ∨ settled = some r.id)
    (sent : ∃ added : List OutboundRequest, (added = [] ∨ ∃ r, added = [r] ∧ newId = .ok r.id) ∧
      outbound.map OutboundRequest.slot ⊆ (m.outbound ++ added).map OutboundRequest.slot) :
    m.Follows newId settled { m with outbound := outbound } where
  requests := ⟨[], .inl rfl, by rw [List.append_nil]⟩
  receipts := ⟨[], (List.append_nil _).symm, .inl rfl⟩
  kept := kept
  sent := sent

theorem refl (m : Mail) : m.Follows newId settled m :=
  of_inbox ⟨[], .inl rfl, by rw [List.append_nil]⟩ ⟨[], (List.append_nil _).symm, .inl rfl⟩ rfl

theorem of_eq (same : n = m) : m.Follows newId settled n := by
  rw [same]
  exact refl m

/-- Fewer requests wait. -/
theorem of_sublist {requests : List Request} (fewer : requests.Sublist m.requests) :
    m.Follows newId settled { m with requests := requests } :=
  of_inbox ⟨[], .inl rfl, by rw [List.append_nil]; exact fewer.map _⟩ ⟨[], (List.append_nil _).symm, .inl rfl⟩ rfl

end Mail.Follows

/-! ### Edits -/

namespace Request

variable {newId : Result String} {settled : Option String} {s t : Store} {origin : BodyId} {tool : String} {r : Request}

/-- Recording a request refreshes a row, or adds one. -/
theorem upsert_mail (success : upsert newId s origin tool = .ok (t, r)) :
    t.mail = { s.mail with requests := t.requests } ∧ r.origin = origin ∧ r.tool = tool ∧
      (t.requests.map slot = s.requests.map slot ∨ newId = .ok r.id ∧ t.requests = s.requests ++ [r]) := by
  unfold upsert at success
  rw [bind_eq_ok] at success
  obtain ⟨⟨⟩, -, success⟩ := success
  dsimp only at success
  split at success
  · next existing found =>
    cases success
    have matched := List.find?_some found
    simp only [Bool.and_eq_true, beq_iff_eq] at matched
    refine ⟨rfl, matched.1, matched.2, .inl ?_⟩
    have each : s.requests.reverse.modifyFirst (fun r => r.origin == origin && r.tool == tool)
        (fun _ => { existing with onceSuggested := true }) =
        s.requests.reverse.modifyFirst (fun r => r.origin == origin && r.tool == tool)
          (fun r => { r with onceSuggested := true }) := List.modifyFirst_congr found rfl
    have slots := List.map_modifyFirst_of_eq slot (fun r => r.origin == origin && r.tool == tool)
      (fun r => { r with onceSuggested := true }) s.requests.reverse (fun _ _ _ => rfl)
    dsimp only
    rw [List.map_reverse, each, slots, List.map_reverse, List.reverse_reverse]
  · rw [bind_eq_ok] at success
    obtain ⟨id, drawn, success⟩ := success
    cases success
    exact ⟨rfl, rfl, rfl, .inr ⟨drawn, rfl⟩⟩

theorem upsert_follows (success : upsert newId s origin tool = .ok (t, r)) : s.mail.Follows newId settled t.mail := by
  obtain ⟨frame, -, -, same | ⟨drawn, added⟩⟩ := upsert_mail success
  · rw [frame]
    exact .of_inbox ⟨[], .inl rfl, by rw [List.append_nil]; exact same ▸ .refl _⟩
      ⟨[], (List.append_nil _).symm, .inl rfl⟩ rfl
  · rw [frame]
    exact .of_inbox ⟨[r], .inr ⟨r, rfl, drawn⟩, by dsimp only; rw [added]; exact .refl _⟩
      ⟨[], (List.append_nil _).symm, .inl rfl⟩ rfl

/-- An answered delivery has a receipt; one that had a receipt before changes nothing. -/
theorem receive_mail {deliveryId : String} (success : receive newId s origin tool (some deliveryId) = .ok (t, r)) :
    r.origin = origin ∧ r.tool = tool ∧
      (t = s ∧ ⟨deliveryId, r⟩ ∈ s.requestReceipts ∨
        (origin, deliveryId) ∉ s.requestReceipts.map RequestReceipt.delivery ∧ ∃ u, upsert newId s origin tool = .ok (u, r) ∧
          t = { u with requestReceipts := u.requestReceipts ++ [⟨deliveryId, r⟩] }) := by
  unfold receive at success
  rw [bind_eq_ok] at success
  obtain ⟨⟨⟩, -, success⟩ := success
  dsimp only at success
  rw [bind_eq_ok] at success
  obtain ⟨⟨⟩, -, success⟩ := success
  split at success
  · next receipt found =>
    rw [refuseIf_bind_eq_ok, not_not] at success
    obtain ⟨same, success⟩ := success
    cases success
    have matched := List.find?_some found
    simp only [Bool.and_eq_true, beq_iff_eq] at matched
    refine ⟨matched.2, same, .inl ⟨rfl, ?_⟩⟩
    rw [← matched.1]
    exact List.mem_of_find?_eq_some found
  · next absent =>
    rw [bind_eq_ok] at success
    obtain ⟨⟨u, made⟩, recorded, success⟩ := success
    cases success
    obtain ⟨-, sender, named, -⟩ := upsert_mail recorded
    refine ⟨sender, named, .inr ⟨fun there => ?_, u, recorded, rfl⟩⟩
    obtain ⟨receipt, member, same⟩ := List.mem_map.mp there
    obtain ⟨sent, id⟩ := Prod.mk.inj same
    have skipped := List.find?_eq_none.mp absent receipt member
    simp [id, sent] at skipped

theorem receive_follows {deliveryId : Option String} (success : receive newId s origin tool deliveryId = .ok (t, r)) :
    s.mail.Follows newId settled t.mail := by
  cases deliveryId with
  | none =>
    unfold receive at success
    rw [bind_eq_ok] at success
    obtain ⟨⟨⟩, -, success⟩ := success
    exact upsert_follows success
  | some id =>
    obtain ⟨sender, -, ⟨rfl, -⟩ | ⟨absent, u, recorded, rfl⟩⟩ := receive_mail success
    · exact .refl _
    · have before : s.mail.Follows newId settled u.mail := upsert_follows recorded
      have receipts : u.requestReceipts = s.requestReceipts := congrArg Mail.receipts (upsert_mail recorded).1
      refine ⟨before.requests, ⟨[⟨id, r⟩], ?_, .inr ⟨_, rfl, ?_⟩⟩, before.kept, before.sent⟩
      · exact congrArg (· ++ [⟨id, r⟩]) receipts
      · rw [RequestReceipt.delivery, sender]
        exact absent

/-- An approval leaves no request of its slot, and a denial removes one row. -/
theorem decide_mail {fs : FileSystem} {id : String} {decision : Decision} {g : Option Grant}
    (success : decide fs s id decision = .ok (t, g)) :
    t.mail = { s.mail with requests := t.requests } ∧ t.requests.Sublist s.requests ∧
      ∀ grant, g = some grant → ∀ r ∈ t.requests, Grant.toolKey r.tool ≠ grant.tool := by
  unfold decide at success
  split at success
  · cases success
  split at success
  · rw [bind_eq_ok] at success
    obtain ⟨allow, -, success⟩ := success
    rw [bind_eq_ok] at success
    obtain ⟨built, -, success⟩ := success
    rw [refuseIf_bind_eq_ok] at success
    cases success.2
    refine ⟨rfl, List.filter_sublist, fun grant same r member => ?_⟩
    rw [← Option.some.inj same]
    simpa using (List.mem_filter.mp member).2
  · cases success
    exact ⟨rfl, List.eraseP_sublist, nofun⟩

end Request

namespace Grant

variable {fs : FileSystem} {s t : Store} {tool : String} {g : Grant}

theorem commit_mail (s : Store) (g : Grant) : (commit s g).mail = { s.mail with requests := (commit s g).requests } ∧
    (commit s g).requests.Sublist s.requests ∧ ∀ r ∈ (commit s g).requests, toolKey r.tool ≠ g.tool := by
  refine ⟨rfl, List.filter_sublist, fun r member => ?_⟩
  simpa using (List.mem_filter.mp member).2

theorem addWithArgs_mail {allow : List String} {once : Bool} {expiry : Option SystemTime} {schedule : Option Schedule}
    {args : Option (List (List String))} (success : addWithArgs fs s tool allow once expiry schedule args = .ok (t, g)) :
    t.mail = { s.mail with requests := t.requests } ∧ t.requests.Sublist s.requests ∧
      ∀ r ∈ t.requests, toolKey r.tool ≠ g.tool := by
  rw [addWithArgs, bind_eq_ok] at success
  obtain ⟨built, -, success⟩ := success
  cases success
  exact commit_mail s g

theorem remove_mail (success : remove fs s tool = .ok (t, g)) :
    t.mail = { s.mail with requests := t.requests } ∧ t.requests.Sublist s.requests ∧
      ∀ r ∈ t.requests, toolKey r.tool ≠ g.tool := by
  rw [remove, bind_eq_ok] at success
  obtain ⟨target, -, success⟩ := success
  split at success
  · cases success
  · cases success
    refine ⟨rfl, List.filter_sublist, fun r member => ?_⟩
    simpa using (List.mem_filter.mp member).2

end Grant

theorem settleOutbound_follows {newId : Result String} (s : Store) (id : String) (result : Result Unit) :
    s.mail.Follows newId (Event.settleRequest id result).settles (settleOutbound s id result).mail := by
  have renamed {f : OutboundRequest → OutboundRequest} (same : ∀ r, (f r).slot = r.slot) :
      s.mail.Follows newId none
        { s.mail with outbound := s.outboundRequests.modifyFirst (fun r => r.id == id) f } := by
    have slots := List.map_modifyFirst_of_eq OutboundRequest.slot (fun r => r.id == id) f s.outboundRequests
      (fun r _ _ => same r)
    refine .of_outbound (fun r member => .inl ?_) ⟨[], .inl rfl, ?_⟩
    · exact slots.symm ▸ List.mem_map_of_mem member
    · rw [slots, List.append_nil]
      exact List.Subset.refl _
  cases result with
  | ok _ =>
    refine .of_outbound (fun r member => ?_) ⟨[], .inl rfl, ?_⟩
    · by_cases named : r.id = id
      · exact .inr (congrArg some named.symm)
      · exact .inl (List.mem_map_of_mem ((List.mem_eraseP_of_neg (by simpa using named)).mpr member))
    · rw [List.append_nil]
      exact List.map_subset _ List.eraseP_subset
  | error e =>
    unfold settleOutbound
    cases e <;> exact renamed (fun _ => rfl)

namespace Store

variable {c : Crypto} {α : Type} {epochId : Result String} {s t next : Store} {value : α}
  {edit : Store → Result (Store × α)}

theorem SamePublished.mail (same : s.SamePublished t) : t.mail = s.mail := by
  rw [same]
  rfl

theorem SamePruned.mail (same : s.SamePruned t) : t.mail = s.mail := by
  rw [same.frame]
  rfl

/-- Saving an edit adds nothing to what it made of requests. -/
theorem stage_mail (success : stage c epochId s edit = .ok (next, value)) :
    ∃ edited, edit s = .ok (edited, value) ∧ next.mail = edited.mail := by
  obtain ⟨-, edited, refreshed, ran, published, fits, -, -⟩ := stage_eq_ok success
  have one := (History.refreshOwned_samePublished published).mail
  have two := (History.normalizeOutput_samePruned { refreshed with formatVersion := formatVersionNow }).mail
  have three := (Storage.evict_samePruned (Storage.prepare_eq_ok fits).2.1).mail
  exact ⟨edited, ran, (three.trans two).trans one⟩

end Store

theorem Store.first_mail (c : Crypto) (epoch hostname : String) (seed : Bytes) :
    (Store.first c epoch hostname seed).mail = .none := (History.refreshTrust_samePublished c _).mail

namespace Exec

variable {c : Crypto} {s t : Store} {settled : Option String}

/-- A denial records a request; nothing else of an admission concerns requests. -/
theorem admitEdit_follows {env : Surroundings} {origin : BodyId} {argv : List String} {id : String}
    {cert : Option Certificate} {v : Job × Option Grant} (success : admitEdit c env origin argv id cert s = .ok (t, v)) :
    s.mail.Follows env.newId settled t.mail := by
  rw [admitEdit, bind_eq_ok] at success
  obtain ⟨u, bound, success⟩ := success
  have before : u.mail = s.mail := by
    rw [bind?_frame bound]
    rfl
  dsimp only at success
  split at success
  · rw [refuseIf_bind_eq_ok] at success
    cases success.2
    exact .of_eq before
  · rw [bind_eq_ok] at success
    obtain ⟨w, made, success⟩ := success
    cases success
    rw [askOwner] at made
    split_ifs at made
    · rw [bind_eq_ok] at made
      obtain ⟨⟨x, request⟩, made, same⟩ := made
      cases same
      have asked : u.mail.Follows env.newId settled w.mail := Request.upsert_follows made
      exact before ▸ asked
    · cases made
      exact .of_eq before

theorem finishEdit_mail {grant : Grant} {run : Job} {outcome : RunOutcome} {u : Unit}
    (success : finishEdit grant run outcome s = .ok (t, u)) : t.mail = s.mail := by
  rw [finishEdit] at success
  split at success <;> cases success
  rfl

end Exec

namespace Dispatch

variable {s t : Store} {u : Unit}

theorem appendEdit_mail {job : Job} {retryOf : Option String} (success : appendEdit job retryOf s = .ok (t, u)) :
    t.mail = s.mail := by
  cases success
  rw [History.linkRetry_frame]
  rfl

theorem localError_mail {id : String} {e : ClixError} (success : localError id e s = .ok (t, u)) : t.mail = s.mail := by
  unfold localError at success
  split at success
  · cases success
  · split_ifs at success <;> cases success <;> rfl

end Dispatch

namespace History

variable {c : Crypto} {s t : Store}

theorem acceptRunnerReply_mail {peer : BodyId} {published : Published} {v : Option Job}
    (success : acceptRunnerReply c s peer published = .ok (t, v)) : t.mail = s.mail := by
  unfold acceptRunnerReply at success
  rw [bind_eq_ok] at success
  obtain ⟨⟨⟩, -, success⟩ := success
  dsimp only at success
  rw [refuseIf_bind_eq_ok] at success
  obtain ⟨-, success⟩ := success
  split at success
  · cases success
  split at success
  · cases success
    rfl
  rw [refuseIf_bind_eq_ok] at success
  obtain ⟨-, success⟩ := success
  rw [bind_eq_ok] at success
  obtain ⟨⟨u, changed⟩, merged, success⟩ := success
  have same := (ingest_samePublished merged).mail
  dsimp only at success
  split_ifs at success <;> cases success <;> exact same

theorem mergePage_mail {peer : BodyId} {progress : Progress} {page : Page}
    (success : mergePage c s peer progress page = .ok t) : t.mail = s.mail := (mergePage_samePublished success).mail

end History

/-! ### Steps -/

/-- Neither requests nor acts differ. -/
def Image.Alike (i j : Image) : Prop := j.store.mail = i.store.mail ∧ j.acts = i.acts

/-- What may become of requests and acts by one event. An owner decision leaves no request of its slot. -/
structure Image.Follows (e : Env × Event) (i j : Image) : Prop where
  mail : i.store.mail.Follows e.1.newId e.2.settles j.store.mail
  acts : ∃ new : List Act, j.acts = new ++ i.acts ∧
    ∀ key grant, .owner key grant ∈ new → ∀ r ∈ j.store.requests, Grant.toolKey r.tool ≠ key

namespace Daemon

/-- A change of a cell that leaves requests and acts alone. -/
inductive Calm (cell : DurableCell Image) : DurableCell Image → Prop
  | write (next stopped : Image) (outcome : Outcome) (saved : cell.mem.Alike next) (kept : cell.mem.Alike stopped) :
      Calm cell (cell.replace next stopped outcome)
  | note (f : Image → Image) (same : ∀ i : Image, i.Alike (f i)) : Calm cell (cell.tweak f)
  | reopen (load : Image → Image) (same : ∀ i : Image, i.Alike (load i)) (reverted : Bool) :
      Calm cell (cell.reopen load reverted)

/-- Any number of such changes. -/
abbrev Calms : DurableCell Image → DurableCell Image → Prop := Relation.ReflTransGen Calm

/-- What one event does to a cell: nothing to requests and acts, or one save of what follows. -/
def Moves (e : Env × Event) (cell cell' : DurableCell Image) : Prop :=
  Calms cell cell' ∨ ∃ next stopped outcome,
    cell.mem.Follows e next ∧ cell.mem.Alike stopped ∧ cell' = cell.replace next stopped outcome

variable {c : Crypto} {d : Daemon} {env : Env} {e : Env × Event} {α : Type}

theorem moves_update (epochId : Result String) (fault : Option Fault) (edit : Store → Result (Store × α))
    (acts : α → List Act) (follows : ∀ edited value, edit d.store = .ok (edited, value) →
      d.store.mail.Follows e.1.newId e.2.settles edited.mail ∧
        ∀ key grant, .owner key grant ∈ acts value → ∀ r ∈ edited.requests, Grant.toolKey r.tool ≠ key) :
    Moves e d.cell (d.update c epochId fault edit acts).1.cell := by
  rcases update_cases (d := d) (c := c) epochId fault edit acts with ⟨_, same⟩ | ⟨next, value, staged, same⟩
  · rw [same]
    exact .inl .refl
  · rw [same]
    obtain ⟨edited, ran, kept⟩ := Store.stage_mail staged
    obtain ⟨mail, cleared⟩ := follows edited value ran
    have requests : next.requests = edited.requests := congrArg Mail.requests kept
    refine .inr ⟨⟨next, acts value ++ d.acts⟩, ⟨d.store.stoppedBy fault, d.acts⟩, outcome fault,
      ⟨?_, acts value, rfl, ?_⟩, ⟨?_, rfl⟩, rfl⟩
    · exact kept.symm ▸ mail
    · exact fun key grant member r there => cleared key grant member r (requests ▸ there)
    · cases fault <;> rfl

/-- An update that is no owner decision. -/
theorem moves_quiet (edit : Store → Result (Store × α)) (follows : ∀ edited value, edit d.store = .ok (edited, value) →
      d.store.mail.Follows e.1.newId e.2.settles edited.mail) :
    Moves e d.cell (d.quietUpdate c env edit).1.cell :=
  moves_update _ _ _ _ (fun edited value ran => ⟨follows edited value ran, nofun⟩)

/-- An update whose edit keeps requests. -/
theorem calms_update (epochId : Result String) (fault : Option Fault) (edit : Store → Result (Store × α))
    (keeps : ∀ edited value, edit d.store = .ok (edited, value) → edited.mail = d.store.mail) :
    Calms d.cell (d.update c epochId fault edit (fun _ => [])).1.cell := by
  rcases update_cases (d := d) (c := c) epochId fault edit (fun _ => []) with ⟨_, same⟩ | ⟨next, value, staged, same⟩
  · rw [same]
  · rw [same]
    obtain ⟨edited, ran, kept⟩ := Store.stage_mail staged
    refine .single (.write ⟨next, d.acts⟩ _ _ ⟨kept.trans (keeps edited value ran), rfl⟩ ⟨?_, rfl⟩)
    cases fault <;> rfl

theorem calms_setStore {f : Store → Store} (keeps : ∀ s, (f s).mail = s.mail) : Calms d.cell (d.setStore f).cell :=
  .single (.note (fun image => { image with store := f image.store }) (fun i => ⟨keeps i.store, rfl⟩))

theorem moves_submit (requester : Requester) (origin : BodyId) (argv : List String) (id : String)
    (cert : Option Certificate) : Moves e d.cell (d.submit c e.1 requester origin argv id cert).1.cell := by
  unfold submit
  split
  · exact .inl .refl
  · exact .inl .refl
  · have moves : Moves e d.cell (d.update c e.1.epochId e.1.fault
        (Exec.admitEdit c (d.surroundings e.1) origin argv id cert)
        (fun admitted => (admitted.2.map (Act.admitted id)).toList)).1.cell :=
      moves_update _ _ _ _ (fun edited value ran => ⟨Exec.admitEdit_follows ran, fun key grant member => by
        cases grants : value.2 <;> simp [grants] at member⟩)
    generalize d.update c e.1.epochId e.1.fault _ _ = done at moves
    obtain ⟨after, _ | ⟨job, _ | grant⟩⟩ := done <;> exact moves

theorem moves_attempt {dispatch : Dispatch} {done : Daemon × Result α} (moves : Moves e d.cell done.1.cell) :
    Moves e d.cell (attempt dispatch done).cell := by
  obtain ⟨after, _ | value⟩ := done <;> exact moves

/-! ### Restarts -/

theorem calms_saveOpened {cell : DurableCell Image} (before : Calms cell d.cell) (needed : Bool) (f : Store → Store)
    (fault : Option Fault) (keeps : ∀ s, (f s).mail = s.mail) : Calms cell (d.saveOpened needed f fault).cell := by
  unfold saveOpened
  split_ifs
  · exact before
  · exact before.tail (.write ⟨f d.store, d.acts⟩ _ _ ⟨keeps d.store, rfl⟩ ⟨rfl, rfl⟩)

theorem calms_openStore (boot : Boot) (d : Daemon) : Calms d.cell (d.openStore boot).cell := by
  have reopened : Calms d.cell
      (d.cell.reopen (fun image => { image with store := image.store.reloaded }) boot.reverted) :=
    .single (.reopen (fun image => { image with store := image.store.reloaded }) (fun _ => ⟨rfl, rfl⟩) _)
  unfold openStore
  dsimp only
  split_ifs
  · exact reopened
  · apply calms_saveOpened
    · apply calms_saveOpened
      · exact reopened
      · exact fun _ => rfl
    · exact fun _ => rfl

theorem calms_repairBodyName (env : Env) (fault : Option Fault) (d : Daemon) :
    Calms d.cell (d.repairBodyName c env fault).cell := by
  unfold repairBodyName
  split_ifs
  · exact .refl
  · have calms : Calms d.cell (d.update c env.epochId fault
        (fun s => .ok ({ s with bodyName := Pair.sanitizeName s.bodyName }, ())) (fun _ => [])).1.cell :=
      calms_update _ _ _ (fun edited value ran => by cases ran; rfl)
    generalize d.update c env.epochId fault _ _ = done at calms
    obtain ⟨after, _ | ⟨⟩⟩ := done <;> exact calms

theorem calms_recoverJobs (env : Env) (d : Daemon) : Calms d.cell (d.recoverJobs c env).cell := by
  unfold recoverJobs
  split_ifs
  swap
  · exact .refl
  have calms : Calms d.cell (d.quietUpdate c env Store.recoverEdit).1.cell :=
    calms_update _ _ _ (fun edited value ran => by cases ran; rfl)
  generalize d.quietUpdate c env Store.recoverEdit = done at calms
  obtain ⟨after, _ | ⟨⟩⟩ := done
  · exact calms.trans (calms_setStore (fun _ => rfl))
  · exact calms

theorem calms_restart (env : Env) (boot : Boot) (d : Daemon) : Calms d.cell (d.restart c env boot).cell := by
  have opened := calms_openStore boot d
  have repaired := opened.trans (calms_repairBodyName (c := c) env boot.repairFault (d.openStore boot))
  rcases restart_cases (c := c) d env boot with ⟨same, -⟩ | same | ⟨-, -, same⟩
  · exact same ▸ opened
  · rw [same]
    exact repaired
  · rw [same]
    exact repaired.trans (calms_recoverJobs env _)

/-! ### The step of a machine -/

theorem moves_finish (id : String) : Moves e d.cell (d.finish c e.1 id).cell := by
  unfold finish
  split
  · next run grant outcome admission found =>
    have moves : Moves e d.cell (d.quietUpdate c e.1 (Exec.finishEdit grant run outcome)).1.cell :=
      moves_quiet _ (fun edited value ran => .of_eq (Exec.finishEdit_mail ran))
    generalize d.quietUpdate c e.1 (Exec.finishEdit grant run outcome) = done at moves
    obtain ⟨after, _ | ⟨⟩⟩ := done <;> exact moves
  · exact .inl .refl

theorem moves_answer (dispatch : Dispatch) (incoming : Job) : Moves e d.cell (d.answer c e.1 dispatch incoming).cell := by
  unfold answer
  split
  · exact .inl .refl
  split_ifs
  · exact .inl .refl
  split
  · exact .inl .refl
  · exact .inl .refl
  · apply moves_attempt
    exact moves_quiet _ (fun edited value ran => by cases ran; exact .refl _)

theorem moves_answerCertified (dispatch : Dispatch) (published : Published) :
    Moves e d.cell (d.answerCertified c e.1 dispatch published).cell := by
  unfold answerCertified
  split
  · exact .inl .refl
  split_ifs
  · exact .inl .refl
  · apply moves_attempt
    exact moves_quiet _ (fun edited value ran => .of_eq (History.acceptRunnerReply_mail ran))

theorem moves_settle (dispatch : Dispatch) (error : ClixError) :
    Moves e d.cell (d.settle c e.1 dispatch error).cell := by
  unfold settle
  split_ifs
  · split
    · exact .inl .refl
    · exact moves_quiet _ (fun edited value ran => by cases ran; exact .refl _)
  · exact .inl .refl

theorem moves_sendRequest (body tool : String) : Moves e d.cell (d.sendRequest c e.1 body tool).cell := by
  unfold sendRequest
  split
  · exact .inl .refl
  · next id drawn =>
    refine moves_quiet _ (fun edited value ran => ?_)
    cases ran
    rw [bind_eq_ok] at drawn
    obtain ⟨⟨⟩, -, drawn⟩ := drawn
    rw [refuseIf_bind_eq_ok] at drawn
    refine .of_outbound (fun r member => .inl ?_) ⟨_, .inr ⟨⟨id, ⟨body⟩, tool, false, none⟩, rfl, drawn.2⟩, ?_⟩
    · exact List.mem_map_of_mem (List.mem_append_left _ member)
    · exact List.Subset.refl _

/-- What one event does to requests, on a machine that runs. -/
theorem moves_liveStep (event : Event) (same : e.2 = event) : Moves e d.cell (d.liveStep c e.1 event).cell := by
  cases event with
  | accept key =>
    change Moves e d.cell (d.accept c key).cell
    unfold accept
    split_ifs
    · exact .inl .refl
    · split <;> exact .inl .refl
  | exec peer id argv =>
    change Moves e d.cell (d.exec c e.1 peer id argv).cell
    unfold exec
    split_ifs
    · exact .inl .refl
    · exact moves_submit _ _ _ _ _
  | authorize peer cert =>
    change Moves e d.cell (d.authorize c peer cert).cell
    unfold authorize
    split
    · exact .inl .refl
    · split <;> exact .inl .refl
  | execCertified peer cert =>
    change Moves e d.cell (d.execCertified c e.1 peer cert).cell
    unfold execCertified
    dsimp only
    split_ifs
    · exact .inl .refl
    · exact moves_submit _ _ _ _ _
  | request peer tool deliveryId =>
    dsimp only [liveStep]
    split
    · exact .inl .refl
    · exact moves_quiet _ (fun edited value ran => Request.receive_follows ran)
  | add tool allow once expiry schedule args =>
    refine moves_update _ _ _ _ (fun edited value ran => ?_)
    obtain ⟨frame, fewer, cleared⟩ := Grant.addWithArgs_mail ran
    refine ⟨frame ▸ .of_sublist fewer, fun key grant member => ?_⟩
    cases List.mem_singleton.mp member
    exact cleared
  | remove tool =>
    refine moves_update _ _ _ _ (fun edited value ran => ?_)
    obtain ⟨frame, fewer, cleared⟩ := Grant.remove_mail ran
    refine ⟨frame ▸ .of_sublist fewer, fun key grant member => ?_⟩
    cases List.mem_singleton.mp member
    exact cleared
  | decide id decision =>
    refine moves_update _ _ _ _ (fun edited value ran => ?_)
    obtain ⟨frame, fewer, cleared⟩ := Request.decide_mail ran
    refine ⟨frame ▸ .of_sublist fewer, fun key grant member => ?_⟩
    cases value with
    | none => cases member
    | some g =>
      cases List.mem_singleton.mp member
      exact cleared g rfl
  | ask tool => exact moves_quiet _ (fun edited value ran => Request.upsert_follows ran)
  | sendRequest body tool => exact moves_sendRequest body tool
  | settleRequest id result =>
    change Moves e d.cell (d.settleRequest c e.1 id result).cell
    unfold settleRequest
    split
    · exact .inl .refl
    · split_ifs
      · exact .inl .refl
      · refine moves_quiet _ (fun edited value ran => ?_)
        cases ran
        rw [same]
        exact settleOutbound_follows d.store id result
  | prune keep =>
    exact moves_quiet _ (fun edited value ran => .of_eq (Storage.prune_samePruned ran).mail)
  | compose body argv =>
    change Moves e d.cell (d.compose body argv).cell
    unfold compose
    split <;> exact .inl .refl
  | retry id =>
    change Moves e d.cell (d.retry id).cell
    unfold retry
    split <;> exact .inl .refl
  | submit draft =>
    change Moves e d.cell (d.submitDraft c e.1 draft).cell
    unfold submitDraft
    split
    · exact .inl .refl
    · split_ifs
      · exact .inl .refl
      · exact moves_quiet _ (fun edited value ran => .of_eq (Dispatch.appendEdit_mail ran))
  | rename name =>
    change Moves e d.cell (d.rename c e.1 name).cell
    unfold rename
    dsimp only
    split
    · exact .inl .refl
    · refine moves_quiet _ (fun edited value ran => ?_)
      unfold renameEdit at ran
      dsimp only at ran
      rw [bind_eq_ok] at ran
      obtain ⟨⟨⟩, -, ran⟩ := ran
      cases ran
      exact .refl _
  | pair name key peer =>
    change Moves e d.cell (d.pair c e.1 name key peer).cell
    unfold pair
    split_ifs
    · exact .inl .refl
    · refine moves_quiet _ (fun edited value ran => ?_)
      rw [pairEdit, bind_eq_ok] at ran
      obtain ⟨t, updated, ran⟩ := ran
      cases ran
      rw [(Pair.updatePeer_eq_ok updated).2.1]
      exact .refl _
  | pin index enabled => exact moves_quiet _ (fun edited value ran => by cases ran; exact .refl _)
  | selectJob id =>
    change Moves e d.cell (d.selectJob id).cell
    unfold selectJob
    split <;> exact .inl .refl
  | answer dispatch incoming => exact moves_answer dispatch incoming
  | answerCertified dispatch published => exact moves_answerCertified dispatch published
  | fail dispatch error =>
    dsimp only [liveStep]
    split_ifs <;> exact .inl .refl
  | settle dispatch error => exact moves_settle dispatch error
  | selectLocal id =>
    change Moves e d.cell (d.selectLocal id).cell
    unfold selectLocal
    split <;> exact .inl .refl
  | submitLocal job =>
    change Moves e d.cell (d.submitLocal c e.1 job).cell
    unfold submitLocal
    split
    · exact .inl .refl
    · have moves : Moves e d.cell (d.submit c e.1 .own job.origin job.argv job.id none).1.cell := moves_submit _ _ _ _ _
      generalize d.submit c e.1 .own job.origin job.argv job.id none = done at moves
      obtain ⟨after, _ | value⟩ := done <;> exact moves
  | settleLocal job error =>
    change Moves e d.cell (d.settleLocal c e.1 job error).cell
    unfold settleLocal
    split
    · exact .inl .refl
    · exact moves_quiet _ (fun edited value ran => .of_eq (Dispatch.localError_mail ran))
  | startSync peer =>
    change Moves e d.cell (d.startSync peer).cell
    unfold startSync
    split <;> exact .inl .refl
  | mergePage sync page =>
    change Moves e d.cell (d.mergePage c e.1 sync page).cell
    unfold mergePage
    split_ifs
    · exact .inl .refl
    · refine moves_quiet _ (fun edited value ran => ?_)
      rw [bind_eq_ok] at ran
      obtain ⟨t, merged, ran⟩ := ran
      cases ran
      exact .of_eq (History.mergePage_mail merged)
  | contact peer lastContact error => exact .inl (calms_setStore (fun _ => rfl))
  | launch id spawnError =>
    change Moves e d.cell (d.launch id spawnError).cell
    unfold launch
    split
    · split <;> exact .inl .refl
    · exact .inl .refl
  | exited id status =>
    change Moves e d.cell (d.exited id status).cell
    unfold exited
    split_ifs <;> exact .inl .refl
  | collect id streams waitError =>
    change Moves e d.cell (d.collect id streams waitError).cell
    unfold collect
    split
    · split <;> exact .inl .refl
    · exact .inl .refl
  | finish id => exact moves_finish id
  | giveUp id =>
    change Moves e d.cell (d.giveUp id).cell
    unfold giveUp
    split
    · exact .inl (.single (.note (fun image => { image with
        store := Exec.setStatus image.store id (Exec.unsavedStatus _) }) (fun _ => ⟨rfl, rfl⟩)))
    · exact .inl .refl
  | release id =>
    change Moves e d.cell (d.release id).cell
    unfold release
    split <;> exact .inl .refl
  | restart boot => exact .inl (calms_restart e.1 boot d)

theorem moves_step (d : Daemon) (e : Env × Event) : Moves e d.cell (d.step c e).cell := by
  unfold step
  split_ifs
  · exact moves_liveStep e.2 rfl
  · split
    · unfold exited
      split_ifs <;> exact .inl .refl
    · exact .inl (calms_restart e.1 _ d)
    · exact .inl .refl

theorem among_alike (cell : DurableCell Image) : Everywhere (fun i => ∃ old, cell.Among old ∧ old.Alike i) cell :=
  everywhere_iff.mpr fun x here => ⟨x, here, rfl, rfl⟩

theorem everywhere_calms {cell cell' : DurableCell Image} (calms : Calms cell cell') :
    Everywhere (fun i => ∃ old, cell.Among old ∧ old.Alike i) cell' := by
  have alike {i j : Image} (before : ∃ old, cell.Among old ∧ old.Alike i) (like : i.Alike j) :
      ∃ old, cell.Among old ∧ old.Alike j := by
    obtain ⟨old, here, mail, acts⟩ := before
    exact ⟨old, here, like.1.trans mail, like.2.trans acts⟩
  induction calms with
  | refl => exact among_alike cell
  | tail _ calm ih =>
    cases calm with
    | write next stopped outcome saved kept => exact ih.replace (alike ih.1 saved) (alike ih.1 kept) _
    | note f like => exact ih.tweak (fun here => alike here (like _))
    | reopen load like reverted => exact ih.reopen reverted (fun i here => alike here (like i))

/-- Whatever a step leaves is like something there was, or follows from memory. -/
theorem everywhere_moves {cell cell' : DurableCell Image} (moves : Moves e cell cell') :
    Everywhere (fun i => (∃ old, cell.Among old ∧ old.Alike i) ∨ cell.mem.Follows e i) cell' := by
  rcases moves with calms | ⟨next, stopped, outcome, follows, kept, rfl⟩
  · exact (everywhere_calms calms).mono (fun _ here => .inl here)
  · exact Everywhere.replace ((among_alike cell).mono (fun _ here => .inl here)) (.inr follows)
      (.inl ⟨cell.mem, .inl rfl, kept⟩) outcome

/-- What memory has and every step keeps, any restart finds. -/
theorem durable_moves {R : Mail → Prop} {cell cell' : DurableCell Image}
    (keeps : ∀ m n, m.Follows e.1.newId e.2.settles n → R m → R n)
    (durable : Durable (fun i : Image => R i.store.mail) cell) (moves : Moves e cell cell') :
    Durable (fun i : Image => R i.store.mail) cell' := by
  have forth {i j : Image} (like : i.Alike j) (here : R i.store.mail) : R j.store.mail := like.1 ▸ here
  have back {i j : Image} (like : i.Alike j) (here : R j.store.mail) : R i.store.mail := like.1 ▸ here
  rcases moves with calms | ⟨next, stopped, outcome, follows, kept, rfl⟩
  · induction calms with
    | refl => exact durable
    | tail _ calm ih =>
      cases calm with
      | write next stopped outcome saved kept => exact ih.replace (forth saved) (back kept) _
      | note f like => exact ih.tweak (back (like _))
      | reopen load like reverted => exact Durable.reopen reverted (back (like _))
  · exact durable.replace (keeps _ _ follows.mail) (back kept) _

theorem everywhere_kept {R : Mail → Prop} {cell cell' : DurableCell Image}
    (keeps : ∀ m n, m.Follows e.1.newId e.2.settles n → R m → R n)
    (holds : Everywhere (fun i : Image => R i.store.mail) cell) (moves : Moves e cell cell') :
    Everywhere (fun i : Image => R i.store.mail) cell' := by
  refine (everywhere_moves moves).mono (fun i from' => ?_)
  rcases from' with ⟨old, here, mail, -⟩ | follows
  · exact mail ▸ everywhere_iff.mp holds old here
  · exact keeps _ _ follows.mail holds.1

theorem everywhere_unsent (c : Crypto) (epoch hostname : String) (seed : Bytes) :
    Everywhere (Image.Being fun s => s.mail = .none) (fresh c epoch hostname seed).cell :=
  ⟨Store.first_mail c epoch hostname seed, Store.first_mail c epoch hostname seed, nofun⟩

end Daemon

end Clix
