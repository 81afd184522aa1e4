import Clix.Proofs.Mesh
import Clix.Proofs.Writes
import Clix.Soundness.Authorization

/-! # A peer cannot widen its authority

Whatever connected peers ask for, and whatever becomes of the runs they start, the grants stay what the owner
made them, but for single-use grants that successful runs consumed; this machine's identity, peers and own
requests stay; and what is added to jobs and pending requests has the name of the peer that asked for it.
-/

namespace Clix

open Except

/-- A grant, whoever holds it. -/
def Grant.unreserved (g : Grant) : Grant := { g with reservation := none }

namespace Request

/-- A request, perhaps suggested once more. -/
def Refreshed (old new : Request) : Prop := new = old ∨ new = { old with onceSuggested := true }

/-- Requests stay, perhaps refreshed, and those added after them were asked for. -/
inductive Grown (Asked : BodyId → String → Prop) : List Request → List Request → Prop
  | added {new : List Request} (asked : ∀ r ∈ new, Asked r.origin r.tool) : Grown Asked [] new
  | kept {a b : Request} {old new : List Request} (same : Refreshed a b) (rest : Grown Asked old new) :
      Grown Asked (a :: old) (b :: new)

variable {Asked Asked' : BodyId → String → Prop} {old mid new : List Request} {s t : Store}

theorem Refreshed.trans {a b d : Request} (first : Refreshed a b) (second : Refreshed b d) : Refreshed a d := by
  rcases first with rfl | rfl <;> rcases second with rfl | rfl <;> simp [Refreshed]

theorem Grown.of_refreshed (same : List.Forall₂ Refreshed old new) : Grown Asked old new := by
  induction same with
  | nil => exact .added (fun _ member => absurd member List.not_mem_nil)
  | cons here _ ih => exact .kept here ih

theorem Grown.refl (l : List Request) : Grown Asked l l :=
  .of_refreshed (List.forall₂_same.mpr fun _ _ => .inl rfl)

theorem Grown.append (asked : ∀ r ∈ new, Asked r.origin r.tool) (l : List Request) : Grown Asked l (l ++ new) := by
  induction l with
  | nil => exact .added asked
  | cons a rest ih => exact .kept (.inl rfl) ih

theorem Grown.mono (grown : Grown Asked old new) (more : ∀ origin tool, Asked origin tool → Asked' origin tool) :
    Grown Asked' old new := by
  induction grown with
  | added asked => exact .added (fun r member => more _ _ (asked r member))
  | kept same _ ih => exact .kept same ih

/-- What was asked for stays so when it is refreshed. -/
theorem Grown.asked (grown : Grown Asked old new) (asked : ∀ r ∈ old, Asked r.origin r.tool) :
    ∀ r ∈ new, Asked r.origin r.tool := by
  induction grown with
  | added more => exact more
  | kept same _ ih =>
    rw [List.forall_mem_cons] at asked ⊢
    refine ⟨?_, ih asked.2⟩
    rcases same with rfl | rfl <;> exact asked.1

theorem Grown.trans (first : Grown Asked old mid) (second : Grown Asked mid new) : Grown Asked old new := by
  induction first generalizing new with
  | added asked => exact .added (second.asked asked)
  | kept same _ ih =>
    cases second with
    | kept same' rest => exact .kept (same.trans same') (ih rest)

/-- Refreshing the first match of a list. -/
theorem refreshed_modifyFirst {p : Request → Bool} {l : List Request} {existing : Request}
    (found : l.find? p = some existing) :
    List.Forall₂ Refreshed l (l.modifyFirst p (fun _ => { existing with onceSuggested := true })) := by
  have each : l.modifyFirst p (fun _ => { existing with onceSuggested := true }) =
      l.modifyFirst p (fun r => { r with onceSuggested := true }) := List.modifyFirst_congr found rfl
  rw [each]
  clear each found
  induction l with
  | nil => exact .nil
  | cons a rest ih =>
    rw [List.modifyFirst_cons]
    split_ifs
    · exact .cons (.inr rfl) (List.forall₂_same.mpr fun _ _ => .inl rfl)
    · exact .cons (.inl rfl) ih

theorem upsert_grown {newId : Result String} {origin : BodyId} {tool : String} {r : Request}
    (asked : Asked origin tool) (success : upsert newId s origin tool = .ok (t, r)) :
    t = { s with requests := t.requests } ∧ Grown Asked s.requests t.requests := by
  unfold upsert at success
  rw [bind_eq_ok] at success
  obtain ⟨⟨⟩, -, success⟩ := success
  dsimp only at success
  split at success
  · next existing found =>
    cases success
    have same := List.rel_reverse (refreshed_modifyFirst found)
    rw [List.reverse_reverse] at same
    exact ⟨rfl, .of_refreshed same⟩
  · rw [bind_eq_ok] at success
    obtain ⟨id, -, success⟩ := success
    cases success
    exact ⟨rfl, .append (fun r member => List.mem_singleton.mp member ▸ asked) s.requests⟩

theorem receive_grown {newId : Result String} {origin : BodyId} {tool : String} {deliveryId : Option String}
    {r : Request} (asked : Asked origin tool) (success : receive newId s origin tool deliveryId = .ok (t, r)) :
    t = { s with requests := t.requests, requestReceipts := t.requestReceipts } ∧
      Grown Asked s.requests t.requests := by
  unfold receive at success
  rw [bind_eq_ok] at success
  obtain ⟨⟨⟩, -, success⟩ := success
  dsimp only at success
  split at success
  · obtain ⟨frame, grown⟩ := upsert_grown asked success
    exact ⟨by rw [frame], grown⟩
  · rw [bind_eq_ok] at success
    obtain ⟨⟨⟩, -, success⟩ := success
    split at success
    · rw [refuseIf_bind_eq_ok] at success
      cases success.2
      exact ⟨rfl, .refl _⟩
    · rw [bind_eq_ok] at success
      obtain ⟨⟨u, made⟩, recorded, success⟩ := success
      cases success
      obtain ⟨frame, grown⟩ := upsert_grown asked recorded
      refine ⟨?_, grown⟩
      dsimp only
      rw [frame]

end Request

namespace Store

variable {c : Crypto} {α : Type} {epochId : Result String} {s next : Store} {value : α}
  {edit : Store → Result (Store × α)}

/-- What the saving of an edit adds to it is neither a request nor a setting. -/
theorem stage_requests (success : stage c epochId s edit = .ok (next, value)) :
    ∃ edited, edit s = .ok (edited, value) ∧ next.desk = edited.desk ∧ next.ownerSk = edited.ownerSk ∧
      next.requests = edited.requests ∧ next.outboundRequests = edited.outboundRequests ∧
      next.pinEnabled = edited.pinEnabled := by
  obtain ⟨-, edited, refreshed, ran, published, fits, -, -⟩ := stage_eq_ok success
  have one := History.refreshOwned_samePublished published
  have two := History.normalizeOutput_samePruned { refreshed with formatVersion := formatVersionNow }
  have three := Storage.evict_samePruned (Storage.prepare_eq_ok fits).2.1
  refine ⟨edited, ran, (three.desk.trans two.desk).trans one.desk,
    (three.ownerSk.trans two.ownerSk).trans one.ownerSk, ?_, ?_, ?_⟩ <;>
  · rw [three.frame, two.frame, one]

end Store

/-- What an admission adds to jobs and requests. -/
theorem Exec.admitEdit_adds {c : Crypto} {env : Exec.Surroundings} {s t : Store} {origin : BodyId}
    {argv : List String} {id : String} {cert : Option Certificate} {v : Job × Option Grant}
    {Asked : BodyId → String → Prop} (asked : Asked origin (argv.headD ""))
    (success : Exec.admitEdit c env origin argv id cert s = .ok (t, v)) :
    (v.1.id = id ∧ v.1.origin = origin ∧ v.1.argv = argv) ∧ t.outboundRequests = s.outboundRequests ∧
      t.pinEnabled = s.pinEnabled ∧ Request.Grown Asked s.requests t.requests := by
  rw [admitEdit, bind_eq_ok] at success
  obtain ⟨u, bound, success⟩ := success
  have frame := bind?_frame bound
  have requests : u.requests = s.requests := by rw [frame]
  have outbound : u.outboundRequests = s.outboundRequests := by rw [frame]
  have enabled : u.pinEnabled = s.pinEnabled := by rw [frame]
  dsimp only at success
  split at success
  · rw [refuseIf_bind_eq_ok] at success
    obtain ⟨-, success⟩ := success
    cases success
    exact ⟨⟨rfl, rfl, rfl⟩, outbound, enabled, requests ▸ .refl u.requests⟩
  · rw [bind_eq_ok] at success
    obtain ⟨w, made, success⟩ := success
    cases success
    rw [askOwner] at made
    split_ifs at made
    · rw [bind_eq_ok] at made
      obtain ⟨⟨x, request⟩, made, same⟩ := made
      cases same
      obtain ⟨frame', grown⟩ := Request.upsert_grown asked made
      refine ⟨⟨rfl, rfl, rfl⟩, ?_, ?_, requests ▸ grown⟩
      · rw [← outbound]
        change w.outboundRequests = _
        rw [frame']
      · rw [← enabled]
        change w.pinEnabled = _
        rw [frame']
    · cases made
      exact ⟨⟨rfl, rfl, rfl⟩, outbound, enabled, requests ▸ .refl u.requests⟩

theorem Exec.finishEdit_settings {s t : Store} {grant : Grant} {run : Job} {outcome : Exec.RunOutcome} {u : Unit}
    (success : Exec.finishEdit grant run outcome s = .ok (t, u)) :
    t.requests = s.requests ∧ t.outboundRequests = s.outboundRequests ∧ t.pinEnabled = s.pinEnabled := by
  rw [finishEdit] at success
  split at success
  · cases success
  · cases success
    exact ⟨rfl, rfl, rfl⟩

/-- The deeds that serving peers consists of. -/
def Deed.isServing : Deed → Bool
  | .quiet | .accept _ _ | .deny _ | .finish _ _ _ | .lose _ _ => true
  | _ => false

/-- A deed about another run. -/
def Deed.Spares (id : String) : Deed → Prop
  | .accept row _ | .deny row | .finish row _ _ => row.id ≠ id
  | .lose other _ => other ≠ id
  | _ => True

namespace Desk

variable {Spent Spent' : String → Grant → Prop} {start : List Grant} {d : Desk} {deed : Deed} {id : String}

theorem row?_spares (serving : deed.isServing = true) (spares : deed.Spares id) :
    (d.apply deed).row? id = d.row? id := by
  cases deed with
  | quiet => rfl
  | accept row grant | deny row | finish row grant success => exact row?_putRow_of_ne d row spares
  | lose other reason => exact row?_setStatus_of_ne d _ spares
  | _ => cases serving

theorem name_serving (serving : deed.isServing = true) :
    (d.apply deed).name = d.name ∧ (d.apply deed).peers = d.peers := by
  cases deed with
  | rename _ | pair _ => cases serving
  | _ => exact ⟨rfl, rfl⟩

theorem Running.spares {row : Row} (running : d.Running row) (serving : deed.isServing = true)
    (spares : deed.Spares row.id) : (d.apply deed).Running row := by
  obtain ⟨old, found, rest⟩ := running
  refine ⟨old, (row?_spares serving spares).trans found, ?_⟩
  rw [(name_serving serving).1]
  exact rest

/-- A row that was there, up to its status, or the row of a new run. -/
theorem mem_rows_serving (serving : deed.isServing = true) (allowed : d.Allows deed) {row : Row}
    (member : row ∈ (d.apply deed).rows) :
    (∃ old ∈ d.rows, old.id = row.id ∧ old.origin = row.origin ∧ old.argv = row.argv) ∨
      (∃ grant, deed = .accept row grant) ∨ deed = .deny row := by
  have put {new : Row} (there : row ∈ d.rows.put (fun r => r.id == new.id) new) : row ∈ d.rows ∨ row = new := by
    unfold List.put at there
    split_ifs at there
    · rcases List.mem_modifyFirst there with old | ⟨-, -, -, same⟩
      · exact .inl old
      · exact .inr same
    · simpa using there
  cases deed with
  | quiet => exact .inl ⟨row, member, rfl, rfl, rfl⟩
  | accept new grant =>
    rcases put member with old | rfl
    · exact .inl ⟨row, old, rfl, rfl, rfl⟩
    · exact .inr (.inl ⟨grant, rfl⟩)
  | deny new =>
    rcases put member with old | rfl
    · exact .inl ⟨row, old, rfl, rfl, rfl⟩
    · exact .inr (.inr rfl)
  | finish new grant success =>
    rcases put member with old | rfl
    · exact .inl ⟨row, old, rfl, rfl, rfl⟩
    · obtain ⟨⟨old, found, -, -, origin, argv, -⟩, -⟩ := allowed
      exact .inl ⟨old, List.mem_of_find?_eq_some found, row?_id found, origin, argv⟩
  | lose other reason =>
    rcases List.mem_modifyFirst member with old | ⟨old, there, -, rfl⟩
    · exact .inl ⟨row, old, rfl, rfl, rfl⟩
    · exact .inl ⟨old, there, rfl, rfl, rfl⟩
  | _ => cases serving

/-- A reservation by a run, if there is one, is of the grant it was admitted under. -/
def Reserves (d : Desk) (id : String) (grant : Grant) : Prop :=
  grant.once = true → ∀ g, d.grants.find? (fun g => g.tool == grant.tool && g.reservation == some id) = some g →
    g.unreserved = grant.unreserved

theorem Reserves.spares {grant : Grant} (reserves : d.Reserves id grant) (serving : deed.isServing = true)
    (allowed : d.Allows deed) (spares : deed.Spares id) : (d.apply deed).Reserves id grant := by
  intro once
  have apart {other : String} (differs : other ≠ id) : ∀ g : Grant, g.reservation = some other →
      (g.tool == grant.tool && g.reservation == some id) = false := by
    intro g same
    simp [same, differs]
  have free : ∀ g : Grant, g.reservation = none → (g.tool == grant.tool && g.reservation == some id) = false := by
    intro g same
    simp [same]
  have kept {grants : List Grant}
      (same : grants.find? (fun g => g.tool == grant.tool && g.reservation == some id) =
        d.grants.find? (fun g => g.tool == grant.tool && g.reservation == some id)) :
      ∀ g, grants.find? (fun g => g.tool == grant.tool && g.reservation == some id) = some g →
        g.unreserved = grant.unreserved := by
    intro g found
    exact reserves once g (same ▸ found)
  cases deed with
  | quiet | deny _ | lose _ _ => exact reserves once
  | accept row granted =>
    obtain ⟨-, -, -, first, unreserved⟩ := allowed
    refine kept ?_
    change (if granted.once then Exec.reserveGrant d.grants granted.tool row.id else d.grants).find? _ = _
    split_ifs
    · exact List.find?_modifyFirst_of_found first (free granted unreserved) (apart spares _ rfl)
    · rfl
  | finish row granted success =>
    refine kept ?_
    change (Exec.settleGrant d.grants granted row.id success).find? _ = _
    have matched : ∀ g : Grant, (g.tool == granted.tool && g.reservation == some row.id) = true →
        g.reservation = some row.id := by
      intro g same
      simpa using (Bool.and_eq_true_iff.mp same).2
    unfold Exec.settleGrant
    dsimp only
    split_ifs
    · cases success with
      | none => rfl
      | some value =>
        cases value with
        | true => exact List.find?_eraseP_of_ne _ _ _ (fun g same => apart spares g (matched g same))
        | false =>
          exact List.find?_modifyFirst_of_ne _ _ _ _ (fun g same => apart spares g (matched g same))
            (fun g _ => free _ rfl)
    · rfl
  | _ => cases serving

theorem reserves_accept {row : Row} {grant : Grant} (allowed : d.Allows (.accept row grant)) :
    (d.apply (.accept row grant)).Reserves row.id grant := by
  intro once g found
  obtain ⟨-, -, -, first, -⟩ := allowed
  change (if grant.once then Exec.reserveGrant d.grants grant.tool row.id else d.grants).find? _ = _ at found
  rw [if_pos once, Exec.reserveGrant, List.find?_modifyFirst_narrow first _ (by simp)] at found
  · rw [← Option.some.inj found]
    rfl
  · intro b same
    exact (Bool.and_eq_true_iff.mp same).1

/-- The grants are those of the start without the single-use grants that runs spent, each run one. -/
def Spends (Spent : String → Grant → Prop) (start : List Grant) (d : Desk) : Prop :=
  ∃ spent : List (String × Grant), (spent.map (·.1)).Nodup ∧
    (∀ x ∈ spent, x.2.once = true ∧ Spent x.1 x.2 ∧ ∃ row, d.row? x.1 = some row ∧ row.status.isTerminal = true) ∧
    (d.grants.map Grant.unreserved).Sublist (start.map Grant.unreserved) ∧
    (start.map Grant.unreserved).Perm (d.grants.map Grant.unreserved ++ spent.map (fun x => x.2.unreserved))

theorem Spends.mono (spends : d.Spends Spent start) (more : ∀ id grant, Spent id grant → Spent' id grant) :
    d.Spends Spent' start := by
  obtain ⟨spent, distinct, each, rest⟩ := spends
  refine ⟨spent, distinct, fun x member => ?_, rest⟩
  obtain ⟨once, paid, finals⟩ := each x member
  exact ⟨once, more _ _ paid, finals⟩

theorem Spends.refl (d : Desk) : d.Spends Spent d.grants :=
  ⟨[], List.nodup_nil, fun _ member => absurd member List.not_mem_nil, .refl _, by simp⟩

theorem Spends.apply (spends : d.Spends Spent start) (allowed : d.Allows deed) (serving : deed.isServing = true)
    (held : ∀ row grant, deed = .finish row grant (some true) → grant.once = true →
      Spent row.id grant ∧ d.Reserves row.id grant) : (d.apply deed).Spends Spent start := by
  obtain ⟨spent, distinct, each, left, all⟩ := spends
  have finals : ∀ x ∈ spent, x.2.once = true ∧ Spent x.1 x.2 ∧
      ∃ row, (d.apply deed).row? x.1 = some row ∧ row.status.isTerminal = true := by
    intro x member
    obtain ⟨once, paid, row, found, terminal⟩ := each x member
    exact ⟨once, paid, row, row?_apply_of_terminal allowed found terminal, terminal⟩
  have kept (same : (d.apply deed).grants.map Grant.unreserved = d.grants.map Grant.unreserved) :
      (d.apply deed).Spends Spent start :=
    ⟨spent, distinct, finals, same ▸ left, same ▸ all⟩
  cases deed with
  | quiet | deny _ | lose _ _ => exact kept rfl
  | accept row grant =>
    refine kept ?_
    change (if grant.once then Exec.reserveGrant d.grants grant.tool row.id else d.grants).map _ = _
    split_ifs
    · exact List.map_modifyFirst_of_eq _ _ _ _ (fun _ _ _ => rfl)
    · rfl
  | finish row grant success =>
    have grants : (d.apply (.finish row grant success)).grants = Exec.settleGrant d.grants grant row.id success := rfl
    by_cases spends : success = some true ∧ grant.once = true
    · obtain ⟨rfl, once⟩ := spends
      cases found : d.grants.find? (fun g => g.tool == grant.tool && g.reservation == some row.id) with
      | none =>
        refine kept ?_
        rw [grants, Exec.settleGrant, if_pos once]
        exact congrArg _ (List.eraseP_of_forall_not (by simpa using found))
      | some g =>
        obtain ⟨paid, reserves⟩ := held row grant rfl once
        obtain ⟨before, after, split, erased⟩ := List.eraseP_of_find? found
        have now : (d.apply (.finish row grant (some true))).grants = before ++ after := by
          rw [grants, Exec.settleGrant, if_pos once]
          exact erased
        have same : g.unreserved = grant.unreserved := reserves once g found
        obtain ⟨⟨old, present, running, -⟩, -, outcome⟩ := allowed
        have fresh : row.id ∉ spent.map (·.1) := by
          intro member
          obtain ⟨x, there, named⟩ := List.mem_map.mp member
          obtain ⟨-, -, other, found, terminal⟩ := each x there
          obtain rfl : old = other := Option.some.inj (present.symm.trans (named ▸ found))
          rw [running] at terminal
          cases terminal
        rw [split, List.map_append, List.map_cons, same] at left all
        refine ⟨(row.id, grant) :: spent, List.nodup_cons.mpr ⟨fresh, distinct⟩, ?_, ?_, ?_⟩
        · rw [List.forall_mem_cons]
          exact ⟨⟨once, paid, row, row?_putRow_self d row, isTerminal_of_isOutcome outcome⟩, finals⟩
        · rw [now, List.map_append]
          exact ((List.Sublist.refl _).append (List.sublist_cons_self _ _)).trans left
        · rw [now, List.map_append, List.map_cons]
          refine all.trans ?_
          rw [List.append_assoc, List.append_assoc]
          exact (List.perm_middle.symm).append_left _
    · refine kept ?_
      rw [grants]
      unfold Exec.settleGrant
      dsimp only
      split_ifs with once
      · cases success with
        | none => rfl
        | some value =>
          cases value with
          | true => exact absurd ⟨rfl, once⟩ spends
          | false => exact List.map_modifyFirst_of_eq _ _ _ _ (fun _ _ _ => rfl)
      · rfl
  | _ => cases serving

end Desk

/-- What a store may become by what peers ask for, and by the runs that this starts. -/
structure Store.Confined (Runs : BodyId → String → List String → Prop) (Asks : BodyId → String → Prop)
    (Spent : String → Grant → Prop) (s t : Store) : Prop where
  bodyName : t.bodyName = s.bodyName
  ownerSk : t.ownerSk = s.ownerSk
  peers : t.peers = s.peers
  pinEnabled : t.pinEnabled = s.pinEnabled
  outboundRequests : t.outboundRequests = s.outboundRequests
  requests : Request.Grown Asks s.requests t.requests
  jobs : ∀ j ∈ t.jobs, (∃ i ∈ s.jobs, i.id = j.id) ∨ Runs j.origin j.id j.argv
  grants : t.desk.Spends Spent s.grants

namespace Store.Confined

variable {Runs Runs' : BodyId → String → List String → Prop} {Asks Asks' : BodyId → String → Prop}
  {Spent Spent' : String → Grant → Prop} {s t u : Store} {deed : Deed}

theorem refl (s : Store) : s.Confined Runs Asks Spent s :=
  ⟨rfl, rfl, rfl, rfl, rfl, .refl _, fun j member => .inl ⟨j, member, rfl⟩, Desk.Spends.refl s.desk⟩

theorem mono (confined : s.Confined Runs Asks Spent t)
    (runs : ∀ origin id argv, Runs origin id argv → Runs' origin id argv)
    (asks : ∀ origin tool, Asks origin tool → Asks' origin tool)
    (spent : ∀ id grant, Spent id grant → Spent' id grant) :
    s.Confined Runs' Asks' Spent' t :=
  { confined with
    requests := confined.requests.mono asks
    jobs := fun j member => (confined.jobs j member).imp_right (runs _ _ _)
    grants := confined.grants.mono spent }

theorem stopped (confined : s.Confined Runs Asks Spent t) (fault : Option Fault) :
    s.Confined Runs Asks Spent (t.stoppedBy fault) := by
  cases fault with
  | none => exact confined
  | some fault => exact { confined with }

/-- A deed of one run, with what it adds asked for and what it takes spent. -/
theorem does (confined : s.Confined Runs Asks Spent t) (does : t.Does deed u) (serving : deed.isServing = true)
    (key : u.ownerSk = t.ownerSk) (outbound : u.outboundRequests = t.outboundRequests)
    (enabled : u.pinEnabled = t.pinEnabled) (requests : Request.Grown Asks t.requests u.requests)
    (new : ∀ row, (∃ grant, deed = .accept row grant) ∨ deed = .deny row → Runs row.origin row.id row.argv)
    (held : ∀ row grant, deed = .finish row grant (some true) → grant.once = true →
      Spent row.id grant ∧ t.desk.Reserves row.id grant) : s.Confined Runs Asks Spent u := by
  obtain ⟨allowed, desk⟩ := does
  have named := Desk.name_serving (d := t.desk) serving
  refine ⟨?_, key.trans confined.ownerSk, ?_, enabled.trans confined.pinEnabled,
    outbound.trans confined.outboundRequests, confined.requests.trans requests, fun j member => ?_, ?_⟩
  · exact ((congrArg Desk.name desk).trans named.1).trans confined.bodyName
  · exact ((congrArg Desk.peers desk).trans named.2).trans confined.peers
  · have row : j.row ∈ (t.desk.apply deed).rows := by
      rw [← desk]
      exact List.mem_map_of_mem member
    rcases Desk.mem_rows_serving serving allowed row with ⟨old, there, same, origin, argv⟩ | put
    · obtain ⟨i, present, rfl⟩ := List.mem_map.mp there
      rcases confined.jobs i present with ⟨first, known, equal⟩ | asked
      · exact .inl ⟨first, known, equal.trans same⟩
      · refine .inr ?_
        have origin : i.origin = j.origin := origin
        have same : i.id = j.id := same
        have argv : i.argv = j.argv := argv
        rw [← origin, ← same, ← argv]
        exact asked
    · exact .inr (new j.row put)
  · rw [desk]
    exact confined.grants.apply allowed serving held

end Store.Confined

namespace Daemon

open DurableCell

/-- A run was started under a grant, and its child exited successfully. -/
def Spent (d : Daemon) (id : String) (grant : Grant) : Prop :=
  (∃ start ∈ d.starts, start.run.id = id ∧ start.grant = grant) ∧
    ∃ status, (id, status) ∈ d.exits ∧ status.success = true

/-- What holds of a run from its admission until its slot is released. -/
structure Ongoing (d : Daemon) (task : Task) : Prop where
  running : task.phase ≠ .finished →
    d.store.desk.Running task.run.row ∧ d.store.desk.Reserves task.run.id task.grant
  closed : task.phase = .finished → ∃ row, d.store.desk.row? task.run.id = some row ∧ row.status.isTerminal = true
  tool : task.run.argv.head? = some task.grant.tool
  started : task.phase = .running → ∃ start ∈ d.starts, start.run.id = task.run.id ∧ start.grant = task.grant
  succeeded : ∀ outcome, task.phase = .ended outcome → outcome.success = some true → d.Spent task.run.id task.grant

/-- A machine that serves peers and nothing else, since a store. -/
structure Serves (Accepted : Peer → Prop) (Runs : BodyId → String → List String → Prop)
    (Asks : BodyId → String → Prop) (s : Store) (d : Daemon) : Prop where
  contents : Everywhere (Image.Being (s.Confined Runs Asks d.Spent)) d.cell
  conns : ∀ p ∈ d.conns, Accepted p
  authorized : ∀ x ∈ d.authorized, Accepted x.1 ∧ x.2.invocation.origin = x.1.name
  distinct : (d.tasks.map (·.run.id)).Nodup
  tasks : ∀ task ∈ d.tasks, d.Ongoing task

variable {c : Crypto} {Accepted : Peer → Prop} {Runs : BodyId → String → List String → Prop}
  {Asks : BodyId → String → Prop} {s : Store} {d d' : Daemon} {task : Task} {deed : Deed} {id : String}

theorem Spent.mono {grant : Grant} (spent : d.Spent id grant) (starts : ∀ x ∈ d.starts, x ∈ d'.starts)
    (exits : ∀ x ∈ d.exits, x ∈ d'.exits) : d'.Spent id grant := by
  obtain ⟨⟨start, there, run⟩, status, exited, success⟩ := spent
  exact ⟨⟨start, starts start there, run⟩, status, exits _ exited, success⟩

/-- Other runs go on. -/
theorem Ongoing.spares (ongoing : d.Ongoing task) (allowed : d.store.desk.Allows deed)
    (serving : deed.isServing = true) (spares : deed.Spares task.run.id)
    (desk : d'.store.desk = d.store.desk.apply deed) (starts : d'.starts = d.starts) (exits : d'.exits = d.exits) :
    d'.Ongoing task := by
  refine ⟨fun going => ?_, fun finished => ?_, ongoing.tool, ?_, fun outcome ended success => ?_⟩
  · rw [desk]
    obtain ⟨running, reserves⟩ := ongoing.running going
    exact ⟨running.spares serving spares, reserves.spares serving allowed spares⟩
  · obtain ⟨row, found, terminal⟩ := ongoing.closed finished
    rw [desk]
    exact ⟨row, (Desk.row?_spares serving spares).trans found, terminal⟩
  · rw [starts]
    exact ongoing.started
  · exact (ongoing.succeeded outcome ended success).mono (fun _ member => starts ▸ member)
      (fun _ member => exits ▸ member)

/-- A run goes on while its machine starts and ends others. -/
theorem Ongoing.grow (ongoing : d.Ongoing task) (desk : d'.store.desk = d.store.desk)
    (starts : ∀ x ∈ d.starts, x ∈ d'.starts) (exits : ∀ x ∈ d.exits, x ∈ d'.exits) : d'.Ongoing task := by
  refine ⟨?_, ?_, ongoing.tool, fun running => ?_, fun outcome ended success => ?_⟩
  · rw [desk]
    exact ongoing.running
  · rw [desk]
    exact ongoing.closed
  · obtain ⟨start, there, run⟩ := ongoing.started running
    exact ⟨start, starts start there, run⟩
  · exact (ongoing.succeeded outcome ended success).mono starts exits

theorem Serves.mono {Accepted' : Peer → Prop} {Runs' : BodyId → String → List String → Prop}
    {Asks' : BodyId → String → Prop} (serves : Serves Accepted Runs Asks s d)
    (accepted : ∀ p, Accepted p → Accepted' p) (runs : ∀ origin id argv, Runs origin id argv → Runs' origin id argv)
    (asks : ∀ origin tool, Asks origin tool → Asks' origin tool) : Serves Accepted' Runs' Asks' s d :=
  { serves with
    contents := serves.contents.mono (fun _ confined => confined.mono runs asks (fun _ _ spent => spent))
    conns := fun p member => accepted p (serves.conns p member)
    authorized := fun x member => ⟨accepted _ (serves.authorized x member).1, (serves.authorized x member).2⟩ }

/-- A step that leaves the saved state alone. -/
theorem Serves.idle (serves : Serves Accepted Runs Asks s d) (cell : d'.cell = d.cell)
    (conns : ∀ p ∈ d'.conns, Accepted p)
    (authorized : ∀ x ∈ d'.authorized, Accepted x.1 ∧ x.2.invocation.origin = x.1.name)
    (starts : ∀ x ∈ d.starts, x ∈ d'.starts) (exits : ∀ x ∈ d.exits, x ∈ d'.exits)
    (distinct : (d'.tasks.map (·.run.id)).Nodup)
    (tasks : ∀ task ∈ d'.tasks, task ∈ d.tasks ∨ d'.Ongoing task) : Serves Accepted Runs Asks s d' := by
  have desk : d'.store.desk = d.store.desk := by rw [store, store, cell]
  refine ⟨?_, conns, authorized, distinct, fun task member => ?_⟩
  · rw [cell]
    exact serves.contents.mono (fun _ confined =>
      confined.mono (fun _ _ _ => id) (fun _ _ => id) (fun _ _ spent => spent.mono starts exits))
  · rcases tasks task member with old | ongoing
    · exact (serves.tasks task old).grow desk starts exits
    · exact ongoing

/-- A task under an ID keeps that ID from being started again. -/
theorem Ongoing.not_startable (ongoing : d.Ongoing task) {row : Row} (startable : d.store.desk.Startable row) :
    task.run.id ≠ row.id := by
  intro same
  by_cases finished : task.phase = .finished
  · obtain ⟨old, found, terminal⟩ := ongoing.closed finished
    have queued := (startable.2 old (same ▸ found)).1
    rw [JobStatus.not_isTerminal_of_isLocalQueue queued] at terminal
    cases terminal
  · obtain ⟨⟨old, found, running, -⟩, -⟩ := ongoing.running finished
    have queued := (startable.2 old (same ▸ found)).1
    rw [running] at queued
    cases queued

/-- A save that does a deed of one run. -/
theorem Serves.commit (serves : Serves Accepted Runs Asks s d) {next : Store} (acts : List Act) (fault : Option Fault)
    (confined : s.Confined Runs Asks d.Spent next) (does : d.store.Does deed next) (serving : deed.isServing = true)
    (cell : d'.cell = d.commit ⟨next, acts⟩ fault) (conns : d'.conns = d.conns)
    (authorized : d'.authorized = d.authorized)
    (starts : d'.starts = d.starts) (exits : d'.exits = d.exits) (distinct : (d'.tasks.map (·.run.id)).Nodup)
    (tasks : ∀ task ∈ d'.tasks, (task ∈ d.tasks ∧ deed.Spares task.run.id) ∨ d'.Ongoing task) :
    Serves Accepted Runs Asks s d' := by
  refine ⟨?_, conns ▸ serves.conns, authorized ▸ serves.authorized, distinct, fun task member => ?_⟩
  · have new : Image.Being (s.Confined Runs Asks d.Spent) ⟨next, acts⟩ := confined
    have kept : Image.Being (s.Confined Runs Asks d.Spent) ⟨d.store.stoppedBy fault, d.acts⟩ :=
      Store.Confined.stopped serves.contents.1 fault
    have same : d'.Spent = d.Spent := by
      funext id grant
      rw [Spent, starts, exits, Spent]
    rw [cell, same]
    exact serves.contents.replace new kept _
  · rcases tasks task member with ⟨old, spares⟩ | ongoing
    · have before := serves.tasks task old
      cases fault with
      | none =>
        have desk : d'.store.desk = d.store.desk.apply deed := by
          rw [store, cell]
          exact does.2
        exact before.spares does.1 serving spares desk starts exits
      | some fault =>
        have desk : d'.store.desk = d.store.desk := by
          rw [store, cell, mem_commit_some]
          rfl
        exact before.grow desk (fun _ there => starts ▸ there) (fun _ there => exits ▸ there)
    · exact ongoing

theorem serves_submit (serves : Serves Accepted Runs Asks s d) (env : Env) (requester : Requester) (origin : BodyId)
    (argv : List String) (id : String) (cert : Option Certificate) (runs : Runs origin id argv)
    (asks : Asks origin (argv.headD "")) :
    Serves Accepted Runs Asks s (d.submit c env requester origin argv id cert).1 := by
  unfold submit
  cases checked : Exec.precheck c d.store origin argv id cert with
  | error e => exact serves
  | ok found =>
  cases found with
  | some job => exact serves
  | none =>
  obtain ⟨admissible, -, startable⟩ := Exec.precheck_eq_none checked
  have nonempty := (Limits.invocation_eq_ok admissible).2.1
  dsimp only
  rcases update_cases (d := d) (c := c) env.epochId env.fault
      (Exec.admitEdit c (d.surroundings env) origin argv id cert)
      (fun admitted => (admitted.2.map (Act.admitted id)).toList) with
    ⟨e, same⟩ | ⟨next, ⟨job, granted⟩, staged, same⟩
  · rw [same]
    exact serves
  rw [same]
  obtain ⟨edited, ran, desk, key, requests, outbound, enabled⟩ := Store.stage_requests staged
  obtain ⟨⟨deed, ⟨allowed, done⟩, cases⟩, ownerSk, -⟩ := Exec.admit_does ran startable nonempty
  obtain ⟨named, outbound', enabled', grown⟩ := Exec.admitEdit_adds asks ran
  have serving : deed.isServing = true := by
    rcases cases with ⟨g, -, rfl, -⟩ | ⟨-, rfl⟩ <;> rfl
  have does : d.store.Does deed next := ⟨allowed, desk.trans done⟩
  have asked : Runs job.row.origin job.row.id job.row.argv := by
    change Runs job.origin job.id job.argv
    rw [named.1, named.2.1, named.2.2]
    exact runs
  have confined : s.Confined Runs Asks d.Spent next := by
    refine Store.Confined.does serves.contents.1 does serving (key.trans ownerSk) (outbound.trans outbound')
      (enabled.trans enabled') (requests ▸ grown) (fun row new => ?_) (fun row grant same => ?_)
    · rcases cases with ⟨g, -, rfl, -⟩ | ⟨-, rfl⟩ <;> rcases new with ⟨grant, same⟩ | same <;> cases same <;>
        exact asked
    · rcases cases with ⟨g, -, rfl, -⟩ | ⟨-, rfl⟩ <;> cases same
  have other : ∀ task ∈ d.tasks, id ≠ task.run.id := fun task member =>
    ((serves.tasks task member).not_startable (startable .running)).symm
  have spares : ∀ task ∈ d.tasks, deed.Spares task.run.id := by
    intro task member
    have apart : job.row.id ≠ task.run.id := fun same => other task member (named.1.symm.trans same)
    rcases cases with ⟨g, -, rfl, -⟩ | ⟨-, rfl⟩ <;> exact apart
  cases faulty : env.fault with
  | some fault =>
    exact serves.commit _ (some fault) confined does serving rfl rfl rfl rfl rfl serves.distinct
      (fun task member => .inl ⟨member, spares task member⟩)
  | none =>
    cases granted with
    | none =>
      exact serves.commit d.acts none confined does serving rfl rfl rfl rfl rfl serves.distinct
        (fun task member => .inl ⟨member, spares task member⟩)
    | some grant =>
      obtain ⟨g, equal, rfl, -, rfl, -⟩ : ∃ g, some grant = some g ∧ deed = .accept job.row g ∧ _ ∧ _ ∧ _ :=
        cases.resolve_right (fun none => nomatch none.1)
      obtain rfl : grant = g := Option.some.inj equal
      refine serves.commit (.admitted id grant :: d.acts) none confined does serving rfl rfl rfl rfl rfl ?_
        (fun task member => ?_)
      · change ((d.tasks ++ [_]).map (fun t : Task => t.run.id)).Nodup
        rw [List.map_append, List.nodup_append]
        refine ⟨serves.distinct, List.nodup_singleton _, fun x old y new => ?_⟩
        obtain ⟨task, member, rfl⟩ := List.mem_map.mp old
        obtain rfl := List.mem_singleton.mp new
        exact (other task member).symm
      · rcases List.mem_append.mp member with old | new
        · exact .inl ⟨old, spares task old⟩
        · obtain rfl := List.mem_singleton.mp new
          refine .inr ⟨fun _ => ?_, nofun, allowed.2.2.1, nofun, nofun⟩
          change next.desk.Running _ ∧ next.desk.Reserves _ grant
          rw [does.2]
          exact ⟨⟨_, Desk.row?_putRow_self _ _, rfl, rfl, rfl, rfl, rfl⟩, Desk.reserves_accept allowed⟩

/-- An update that is about no run. -/
theorem serves_quiet {α : Type} (serves : Serves Accepted Runs Asks s d) (env : Env)
    (edit : Store → Result (Store × α))
    (quiet : ∀ t v, edit d.store = .ok (t, v) → t.desk = d.store.desk ∧ t.ownerSk = d.store.ownerSk ∧
      t.outboundRequests = d.store.outboundRequests ∧ t.pinEnabled = d.store.pinEnabled ∧
      Request.Grown Asks d.store.requests t.requests) :
    Serves Accepted Runs Asks s (d.quietUpdate c env edit).1 := by
  unfold quietUpdate
  rcases update_cases (d := d) (c := c) env.epochId env.fault edit (fun _ => []) with
    ⟨e, same⟩ | ⟨next, value, staged, same⟩
  · rw [same]
    exact serves
  · rw [same]
    obtain ⟨edited, ran, desk, key, requests, outbound, enabled⟩ := Store.stage_requests staged
    obtain ⟨desk', key', outbound', enabled', grown⟩ := quiet edited value ran
    have does : d.store.Does .quiet next := Store.does_quiet (desk.trans desk')
    have confined : s.Confined Runs Asks d.Spent next :=
      Store.Confined.does serves.contents.1 does rfl (key.trans key') (outbound.trans outbound')
        (enabled.trans enabled') (requests ▸ grown)
        (fun row new => by rcases new with ⟨_, same⟩ | same <;> cases same)
        (fun row grant same => by cases same)
    exact serves.commit _ _ confined does rfl rfl rfl rfl rfl rfl serves.distinct
      (fun task member => .inl ⟨member, trivial⟩)

/-- The tasks after the phase of one was set: the others, and that one. -/
theorem mem_setPhase (distinct : (d.tasks.map (·.run.id)).Nodup) {old : Task} (found : d.task? id = some old)
    {phase : Phase} (member : task ∈ (d.setPhase id phase).tasks) :
    (task ∈ d.tasks ∧ task.run.id ≠ id) ∨ task = { old with phase := phase } := by
  rcases List.mem_modifyFirst_of_key (fun t : Task => t.run.id) (k := id) (fun t same => by simpa using same)
    distinct member with ⟨there, other⟩ | ⟨b, there, named, rfl⟩
  · exact .inl ⟨there, by simpa using other⟩
  · have same : b = old := List.eq_of_mem_of_key_eq (fun t : Task => t.run.id) distinct there
      (List.mem_of_find?_eq_some found) (by rw [task?_id found]; simpa using named)
    exact .inr (same ▸ rfl)

/-- A step that leaves the saved state alone and moves one run on. -/
theorem Serves.moved (serves : Serves Accepted Runs Asks s d) (found : d.task? id = some task) (phase : Phase)
    (cell : d'.cell = d.cell) (conns : d'.conns = d.conns) (authorized : d'.authorized = d.authorized)
    (tasks : d'.tasks = (d.setPhase id phase).tasks) (starts : ∀ x ∈ d.starts, x ∈ d'.starts)
    (exits : ∀ x ∈ d.exits, x ∈ d'.exits) (ongoing : d'.Ongoing { task with phase := phase }) :
    Serves Accepted Runs Asks s d' := by
  refine serves.idle cell (conns ▸ serves.conns) (authorized ▸ serves.authorized) starts exits ?_ ?_
  · rw [tasks, setPhase_ids]
    exact serves.distinct
  · intro other member
    rcases mem_setPhase serves.distinct found (tasks ▸ member) with ⟨old, -⟩ | rfl
    · exact .inl old
    · exact .inr ongoing

theorem serves_finish (serves : Serves Accepted Runs Asks s d) (env : Env) (id : String) :
    Serves Accepted Runs Asks s (d.finish c env id) := by
  unfold finish
  split
  · next run grant outcome admission found =>
    obtain rfl : run.id = id := task?_id found
    have ongoing := serves.tasks _ (List.mem_of_find?_eq_some found)
    obtain ⟨running, reserves⟩ := ongoing.running nofun
    have tool : run.argv.head? = some grant.tool := ongoing.tool
    unfold quietUpdate
    rcases update_cases (d := d) (c := c) env.epochId env.fault (Exec.finishEdit grant run outcome)
        (fun _ => []) with ⟨e, same⟩ | ⟨next, value, staged, same⟩
    · rw [same]
      exact serves.moved found (.unsaved e) rfl rfl rfl rfl (fun _ there => there) (fun _ there => there)
        ⟨fun _ => ⟨running, reserves⟩, nofun, tool, nofun, nofun⟩
    · rw [same]
      obtain ⟨edited, ran, desk, key, requests, outbound, enabled⟩ := Store.stage_requests staged
      obtain ⟨⟨allowed, done⟩, ownerSk, -⟩ := Exec.finishEdit_does running tool ran
      obtain ⟨requests', outbound', enabled'⟩ := Exec.finishEdit_settings ran
      have does : d.store.Does _ next := ⟨allowed, desk.trans done⟩
      have named : (Exec.finished grant.tool run outcome).row.id = run.id := by rw [Exec.finished_row]; rfl
      have confined : s.Confined Runs Asks d.Spent next := by
        refine Store.Confined.does serves.contents.1 does rfl (key.trans ownerSk) (outbound.trans outbound')
          (enabled.trans enabled') (requests.trans requests' ▸ .refl _) (fun row new => ?_)
          (fun row other same _ => ?_)
        · rcases new with ⟨_, same⟩ | same <;> cases same
        · obtain ⟨rfl, rfl, success⟩ := Deed.finish.inj same
          rw [named]
          exact ⟨ongoing.succeeded outcome rfl success, reserves⟩
      cases faulty : env.fault with
      | none =>
        refine serves.commit d.acts none confined does rfl rfl rfl rfl rfl rfl ?_ (fun task member => ?_)
        · change ((d.setPhase run.id .finished).tasks.map (fun t : Task => t.run.id)).Nodup
          rw [setPhase_ids]
          exact serves.distinct
        · rcases mem_setPhase serves.distinct found member with ⟨old, other⟩ | rfl
          · exact .inl ⟨old, fun same => other (same.symm.trans named)⟩
          · refine .inr ⟨fun going => absurd rfl going, fun _ => ?_, tool, nofun, nofun⟩
            change ∃ row, next.desk.row? run.id = some row ∧ _
            rw [does.2]
            refine ⟨(Exec.finished grant.tool run outcome).row, ?_, Desk.isTerminal_of_isOutcome allowed.2.2⟩
            exact named ▸ Desk.row?_putRow_self d.store.desk _
      | some fault =>
        refine serves.commit d.acts (some fault) confined does rfl rfl rfl rfl rfl rfl ?_ (fun task member => ?_)
        · change ((d.setPhase run.id (.unsaved fault.error)).tasks.map (fun t : Task => t.run.id)).Nodup
          rw [setPhase_ids]
          exact serves.distinct
        · rcases mem_setPhase serves.distinct found member with ⟨old, other⟩ | rfl
          · exact .inl ⟨old, fun same => other (same.symm.trans named)⟩
          · refine .inr ⟨fun _ => ?_, nofun, tool, nofun, nofun⟩
            change Desk.Running (d.commit ⟨next, _⟩ (some fault)).mem.store.desk run.row ∧
              Desk.Reserves (d.commit ⟨next, _⟩ (some fault)).mem.store.desk run.id grant
            rw [mem_commit_some]
            exact ⟨running, reserves⟩
  · exact serves

theorem serves_giveUp (serves : Serves Accepted Runs Asks s d) (id : String) :
    Serves Accepted Runs Asks s (d.giveUp id) := by
  unfold giveUp
  split
  · next run grant e admission found =>
    obtain rfl : run.id = id := task?_id found
    have ongoing := serves.tasks _ (List.mem_of_find?_eq_some found)
    obtain ⟨running, reserves⟩ := ongoing.running nofun
    obtain ⟨old, present, going, body, -, -, own⟩ := running
    have allowed : d.store.desk.Allows (.lose run.id (Exec.unsavedReason e)) :=
      ⟨old, present, going, by rw [body]; exact own⟩
    have does : d.store.Does (.lose run.id (Exec.unsavedReason e))
        (Exec.setStatus d.store run.id (Exec.unsavedStatus e)) :=
      ⟨allowed, Store.desk_setStatus _ _ _⟩
    have confined : s.Confined Runs Asks d.Spent (Exec.setStatus d.store run.id (Exec.unsavedStatus e)) :=
      Store.Confined.does serves.contents.1 does rfl rfl rfl rfl (.refl _)
        (fun row new => by rcases new with ⟨_, same⟩ | same <;> cases same) (fun row grant same => by cases same)
    refine ⟨serves.contents.tweak (fun _ => confined), serves.conns, serves.authorized, ?_, fun task member => ?_⟩
    · change ((d.setPhase run.id .finished).tasks.map (fun t : Task => t.run.id)).Nodup
      rw [setPhase_ids]
      exact serves.distinct
    · rcases mem_setPhase serves.distinct found member with ⟨there, other⟩ | rfl
      · exact (serves.tasks task there).spares does.1 rfl (fun same => other same.symm) does.2 rfl rfl
      · refine ⟨fun going => absurd rfl going, fun _ => ?_, ongoing.tool, nofun, nofun⟩
        change ∃ row, (Exec.setStatus d.store run.id (Exec.unsavedStatus e)).desk.row? run.id = some row ∧ _
        rw [does.2]
        have found : d.store.desk.row? run.id = some old := present
        refine ⟨{ old with status := Exec.unsavedStatus e }, ?_, rfl⟩
        exact (Desk.row?_setStatus_self _ _ _).trans (by rw [found]; rfl)
  · exact serves

theorem serves_release (serves : Serves Accepted Runs Asks s d) (id : String) :
    Serves Accepted Runs Asks s (d.release id) := by
  unfold release
  split
  · exact serves.idle rfl serves.conns serves.authorized (fun _ there => there) (fun _ there => there)
      (serves.distinct.sublist (List.eraseP_sublist.map _)) (fun task member => .inl (List.mem_of_mem_eraseP member))
  · exact serves

theorem serves_exited (serves : Serves Accepted Runs Asks s d) (id : String) (status : Exec.ExitStatus) :
    Serves Accepted Runs Asks s (d.exited id status) := by
  unfold exited
  split_ifs
  · exact serves.idle rfl serves.conns serves.authorized (fun _ there => there) (fun _ => List.mem_cons_of_mem _)
      serves.distinct (fun task member => .inl member)
  · exact serves

theorem serves_launch (serves : Serves Accepted Runs Asks s d) (id : String) (spawnError : Option String) :
    Serves Accepted Runs Asks s (d.launch id spawnError) := by
  unfold launch
  split
  · next run grant admission found =>
    obtain rfl : run.id = id := task?_id found
    have ongoing := serves.tasks _ (List.mem_of_find?_eq_some found)
    have failed (e : String) : Serves Accepted Runs Asks s (d.setPhase run.id (.ended (.notStarted e))) :=
      serves.moved found _ rfl rfl rfl rfl (fun _ there => there) (fun _ there => there)
        ⟨fun _ => ongoing.running nofun, nofun, ongoing.tool, nofun, fun outcome ended success => by
          cases ended
          cases success⟩
    dsimp only
    split
    · exact failed _
    · exact failed _
    · refine serves.moved found .running rfl rfl rfl rfl (fun _ => List.mem_cons_of_mem _) (fun _ there => there)
        ⟨fun _ => ongoing.running nofun, nofun, ongoing.tool, fun _ => ⟨_, List.mem_cons_self, rfl, rfl⟩, nofun⟩
  · exact serves

theorem serves_collect (serves : Serves Accepted Runs Asks s d) (id : String)
    (streams : Except String (Bytes × Bytes)) (waitError : Option String) :
    Serves Accepted Runs Asks s (d.collect id streams waitError) := by
  unfold collect
  split
  · next run grant admission found =>
    obtain rfl : run.id = id := task?_id found
    have ongoing := serves.tasks _ (List.mem_of_find?_eq_some found)
    have ended (outcome : Exec.RunOutcome) (known : outcome.success = some true →
        ∃ status, d.exitOf run.id = some status ∧ status.success = true) :
        Serves Accepted Runs Asks s (d.setPhase run.id (.ended outcome)) := by
      refine serves.moved found _ rfl rfl rfl rfl (fun _ there => there) (fun _ there => there)
        ⟨fun _ => ongoing.running nofun, nofun, ongoing.tool, nofun, fun other same success => ?_⟩
      cases same
      obtain ⟨status, exit, successful⟩ := known success
      obtain ⟨x, first, rfl⟩ := Option.map_eq_some_iff.mp exit
      refine ⟨ongoing.started rfl, x.2, ?_, successful⟩
      have named : x.1 = run.id := by simpa using List.find?_some first
      exact named ▸ List.mem_of_find?_eq_some first
    split
    · exact ended _ nofun
    · next status exit =>
      refine ended _ (fun success => ⟨status, exit, ?_⟩)
      unfold Exec.captured at success
      dsimp only at success
      split at success <;> exact Option.some.inj success
    · exact serves
  · exact serves

theorem serves_accept (serves : Serves Accepted Runs Asks s d) (key : Bytes)
    (accepted : ∀ p ∈ s.peers, p.ownerPk = key → Accepted p) : Serves Accepted Runs Asks s (d.accept c key) := by
  unfold accept
  split_ifs
  · exact serves
  · split
    · exact serves
    · next peer found =>
      have there : peer ∈ d.store.peers := List.mem_of_find?_eq_some found
      have known : d.store.peers = s.peers := serves.contents.1.peers
      have keyed : peer.ownerPk = key := by simpa using List.find?_some found
      refine serves.idle rfl ?_ serves.authorized (fun _ there => there) (fun _ there => there) serves.distinct
        (fun task member => .inl member)
      rw [List.forall_mem_cons]
      exact ⟨accepted peer (known ▸ there) keyed, serves.conns⟩

theorem serves_authorize (serves : Serves Accepted Runs Asks s d) (peer : Peer) (cert : Certificate) :
    Serves Accepted Runs Asks s (d.authorize c peer cert) := by
  unfold authorize
  split_ifs with connected
  · split
    · exact serves
    · next passed =>
      rw [bind_eq_ok] at passed
      obtain ⟨⟨⟩, -, passed⟩ := passed
      refine serves.idle rfl serves.conns ?_ (fun _ there => there) (fun _ there => there) serves.distinct
        (fun task member => .inl member)
      rw [List.forall_mem_cons]
      exact ⟨⟨serves.conns peer connected, (History.authorizeExecution_presents passed).origin⟩, serves.authorized⟩
  · exact serves

theorem serves_runEvent (serves : Serves Accepted Runs Asks s d) (env : Env) (event : RunEvent) :
    Serves Accepted Runs Asks s (d.liveStep c env event.1) := by
  obtain ⟨event, completion⟩ := event
  cases event with
  | launch id spawnError => exact serves_launch serves id spawnError
  | exited id status => exact serves_exited serves id status
  | collect id streams waitError => exact serves_collect serves id streams waitError
  | finish id => exact serves_finish serves env id
  | giveUp id => exact serves_giveUp serves id
  | release id => exact serves_release serves id
  | _ => cases completion

end Daemon

namespace Mesh

open DurableCell

variable {c : Crypto} {s : Store} {n : Node} {env : Surroundings}

/-- A peer of the start proved its key before. -/
def Accepted (s : Store) (events : List (Surroundings × Event)) (peer : Peer) : Prop :=
  peer ∈ s.peers ∧ ∃ e ∈ events, e.2 = .accept peer.ownerPk

/-- Whether an event is the request of a peer to run a command under an ID. -/
def Requests (peer : Peer) (id : String) (argv : List String) (env : Surroundings) : Event → Prop
  | .asked p (.exec args jobId) => p = peer ∧ args = argv ∧ (jobId = some id ∨ jobId = none ∧ env.jobId = .ok id)
  | .certified p cert => p = peer ∧ cert.invocation.argv = argv ∧ cert.invocation.id = id
  | _ => False

/-- Whether an event is about a permission of a peer for a tool. -/
def Wants (peer : Peer) (tool : String) : Event → Prop
  | .asked p (.request t _) => p = peer ∧ t = some tool
  | .asked p (.exec args _) => p = peer ∧ args.headD "" = tool
  | .certified p cert => p = peer ∧ cert.invocation.argv.headD "" = tool
  | _ => False

/-- An accepted peer of this name asked, in the course of these events, to run this. -/
def AskedRun (s : Store) (events : List (Surroundings × Event)) (origin : BodyId) (id : String)
    (argv : List String) : Prop :=
  ∃ before e after peer, events = before ++ e :: after ∧ Accepted s before peer ∧ Requests peer id argv e.1 e.2 ∧
    origin = peer.name

/-- An accepted peer of this name asked for this tool. -/
def AskedTool (s : Store) (events : List (Surroundings × Event)) (origin : BodyId) (tool : String) : Prop :=
  ∃ before e after peer, events = before ++ e :: after ∧ Accepted s before peer ∧ Wants peer tool e.2 ∧
    origin = peer.name

/-- A machine that has served these events since a store. -/
abbrev Served (s : Store) (events : List (Surroundings × Event)) (n : Node) : Prop :=
  n.daemon.Serves (Accepted s events) (AskedRun s events) (AskedTool s events) s

variable {events : List (Surroundings × Event)}

theorem Served.more (served : Served s events n) (e : Surroundings × Event) : Served s (events ++ [e]) n := by
  refine Daemon.Serves.mono served (fun peer => ?_) (fun origin id argv => ?_) (fun origin tool => ?_)
  · rintro ⟨known, first, member, key⟩
    exact ⟨known, first, List.mem_append_left _ member, key⟩
  · rintro ⟨before, first, after, peer, rfl, rest⟩
    exact ⟨before, first, after ++ [e], peer, by simp, rest⟩
  · rintro ⟨before, first, after, peer, rfl, rest⟩
    exact ⟨before, first, after ++ [e], peer, by simp, rest⟩

theorem served_step (served : Served s events n) (e : Surroundings × Event) :
    Served s (events ++ [e]) (n.step c e) := by
  have more := served.more e
  obtain ⟨env, event⟩ := e
  cases event with
  | accept key =>
    exact Daemon.serves_accept more key (fun p known same =>
      ⟨known, (env, .accept key), List.mem_append_right _ List.mem_cons_self, by rw [same]⟩)
  | run event => exact Daemon.serves_runEvent more env.toEnv event
  | certified peer cert =>
    unfold Node.step
    dsimp only
    split_ifs with authorized
    · obtain ⟨accepted, origin⟩ := served.authorized _ authorized
      unfold Node.submitCertified
      dsimp only
      split_ifs
      · exact more
      · refine Daemon.serves_submit more env.toEnv _ _ _ _ _ ?_ ?_
        · exact ⟨events, _, [], peer, rfl, accepted, ⟨rfl, rfl, rfl⟩, origin⟩
        · exact ⟨events, _, [], peer, rfl, accepted, ⟨rfl, rfl⟩, origin⟩
    · exact more
  | asked peer op =>
    unfold Node.step
    dsimp only
    split_ifs with connected
    · have accepted := served.conns peer connected
      cases op with
      | execV2 cert => exact Daemon.serves_authorize more peer cert
      | jobGetV2 cert => exact more
      | historyPage epoch after high => exact more
      | exec argv jobId =>
        change Served s _ (n.submit c env peer argv jobId).1
        unfold Node.submit
        split
        · exact more
        next id made =>
        rw [bind_eq_ok] at made
        obtain ⟨drawn, fresh, made⟩ := made
        rw [bind_eq_ok] at made
        obtain ⟨⟨⟩, -, made⟩ := made
        cases made
        split_ifs
        · exact more
        refine Daemon.serves_submit more env.toEnv _ _ _ _ _ ?_ ?_
        · refine ⟨events, _, [], peer, rfl, accepted, ⟨rfl, rfl, ?_⟩, rfl⟩
          cases jobId with
          | none => exact .inr ⟨rfl, fresh⟩
          | some id => exact .inl rfl
        · exact ⟨events, _, [], peer, rfl, accepted, ⟨rfl, rfl⟩, rfl⟩
      | jobGet jobId => cases jobId <;> exact more
      | request tool requestId =>
        change Served s _ (n.dispatch c env peer (.request tool requestId)).1
        unfold Node.dispatch
        dsimp only
        split
        · exact more
        next named given =>
        have same : tool = some named := (Option.filter_eq_some_iff.mp given).1
        refine Daemon.serves_quiet more env.toEnv _ (fun t v ran => ?_)
        obtain ⟨desk, key, -⟩ := Request.receive_desk ran
        have asked : AskedTool s (events ++ [(env, .asked peer (.request tool requestId))]) peer.name named :=
          ⟨events, (env, .asked peer (.request tool requestId)), [], peer, rfl, accepted, ⟨rfl, same⟩, rfl⟩
        obtain ⟨frame, grown⟩ := Request.receive_grown asked ran
        refine ⟨desk, key, ?_, ?_, grown⟩ <;>
        · rw [frame]
      | pin request =>
        cases request with
        | commit manifest =>
          change Served s _ (n.commitPin c env peer manifest).1
          unfold Node.commitPin
          split
          · exact more
          · refine Daemon.serves_quiet more env.toEnv _ (fun t v ran => ?_)
            cases ran
            exact ⟨rfl, rfl, rfl, rfl, .refl _⟩
        | _ => exact more
      | malformed e => exact more
      | other op => exact more
    · exact more

theorem served_run (s : Store) (root : String) (tree : Pin.Tree) (events : List (Surroundings × Event)) :
    Served s events ((Node.serving s root tree).run c events) := by
  induction events using List.reverseRecOn with
  | nil =>
    have start : s.Confined (AskedRun s []) (AskedTool s []) (Node.serving s root tree).daemon.Spent s := .refl s
    exact ⟨⟨start, start, nofun⟩, fun _ member => absurd member List.not_mem_nil,
      fun _ member => absurd member List.not_mem_nil, List.nodup_nil, fun _ member => absurd member List.not_mem_nil⟩
  | append_singleton events e ih =>
    rw [Node.run, List.foldl_append]
    exact served_step ih e

/-- Peers, and the runs they start, leave everything that this machine decides. -/
theorem confined (c : Crypto) (s : Store) (root : String) (tree : Pin.Tree) (events : List (Surroundings × Event)) :
    let served := (Node.serving s root tree).run c events
    Everywhere (Image.Being (s.Confined (AskedRun s events) (AskedTool s events) served.daemon.Spent))
      served.daemon.cell :=
  (served_run s root tree events).contents

end Mesh

end Clix
