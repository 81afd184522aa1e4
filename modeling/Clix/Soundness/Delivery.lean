import Clix.Proofs.Mail
import Clix.Soundness.Identity

/-! # Each request is put to the owner once

A machine remembers every delivery it has answered. A delivery that arrives again changes nothing about requests,
whatever became of the request in between, and one for another tool is refused. The sender forgets a request only
after the machine it is for has durably recorded its delivery.
-/

namespace Clix

open Except DurableCell

/-- Deliveries are recorded once. -/
def Mail.Recorded (m : Mail) : Prop := (m.receipts.map RequestReceipt.delivery).Nodup

namespace Mail.Follows

variable {newId : Result String} {settled : Option String} {m n : Mail}

theorem recorded (follows : m.Follows newId settled n) (recorded : m.Recorded) : n.Recorded := by
  obtain ⟨added, same, rfl | ⟨x, rfl, absent⟩⟩ := follows.receipts
  · rw [List.append_nil] at same
    rw [Recorded, same]
    exact recorded
  · rw [Recorded, same, List.map_append, List.map_singleton]
    exact List.nodup_append.mpr ⟨recorded, List.nodup_singleton _,
      fun a there b here same => absent (List.mem_singleton.mp here ▸ same ▸ there)⟩

theorem receipt (follows : m.Follows newId settled n) {receipt : RequestReceipt} (member : receipt ∈ m.receipts) :
    receipt ∈ n.receipts := by
  obtain ⟨added, same, -⟩ := follows.receipts
  rw [same]
  exact List.mem_append_left _ member

theorem outgoing (follows : m.Follows newId settled n) {slot : String × BodyId × String}
    (other : settled ≠ some slot.1) (member : slot ∈ m.outbound.map OutboundRequest.slot) :
    slot ∈ n.outbound.map OutboundRequest.slot := by
  obtain ⟨row, there, rfl⟩ := List.mem_map.mp member
  exact (follows.kept row there).resolve_right other

end Mail.Follows

namespace Daemon

variable {c : Crypto} {d : Daemon} {epoch hostname : String} {seed : Bytes} {e : Env × Event}

/-- A receipt in memory is on disk, and deliveries are recorded once. -/
structure Receipts (d : Daemon) : Prop where
  recorded : Everywhere (fun i => i.store.mail.Recorded) d.cell
  durable : ∀ receipt, Durable (fun i => receipt ∈ i.store.mail.receipts) d.cell

theorem Receipts.step (receipts : d.Receipts) (e : Env × Event) : (d.step c e).Receipts where
  recorded := everywhere_kept (fun _ _ follows => follows.recorded) receipts.recorded (moves_step d e)
  durable receipt := durable_moves (fun _ _ follows => follows.receipt) (receipts.durable receipt) (moves_step d e)

theorem receipts_fresh (epoch hostname : String) (seed : Bytes) : (fresh c epoch hostname seed).Receipts := by
  have unsent := everywhere_unsent c epoch hostname seed
  constructor
  · refine unsent.mono (fun i none => ?_)
    rw [show i.store.mail = .none from none]
    exact List.nodup_nil
  · intro receipt member
    rw [show (fresh c epoch hostname seed).cell.mem.store.mail = .none from unsent.1] at member
    cases member

theorem receipts_run (receipts : d.Receipts) (events : List (Env × Event)) : (d.run c events).Receipts := by
  induction events generalizing d with
  | nil => exact receipts
  | cons e rest ih => exact ih (receipts.step e)

/-- A delivery that has a receipt stays recorded, in everything. -/
theorem everywhere_receipt {receipt : RequestReceipt}
    (there : Everywhere (fun i => receipt ∈ i.store.mail.receipts) d.cell) (events : List (Env × Event)) :
    Everywhere (fun i => receipt ∈ i.store.mail.receipts) (d.run c events).cell := by
  induction events generalizing d with
  | nil => exact there
  | cons e rest ih => exact ih (everywhere_kept (fun _ _ follows => follows.receipt) there (moves_step d e))

/-- Memory holds the same requests, and so does everything that may be found, as something that was there before. -/
def SameMail (d d' : Daemon) : Prop :=
  d'.store.mail = d.store.mail ∧ Everywhere (fun i => ∃ old, d.cell.Among old ∧ i.store.mail = old.store.mail) d'.cell

theorem SameMail.refl (d : Daemon) : SameMail d d := ⟨rfl, everywhere_iff.mpr fun x here => ⟨x, here, rfl⟩⟩

theorem SameMail.commit {next : Store} {acts : List Act} (same : next.mail = d.store.mail) (fault : Option Fault) :
    SameMail d { d with cell := d.commit ⟨next, acts⟩ fault } := by
  have old : Everywhere (fun i => ∃ old, d.cell.Among old ∧ i.store.mail = old.store.mail) d.cell := (SameMail.refl d).2
  refine ⟨?_, old.replace ⟨d.cell.mem, .inl rfl, same⟩ ⟨d.cell.mem, .inl rfl, ?_⟩ _⟩
  · cases fault with
    | none => exact same
    | some f =>
      obtain ⟨call, error⟩ := f
      cases call <;> rfl
  · cases fault <;> rfl

variable {env : Env} {peer : Peer} {tool id : String}

theorem receive_cases (d : Daemon) (env : Env) (peer : Peer) (tool id : String) :
    (∃ e, d.receive c env peer tool id = (d, .error e)) ∨
      ∃ t r next, Request.receive env.newId d.store peer.name tool (some id) = .ok (t, r) ∧ next.mail = t.mail ∧
        d.receive c env peer tool id =
          ({ d with cell := d.commit ⟨next, d.acts⟩ env.fault }, saveResult env.fault r) := by
  unfold receive quietUpdate
  rcases update_cases (d := d) (c := c) env.epochId env.fault
      (fun s => Request.receive env.newId s peer.name tool (some id)) (fun _ => []) with
    ⟨e, same⟩ | ⟨next, r, staged, same⟩
  · exact .inl ⟨e, same⟩
  · obtain ⟨t, ran, mail⟩ := Store.stage_mail staged
    exact .inr ⟨t, r, next, ran, mail, same⟩

/-- A delivery is handled on a connection of a machine that runs. -/
theorem step_request (d : Daemon) (env : Env) (peer : Peer) (tool id : String) :
    d.step c (env, .request peer tool (some id)) =
      if d.live = true ∧ peer ∈ d.conns then (d.receive c env peer tool id).1 else d := by
  unfold step
  by_cases live : d.live = true
  · rw [if_pos live]
    by_cases connected : peer ∈ d.conns
    · rw [if_pos ⟨live, connected⟩]
      change (if peer ∉ d.conns then d else (d.receive c env peer tool id).1) = _
      rw [if_neg (not_not.mpr connected)]
    · rw [if_neg (fun both => connected both.2)]
      change (if peer ∉ d.conns then d else (d.receive c env peer tool id).1) = _
      rw [if_pos connected]
  · rw [if_neg live, if_neg (fun both => live both.1)]

/-- A delivery changes something only when it had no receipt, and whatever it changes has one. -/
theorem receive_once (d : Daemon) (env : Env) (peer : Peer) (tool id : String) :
    SameMail d (d.receive c env peer tool id).1 ∨
      (peer.name, id) ∉ d.store.mail.receipts.map RequestReceipt.delivery ∧
        Everywhere (fun i => (∃ old, d.cell.Among old ∧ i.store.mail = old.store.mail) ∨
          ∃ receipt ∈ i.store.mail.receipts, receipt.delivery = (peer.name, id))
          (d.receive c env peer tool id).1.cell := by
  rcases receive_cases (c := c) d env peer tool id with ⟨e, same⟩ | ⟨t, r, next, ran, mail, same⟩
  · rw [same]
    exact .inl (.refl d)
  · rw [same]
    obtain ⟨sender, -, ⟨rfl, -⟩ | ⟨absent, u, -, rfl⟩⟩ := Request.receive_mail ran
    · exact .inl (.commit mail _)
    · have receipts : next.mail.receipts = u.requestReceipts ++ [⟨id, r⟩] := congrArg Mail.receipts mail
      refine .inr ⟨absent, ?_⟩
      have old : Everywhere _ d.cell := (SameMail.refl d).2
      refine Everywhere.replace (old.mono (fun _ here => .inl here)) (.inr ⟨⟨id, r⟩, ?_, ?_⟩)
        (.inl ⟨d.cell.mem, .inl rfl, ?_⟩) _
      · exact receipts.symm ▸ List.mem_append_right _ (List.mem_singleton_self _)
      · exact congrArg (·, id) sender
      · cases env.fault <;> rfl

/-- A delivery that has a receipt changes nothing; one for another tool is refused. -/
theorem receive_again (recorded : d.store.mail.Recorded) {receipt : RequestReceipt}
    (there : receipt ∈ d.store.mail.receipts) (sender : receipt.request.origin = peer.name) :
    SameMail d (d.receive c env peer tool receipt.deliveryId).1 ∧
      (tool ≠ receipt.request.tool → ∀ r, (d.receive c env peer tool receipt.deliveryId).2 ≠ .ok r) := by
  rcases receive_cases (c := c) d env peer tool receipt.deliveryId with ⟨e, same⟩ | ⟨t, r, next, ran, mail, same⟩
  · rw [same]
    exact ⟨.refl d, fun _ => nofun⟩
  · rw [same]
    obtain ⟨from', named, ⟨rfl, member⟩ | ⟨absent, -⟩⟩ := Request.receive_mail ran
    · refine ⟨.commit mail _, fun other => absurd ?_ other⟩
      have one : (⟨receipt.deliveryId, r⟩ : RequestReceipt) = receipt :=
        List.inj_on_of_nodup_map recorded member there (congrArg (·, receipt.deliveryId) (from'.trans sender.symm))
      rw [← one]
      exact named.symm
    · refine absurd ?_ absent
      exact sender ▸ List.mem_map_of_mem (f := RequestReceipt.delivery) there

/-- An answered delivery is recorded in everything. -/
theorem receive_answered {r : Request} (answered : (d.receive c env peer tool id).2 = .ok r) :
    r.origin = peer.name ∧ r.tool = tool ∧
      Everywhere (fun i => (⟨id, r⟩ : RequestReceipt) ∈ i.store.mail.receipts) (d.receive c env peer tool id).1.cell := by
  rcases receive_cases (c := c) d env peer tool id with ⟨e, same⟩ | ⟨t, made, next, ran, mail, same⟩
  · rw [same] at answered
    cases answered
  · rw [same] at answered ⊢
    cases fault : env.fault with
    | some f =>
      rw [fault] at answered
      cases answered
    | none =>
      rw [fault] at answered
      obtain rfl : made = r := Except.ok.inj answered
      obtain ⟨sender, named, cases⟩ := Request.receive_mail ran
      have there : (⟨id, made⟩ : RequestReceipt) ∈ next.mail.receipts := by
        rw [mail]
        rcases cases with ⟨rfl, member⟩ | ⟨-, u, -, rfl⟩
        · exact member
        · exact List.mem_append_right _ (List.mem_singleton_self _)
      exact ⟨sender, named, there, there, nofun⟩

end Daemon

/-! ### Both ends -/

/-- The random identifier that the sender may draw in a move. -/
def Move.draws : Move → Option String
  | .send env _ | .settle env _ _ => env.newId.toOption
  | _ => none

/-- One event sends at most one request. -/
theorem Daemon.moves_sent {e : Env × Event} {cell cell' : DurableCell Image} (moves : Moves e cell cell') :
    ∃ added : List OutboundRequest, (added = [] ∨ ∃ r, added = [r] ∧ e.1.newId = .ok r.id) ∧
      Everywhere (fun i => ∀ slot ∈ i.store.mail.outbound.map OutboundRequest.slot,
        (∃ old, cell.Among old ∧ slot ∈ old.store.mail.outbound.map OutboundRequest.slot) ∨
          slot ∈ added.map OutboundRequest.slot) cell' := by
  rcases moves with calms | ⟨next, stopped, outcome, follows, kept, rfl⟩
  · refine ⟨[], .inl rfl, (everywhere_calms calms).mono (fun i like slot member => .inl ?_)⟩
    obtain ⟨old, here, mail, -⟩ := like
    exact ⟨old, here, mail ▸ member⟩
  · obtain ⟨added, few, sent⟩ := follows.mail.sent
    refine ⟨added, few, Everywhere.replace ?_ ?_ ?_ outcome⟩
    · exact everywhere_iff.mpr fun x here slot member => .inl ⟨x, here, member⟩
    · intro slot member
      have there := sent member
      rw [List.map_append, List.mem_append] at there
      exact there.imp_left (fun old => ⟨cell.mem, .inl rfl, old⟩)
    · exact fun slot member => .inl ⟨cell.mem, .inl rfl, kept.1 ▸ member⟩

namespace Exchange

variable {c : Crypto} {receiverKey : Bytes} {x : Exchange} {move : Move} {slot : String × BodyId × String}
  {drawn : List String}

/-- An outgoing request that the sender has, may find again, or has taken up. -/
def Known (x : Exchange) (slot : String × BodyId × String) : Prop :=
  (∃ i, x.sender.cell.Among i ∧ slot ∈ i.store.mail.outbound.map OutboundRequest.slot) ∨
    slot ∈ x.picked.map OutboundRequest.slot ∨ slot ∈ x.calls.map (fun call => call.row.slot)

/-- Some call for an outgoing request was answered, unless it went to another machine than the receiver. -/
def Settled (receiverKey : Bytes) (x : Exchange) (slot : String × BodyId × String) : Prop :=
  ∃ call ∈ x.calls, call.row.slot = slot ∧ (call.peer.ownerPk = receiverKey → call ∈ x.acks)

/-- The receiver has durably recorded the delivery of a call, under the name it paired the caller's key with. -/
def Delivered (x : Exchange) (call : Call) : Prop :=
  ∃ peer, peer.ownerPk = call.key ∧ x.receiver.store.desk.Knows peer ∧ ∃ r : Request, r.origin = peer.name ∧
    r.tool = call.row.tool ∧
    Everywhere (fun i => (⟨call.row.id, r⟩ : RequestReceipt) ∈ i.store.mail.receipts) x.receiver.cell

/-- What holds between the machines at any time: identifiers tell outgoing requests apart; one that is in memory is on
disk until it is settled; calls go to the machine a request is for; and what was answered is recorded. -/
structure Inv (c : Crypto) (receiverKey : Bytes) (drawn : List String) (x : Exchange) : Prop where
  apart : ∀ a b, x.Known a → x.Known b → a.1 = b.1 → a = b
  drawn : ∀ a, x.Known a → a.1 ∈ drawn
  durable : ∀ slot, x.Settled receiverKey slot ∨
    Durable (fun i => slot ∈ i.store.mail.outbound.map OutboundRequest.slot) x.sender.cell
  calls : ∀ call ∈ x.calls, call.peer.name = call.row.body
  receiver : Daemon.Inv c x.receiver
  paired : ∀ p, Durable (Daemon.Image.On (·.Knows p)) x.receiver.cell
  acks : ∀ call ∈ x.acks, x.Delivered call

/-- A change between the machines that neither of them notices. -/
theorem Inv.known (inv : x.Inv c receiverKey drawn) {y : Exchange} (sender : y.sender = x.sender)
    (receiver : y.receiver = x.receiver) (acks : y.acks = x.acks) (known : ∀ slot, y.Known slot → x.Known slot)
    (grown : x.calls ⊆ y.calls) (calls : ∀ call ∈ y.calls, call.peer.name = call.row.body) :
    y.Inv c receiverKey drawn where
  apart a b one two := inv.apart a b (known a one) (known b two)
  drawn a one := inv.drawn a (known a one)
  durable slot := by
    rcases inv.durable slot with ⟨call, there, same, answered⟩ | durable
    · exact .inl ⟨call, grown there, same, acks ▸ answered⟩
    · exact .inr (sender ▸ durable)
  calls := calls
  receiver := receiver ▸ inv.receiver
  paired := receiver ▸ inv.paired
  acks call there := by
    obtain ⟨peer, key, knows, r, from', tool, recorded⟩ := inv.acks call (acks ▸ there)
    exact ⟨peer, key, receiver ▸ knows, r, from', tool, receiver ▸ recorded⟩

/-- The receiver takes a step. -/
theorem Inv.receive (inv : x.Inv c receiverKey drawn) (e : Env × Event) :
    Inv c receiverKey drawn { x with receiver := x.receiver.step c e } where
  apart := inv.apart
  drawn := inv.drawn
  durable := inv.durable
  calls := inv.calls
  receiver := Daemon.inv_step inv.receiver e
  paired p := Daemon.knows_durable_step inv.receiver e p (inv.paired p)
  acks call there := by
    obtain ⟨peer, key, knows, r, from', tool, recorded⟩ := inv.acks call there
    exact ⟨peer, key, Daemon.knows_step inv.receiver e (inv.paired peer) knows, r, from', tool,
      Daemon.everywhere_kept (fun _ _ follows => follows.receipt) recorded (Daemon.moves_step _ e)⟩

/-- The sender takes a step, and settles answered calls only. -/
theorem Inv.send (inv : x.Inv c receiverKey drawn) (e : Env × Event)
    (fresh : ∀ id, e.1.newId = .ok id → id ∉ drawn)
    (answered : ∀ id, e.2.settles = some id → ∃ call ∈ x.calls, call.row.id = id ∧
      (call.peer.ownerPk = receiverKey → call ∈ x.acks)) :
    Inv c receiverKey (drawn ++ e.1.newId.toOption.toList) { x with sender := x.sender.step c e } := by
  have moves : Daemon.Moves e _ _ := Daemon.moves_step (c := c) x.sender e
  obtain ⟨added, few, sent⟩ := Daemon.moves_sent moves
  have known : ∀ slot, Known { x with sender := x.sender.step c e } slot →
      x.Known slot ∨ slot ∈ added.map OutboundRequest.slot := by
    rintro slot (⟨i, here, member⟩ | rest)
    · exact (everywhere_iff.mp sent i here slot member).imp_left .inl
    · exact .inl (.inr rest)
  have new : ∀ slot ∈ added.map OutboundRequest.slot, added.map OutboundRequest.slot = [slot] ∧
      e.1.newId = .ok slot.1 := by
    intro slot member
    rcases few with rfl | ⟨r, rfl, draws⟩
    · cases member
    · obtain rfl := List.mem_singleton.mp member
      exact ⟨rfl, draws⟩
  have apart : ∀ a b, Known { x with sender := x.sender.step c e } a → Known { x with sender := x.sender.step c e } b →
      a.1 = b.1 → a = b := by
    intro a b one two same
    rcases known a one with old | made <;> rcases known b two with old' | made'
    · exact inv.apart a b old old' same
    · exact absurd (same ▸ inv.drawn a old) (fresh _ (new b made').2)
    · exact absurd (same ▸ inv.drawn b old') (fresh _ (new a made).2)
    · rw [(new b made').1] at made
      exact List.mem_singleton.mp made
  refine ⟨apart, fun a one => ?_, fun slot => ?_, inv.calls, inv.receiver, inv.paired, inv.acks⟩
  · rcases known a one with old | made
    · exact List.mem_append_left _ (inv.drawn a old)
    · rw [(new a made).2]
      exact List.mem_append_right _ (List.mem_singleton_self _)
  · rcases inv.durable slot with settled | durable
    · exact .inl settled
    by_cases same : e.2.settles = some slot.1
    · obtain ⟨call, there, named, acked⟩ := answered _ same
      by_cases member : slot ∈ (x.sender.step c e).cell.mem.store.mail.outbound.map OutboundRequest.slot
      · refine .inl ⟨call, there, ?_, acked⟩
        exact apart _ _ (.inr (.inr (List.mem_map_of_mem there))) (.inl ⟨_, .inl rfl, member⟩) named
      · exact .inr (fun here => absurd here member)
    · exact .inr (Daemon.durable_moves (fun _ _ follows => follows.outgoing same) durable moves)

theorem inv_arrive (inv : x.Inv c receiverKey drawn) (env : Env) (call : Call) (peer : Peer) :
    (x.arrive c receiverKey env call peer).Inv c receiverKey drawn := by
  unfold arrive
  split_ifs with skipped
  · exact inv
  simp only [not_or, not_not, Bool.not_eq_false] at skipped
  obtain ⟨made, -, live, connected, key⟩ := skipped
  have stepped := Daemon.step_request (c := c) x.receiver env peer call.row.tool call.row.id
  rw [if_pos ⟨live, connected⟩] at stepped
  have after := inv.receive (env, .request peer call.row.tool (some call.row.id))
  have knows : x.receiver.store.desk.Knows peer := (inv.receiver.live live).conns peer connected
  have still := Daemon.knows_step inv.receiver (env, .request peer call.row.tool (some call.row.id)) (inv.paired peer) knows
  rw [stepped] at after still
  cases answered : x.receiver.receive c env peer call.row.tool call.row.id with
  | mk receiver result =>
    rw [answered] at after still
    cases result with
    | error e => exact after
    | ok r =>
      have recorded := Daemon.receive_answered (congrArg Prod.snd answered)
      rw [answered] at recorded
      refine ⟨after.apart, after.drawn, fun slot => ?_, after.calls, after.receiver, after.paired, fun other there => ?_⟩
      · refine (after.durable slot).imp_left (fun settled => ?_)
        obtain ⟨other, there, same, acked⟩ := settled
        exact ⟨other, there, same, fun here => List.mem_cons_of_mem _ (acked here)⟩
      · rcases List.mem_cons.mp there with rfl | old
        · exact ⟨peer, key, still, r, recorded⟩
        · exact after.acks other old

theorem inv_settle (inv : x.Inv c receiverKey drawn) (env : Env) (call : Call) (result : Result Unit)
    (fresh : ∀ id, env.newId = .ok id → id ∉ drawn) :
    (x.settle c receiverKey env call result).Inv c receiverKey (drawn ++ env.newId.toOption.toList) := by
  unfold settle
  split_ifs with skipped
  · exact { inv with drawn := fun a one => List.mem_append_left _ (inv.drawn a one) }
  · rw [not_or, not_not] at skipped
    refine inv.send (env, .settleRequest call.row.id result) fresh (fun id same => ⟨call, skipped.1, ?_, fun key => ?_⟩)
    · cases result with
      | ok _ => exact Option.some.inj same
      | error e => cases same
    · cases result with
      | ok _ => exact not_not.mp (fun absent => skipped.2 ⟨rfl, key, absent⟩)
      | error e => cases same

theorem inv_step (inv : x.Inv c receiverKey drawn) (move : Move) (fresh : ∀ id, move.draws = some id → id ∉ drawn) :
    (x.step c receiverKey move).Inv c receiverKey (drawn ++ move.draws.toList) := by
  have draws : ∀ env : Env, (∀ id, env.newId.toOption = some id → id ∉ drawn) → ∀ id, env.newId = .ok id → id ∉ drawn := by
    intro env apart id same
    exact apart id (by rw [same]; rfl)
  cases move with
  | send env event =>
    dsimp only [step]
    split_ifs with quiet
    · exact inv.send (env, event) (draws env fresh) (fun id same => by rw [quiet] at same; cases same)
    · exact { inv with drawn := fun a one => List.mem_append_left _ (inv.drawn a one) }
  | receive env event =>
    change Inv c receiverKey (drawn ++ []) { x with receiver := x.receiver.step c (env, event) }
    rw [List.append_nil]
    exact inv.receive (env, event)
  | pick id =>
    change Inv c receiverKey (drawn ++ []) (x.pick id)
    rw [List.append_nil, pick]
    split
    · exact inv
    · next row found =>
      refine inv.known rfl rfl rfl (fun slot known => ?_) (List.Subset.refl _) inv.calls
      rcases known with here | picked | called
      · exact .inl here
      · rcases List.mem_cons.mp picked with rfl | old
        · exact .inl ⟨_, .inl rfl, List.mem_map_of_mem (List.mem_of_find?_eq_some found)⟩
        · exact .inr (.inl old)
      · exact .inr (.inr called)
  | call row =>
    change Inv c receiverKey (drawn ++ []) (x.call c row)
    rw [List.append_nil, call]
    split_ifs with skipped
    · exact inv
    rw [not_or, not_not] at skipped
    split
    · next peer key writable found own =>
      refine inv.known rfl rfl rfl (fun slot known => ?_) (List.subset_cons_self _ _) (fun other there => ?_)
      · rcases known with here | picked | called
        · exact .inl here
        · exact .inr (.inl picked)
        · rcases List.mem_cons.mp called with rfl | old
          · exact .inr (.inl (List.mem_map_of_mem skipped.1))
          · exact .inr (.inr old)
      · rcases List.mem_cons.mp there with rfl | old
        · simpa using List.find?_some found
        · exact inv.calls other old
    · exact inv
  | arrive env call peer =>
    change Inv c receiverKey (drawn ++ []) (x.arrive c receiverKey env call peer)
    rw [List.append_nil]
    exact inv_arrive inv env call peer
  | settle env call result => exact inv_settle inv env call result (draws env fresh)

theorem inv_run (inv : x.Inv c receiverKey drawn) (moves : List Move)
    (fresh : (drawn ++ moves.filterMap Move.draws).Nodup) :
    (x.run c receiverKey moves).Inv c receiverKey (drawn ++ moves.filterMap Move.draws) := by
  induction moves generalizing x drawn with
  | nil =>
    rw [List.filterMap_nil, List.append_nil]
    exact inv
  | cons move rest ih =>
    have split : (move :: rest).filterMap Move.draws = move.draws.toList ++ rest.filterMap Move.draws := by
      cases drew : move.draws <;> simp [drew]
    rw [split, ← List.append_assoc] at fresh ⊢
    refine ih (inv_step inv move (fun id drew there => ?_)) fresh
    have apart := (List.nodup_append.mp (List.nodup_append.mp fresh).1).2.2
    exact apart id there id (by rw [drew]; exact List.mem_singleton_self id) rfl

theorem inv_between (sender receiver epoch hostname : String) (seed seed' : Bytes) :
    (between (Daemon.fresh c epoch sender seed) (Daemon.fresh c hostname receiver seed')).Inv c receiverKey [] := by
  have unsent := Daemon.everywhere_unsent c epoch sender seed
  have unknown : ∀ slot, ¬Known (between (Daemon.fresh c epoch sender seed) (Daemon.fresh c hostname receiver seed')) slot := by
    rintro slot (⟨i, here, member⟩ | picked | called)
    · rw [show i.store.mail = .none from everywhere_iff.mp unsent i here] at member
      cases member
    · cases picked
    · cases called
  refine ⟨fun a _ one => absurd one (unknown a), fun a one => absurd one (unknown a), fun slot => .inr fun member => ?_,
    nofun, Daemon.inv_fresh hostname receiver seed', fun p known => ?_, nofun⟩
  · exact absurd (.inl ⟨_, .inl rfl, member⟩) (unknown slot)
  · obtain ⟨q, there, -⟩ := known
    have unpaired : (Daemon.fresh c hostname receiver seed').store.desk.peers = [] :=
      congrArg Desk.peers (Daemon.desk_first c hostname receiver seed')
    exact absurd (unpaired ▸ there : q ∈ ([] : List Peer)) List.not_mem_nil

/-- An outgoing request leaves memory only when it is settled. -/
theorem settles_of_leaves (inv : x.Inv c receiverKey drawn) (e : Env × Event)
    (there : slot ∈ x.sender.store.mail.outbound.map OutboundRequest.slot)
    (left : slot ∉ (x.sender.step c e).store.mail.outbound.map OutboundRequest.slot) :
    x.Settled receiverKey slot ∨ e.2.settles = some slot.1 := by
  rw [or_iff_not_imp_right]
  intro other
  refine (inv.durable slot).resolve_right (fun durable => left ?_)
  have here : Everywhere (fun i => slot ∈ i.store.mail.outbound.map OutboundRequest.slot) x.sender.cell :=
    ⟨there, durable there⟩
  exact (Daemon.everywhere_kept (fun _ _ follows => follows.outgoing other) here (Daemon.moves_step _ e)).1

/-- An outgoing request leaves memory only after the receiver has durably recorded its delivery. -/
theorem delivered_of_leaves (inv : x.Inv c receiverKey drawn) (move : Move)
    (there : slot ∈ x.sender.store.mail.outbound.map OutboundRequest.slot)
    (left : slot ∉ (x.step c receiverKey move).sender.store.mail.outbound.map OutboundRequest.slot) :
    ∃ call, call.row.slot = slot ∧ call.peer.name = call.row.body ∧
      (call.peer.ownerPk = receiverKey → x.Delivered call) := by
  have settled : x.Settled receiverKey slot := by
    cases move with
    | send env event =>
      dsimp only [step] at left
      split_ifs at left with quiet
      · refine (settles_of_leaves inv (env, event) there left).resolve_right (fun same => ?_)
        rw [quiet] at same
        cases same
      · exact absurd there left
    | receive env event => exact absurd there left
    | pick id =>
      change slot ∉ (x.pick id).sender.store.mail.outbound.map OutboundRequest.slot at left
      unfold pick at left
      split at left <;> exact absurd there left
    | call row =>
      change slot ∉ (x.call c row).sender.store.mail.outbound.map OutboundRequest.slot at left
      unfold call at left
      split at left
      · exact absurd there left
      · split at left <;> exact absurd there left
    | arrive env call peer =>
      change slot ∉ (x.arrive c receiverKey env call peer).sender.store.mail.outbound.map OutboundRequest.slot at left
      unfold arrive at left
      split at left
      · exact absurd there left
      · split at left <;> exact absurd there left
    | settle env call result =>
      change slot ∉ (x.settle c receiverKey env call result).sender.store.mail.outbound.map OutboundRequest.slot at left
      unfold settle at left
      split_ifs at left with skipped
      · exact absurd there left
      rw [not_or, not_not] at skipped
      refine (settles_of_leaves inv _ there left).elim id (fun same => ⟨call, skipped.1, ?_, fun key => ?_⟩)
      · refine inv.apart _ _ (.inr (.inr (List.mem_map_of_mem skipped.1))) (.inl ⟨_, .inl rfl, there⟩) ?_
        cases result with
        | ok _ => exact Option.some.inj same
        | error e => cases same
      · cases result with
        | ok _ => exact not_not.mp (fun absent => skipped.2 ⟨rfl, key, absent⟩)
        | error e => cases same
  obtain ⟨call, made, same, acked⟩ := settled
  exact ⟨call, same, inv.calls call made, fun key => inv.acks call (acked key)⟩

end Exchange

namespace Daemon

/-- A delivery inserts or refreshes a request only when its sender and ID have no receipt, and what it saves has one;
an answered one has a receipt everywhere. With a receipt in memory, no delivery under the ID ever changes what the
machine knows of requests again, and one for another tool is refused. An outgoing request leaves the memory of its
sender only after the machine it is for has durably recorded its delivery. -/
theorem prompts_once (c : Crypto) (epoch hostname : String) (seed : Bytes) (before after : List (Env × Event)) (env : Env)
    (peer : Peer) (tool id : String) (epoch' hostname' : String) (seed' receiverKey : Bytes) (moves : List Move) (move : Move) :
    (SameMail (reach c epoch hostname seed before)
        ((reach c epoch hostname seed before).step c (env, .request peer tool (some id))) ∨
      (peer.name, id) ∉ (reach c epoch hostname seed before).store.mail.receipts.map RequestReceipt.delivery ∧
        Everywhere (fun i => (∃ old, (reach c epoch hostname seed before).cell.Among old ∧ i.store.mail = old.store.mail) ∨
          ∃ receipt ∈ i.store.mail.receipts, receipt.delivery = (peer.name, id))
          ((reach c epoch hostname seed before).step c (env, .request peer tool (some id))).cell) ∧
    (∀ r, ((reach c epoch hostname seed before).receive c env peer tool id).2 = .ok r →
      r.origin = peer.name ∧ r.tool = tool ∧ Everywhere (fun i => (⟨id, r⟩ : RequestReceipt) ∈ i.store.mail.receipts)
        ((reach c epoch hostname seed before).receive c env peer tool id).1.cell) ∧
    (∀ receipt ∈ (reach c epoch hostname seed before).store.mail.receipts,
      Everywhere (fun i => receipt ∈ i.store.mail.receipts) (reach c epoch hostname seed (before ++ after)).cell ∧
      (receipt.delivery = (peer.name, id) →
        SameMail (reach c epoch hostname seed (before ++ after))
          ((reach c epoch hostname seed (before ++ after)).step c (env, .request peer tool (some id))) ∧
        (tool ≠ receipt.request.tool → ∀ r,
          ((reach c epoch hostname seed (before ++ after)).receive c env peer tool id).2 ≠ .ok r))) ∧
    ((moves.filterMap Move.draws).Nodup → ∀ x,
      x = Exchange.run c receiverKey (.between (fresh c epoch' hostname' seed') (fresh c epoch hostname seed)) moves →
      ∀ row ∈ x.sender.store.outboundRequests,
        row.slot ∉ (x.step c receiverKey move).sender.store.outboundRequests.map OutboundRequest.slot →
        ∃ call, call.row.slot = row.slot ∧ call.peer.name = call.row.body ∧
          (call.peer.ownerPk = receiverKey → x.Delivered call)) := by
  have receipts : Receipts (reach c epoch hostname seed before) := receipts_run (receipts_fresh epoch hostname seed) before
  refine ⟨?_, fun r answered => receive_answered answered, fun receipt there => ?_, ?_⟩
  · rw [step_request]
    split_ifs with handled
    · exact receive_once _ env peer tool id
    · exact .inl (.refl _)
  · have everywhere : Everywhere (fun i => receipt ∈ i.store.mail.receipts) (reach c epoch hostname seed before).cell :=
      ⟨there, receipts.durable receipt there⟩
    have later := everywhere_receipt (c := c) everywhere after
    rw [← reach_append] at later
    refine ⟨later, fun same => ?_⟩
    obtain ⟨sender, rfl⟩ := Prod.mk.inj same
    have still : Receipts (reach c epoch hostname seed (before ++ after)) :=
      receipts_run (receipts_fresh epoch hostname seed) (before ++ after)
    refine ⟨?_, (receive_again still.recorded.1 later.1 sender).2⟩
    rw [step_request]
    split_ifs
    · exact (receive_again still.recorded.1 later.1 sender).1
    · exact .refl _
  · rintro apart x rfl row there left
    have start : Exchange.Inv c receiverKey [] (.between (fresh c epoch' hostname' seed') (fresh c epoch hostname seed)) :=
      Exchange.inv_between hostname' hostname epoch' epoch seed' seed
    exact Exchange.delivered_of_leaves (Exchange.inv_run start moves apart) move (List.mem_map_of_mem there) left

end Daemon

end Clix
