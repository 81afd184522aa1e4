import Clix.Model.Mesh
import Clix.Proofs.Steps

/-! # A node and its daemon

A node steps as its daemon does, and serves pin requests as a machine with a tree does.
-/

namespace Clix

open Except

namespace Mesh.Node

variable {c : Crypto}

/-- An update of the daemon is one of its store in memory. -/
theorem quietUpdate_updateStore (d : Daemon) (env : Surroundings) (edit : Store → Result (Store × Unit)) :
    (d.quietUpdate c env.toEnv edit).1.store = (Pin.updateStore c env.weather d.store edit).1 ∧
      (d.quietUpdate c env.toEnv edit).2 = (Pin.updateStore c env.weather d.store edit).2 := by
  unfold Daemon.quietUpdate Daemon.update Pin.updateStore
  dsimp only [Surroundings.weather]
  cases Store.stage c env.epochId d.store edit with
  | error e => exact ⟨rfl, rfl⟩
  | ok done =>
    cases env.fault with
    | none => exact ⟨rfl, rfl⟩
    | some fault =>
      obtain ⟨step, e⟩ := fault
      refine ⟨?_, rfl⟩
      cases step <;> rfl

/-- A node serves pin requests as a machine with a tree does. -/
theorem servePin_machine (n : Node) (env : Surroundings) (peer : Peer) (request : Pin.Request) :
    ((n.servePin c env peer request).1.machine, (n.servePin c env peer request).2) =
      Pin.serve c env.host env.weather env.ids peer n.machine request := by
  cases request with
  | list | get _ _ => rfl
  | put request =>
    unfold servePin Pin.serve Pin.rpcPut
    dsimp only
    split <;> rfl
  | commit manifest =>
    unfold servePin Pin.serve commitPin Pin.rpcCommit Pin.record
    dsimp only [machine, Surroundings.weather]
    cases (do
        Pin.ensureEnabled n.daemon.store
        let files ← Pin.scan c n.tree
        refuseIf (files ≠ manifest) (Pin.changed "(tree changed before commit)") : Result Unit) with
    | error e => rfl
    | ok checked =>
      obtain ⟨store, result⟩ := quietUpdate_updateStore (c := c) n.daemon env
        (Pin.recordEdit env.seconds peer.ownerPk manifest)
      rw [store, result]
      rfl

/-- An update depends on what its edit makes of the store in memory only. -/
theorem quietUpdate_congr {α : Type} {d : Daemon} {env : Env} {edit other : Store → Result (Store × α)}
    (same : edit d.store = other d.store) : d.quietUpdate c env edit = d.quietUpdate c env other := by
  have staged : Store.stage c env.epochId d.store edit = Store.stage c env.epochId d.store other := by
    unfold Store.stage
    rw [same]
  unfold Daemon.quietUpdate Daemon.update
  rw [staged]

/-- What a node does to its daemon is a step of it, or nothing. -/
theorem step_daemon (n : Node) (e : Surroundings × Event) :
    (n.step c e).daemon = n.daemon ∨ ∃ event, (n.step c e).daemon = n.daemon.liveStep c e.1.toEnv event := by
  obtain ⟨env, event⟩ := e
  cases event with
  | accept key => exact .inr ⟨.accept key, rfl⟩
  | run event => exact .inr ⟨event.1, rfl⟩
  | certified peer cert =>
    unfold step submitCertified
    dsimp only
    split_ifs with authorized busy
    · exact .inl rfl
    · refine .inr ⟨.execCertified peer cert, ?_⟩
      change _ = n.daemon.execCertified c env.toEnv peer cert
      rw [Daemon.execCertified, if_neg (by simp [authorized, busy])]
    · exact .inl rfl
  | asked peer op =>
    unfold step
    dsimp only
    split_ifs with connected
    · cases op with
      | execV2 cert => exact .inr ⟨.authorize peer cert, rfl⟩
      | exec argv jobId =>
        change (n.submit c env peer argv jobId).1.daemon = _ ∨ ∃ event, (n.submit c env peer argv jobId).1.daemon = _
        unfold submit
        split
        · exact .inl rfl
        next id made =>
        split_ifs with busy
        · exact .inl rfl
        · refine .inr ⟨.exec peer id argv, ?_⟩
          change _ = n.daemon.exec c env.toEnv peer id argv
          rw [Daemon.exec, if_neg (by simp [connected, busy])]
      | request tool requestId =>
        unfold dispatch
        dsimp only
        cases tool.filter (fun t => t != "") with
        | none => exact .inl rfl
        | some named =>
          refine .inr ⟨.request peer named requestId, ?_⟩
          change _ = (if peer ∉ n.daemon.conns then n.daemon else _ : Daemon)
          rw [if_neg (not_not.mpr connected)]
      | pin request =>
        cases request with
        | commit manifest =>
          change (n.commitPin c env peer manifest).1.daemon = _ ∨
            ∃ event, (n.commitPin c env peer manifest).1.daemon = _
          unfold commitPin
          split
          · exact .inl rfl
          · let recorded : PinIndex := ⟨n.daemon.store.pinIndex.peers.insert (Pin.key peer.ownerPk) manifest,
              some env.seconds, manifest.mapValues (fun _ f => f.hash), none⟩
            refine .inr ⟨.pin recorded n.daemon.store.pinEnabled, ?_⟩
            change (n.daemon.quietUpdate c env.toEnv (Pin.recordEdit env.seconds peer.ownerPk manifest)).1 =
              (n.daemon.quietUpdate c env.toEnv (fun s => .ok ({ s with
                pinIndex := recorded, pinEnabled := n.daemon.store.pinEnabled }, ()))).1
            exact congrArg Prod.fst (quietUpdate_congr rfl)
        | _ => exact .inl rfl
      | jobGet jobId => cases jobId <;> exact .inl rfl
      | _ => exact .inl rfl
    · exact .inl rfl

end Mesh.Node

end Clix
