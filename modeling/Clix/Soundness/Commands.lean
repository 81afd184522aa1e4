import Clix.Proofs.Owner

/-! # What the owner typed is what the sidecar is asked for

The request of a command is one line that the sidecar reads back as the operation the command stands for, with the
texts, numbers, times and lists that were typed, whatever is in them and whatever follows on the connection.
-/

namespace Clix

open Except Json

open Owner (Op)

namespace Cli

/-- The versions of retained data that the command line takes. -/
def version? : String → Option Pin.RecoveryRead
  | "receipt" => some .receipt
  | "live" => some .live
  | "retained" => some .retained
  | _ => none

/-- The choices of a review that the command line takes. -/
def choice? : String → Option Pin.RecoveryChoice
  | "keep-live" => some .keepLive
  | "restore-retained" => some .restoreRetained
  | _ => none

/-- What the command line has checked of a command. -/
def Cmd.Checked (word : ℕ) : Cmd → Prop
  | .add _ grant _ | .allow _ grant => grant.Checked
  | .storage (.prune keep) => keep < word
  | .pin (.recovery (.export _ version _)) => (version? version).isSome = true
  | .pin (.recovery (.resolve _ choice _)) => (choice? choice).isSome = true
  | _ => True

/-- A field that may not be empty. -/
def filled (complaint text : String) : Result String := if text = "" then .error (.usage complaint) else .ok text

def missing (name text : String) : Result String := filled ("missing " ++ name) text

/-- What a command about jobs asks for. -/
def JobCommand.op : JobCommand → Result Op
  | .inspect id => do
    Limits.identifier id
    return .jobInspect id
  | .output id stderr => do
    Limits.identifier id
    return .jobOutput id stderr
  | .retry id => do
    Limits.identifier id
    return .jobRetry id

/-- What a command about recovery data asks for. -/
def RecoveryCommand.op : RecoveryCommand → Result Op
  | .list after => return .recoveryList after
  | .inspect id => return .recoveryInspect (← missing "id" id)
  | .export id version token => do
    let id ← missing "id" id
    let token ← missing "token" token
    return .recoveryExport id token ((version? version).getD .receipt)
  | .resolve id choice token => do
    let id ← missing "id" id
    let token ← missing "token" token
    return .recoveryResolve id token ((choice? choice).getD .keepLive)
  | .discard id token => return .recoveryDiscard (← missing "id" id) (← missing "token" token)

/-- What a command about pin asks for. -/
def PinCommand.op : PinCommand → Result Op
  | .on => return .pinSwitch true
  | .off => return .pinSwitch false
  | .sync body => return .pinSync (← missing "body" body)
  | .conflicts body => return .pinConflicts (← missing "body" body)
  | .takePeer body path token =>
    return .pinTakePeer (← missing "body" body) (← missing "path" path) (← missing "token" token)
  | .recovery command => command.op

/-- The operation a command stands for. -/
def Cmd.op (fs : FileSystem) (now : SystemTime) : Cmd → Result Op
  | .add tool grant args => do
    let path ← fs.resolveTool tool
    let expiry ← grant.expiry now
    return .add path grant.allow grant.once expiry grant.schedule args
  | .hands => return .hands
  | .remove tool => return .remove (← Grant.removalTarget fs tool)
  | .exec body argv noWait =>
    if argv = [] then .error (.usage "usage: clix <machine> <cmd>…") else .ok (.exec body argv noWait)
  | .pair none name => return .pairStart (name.filter (· ≠ ""))
  | .pair (some phrase) name => return .pairJoin (name.filter (· ≠ "")) phrase none
  | .log => return .log
  | .job command => command.op
  | .storage .status => return .storageStatus
  | .storage (.prune keep) => return .storagePrune keep
  | .pin command => command.op
  | .pending => return .pending
  | .allow requestId grant => do
    let id ← filled "provide a request ID from clix pending" requestId
    let expiry ← grant.expiry now
    let scope := if grant.allow = [] then Request.Scope.requester else .bodies grant.allow
    return .decide id (.allow scope grant.once expiry grant.schedule)
  | .deny requestId => return .decide (← filled "provide a request ID from clix pending" requestId) .deny
  | .request body tool => return .request body (← filled "usage: clix request <machine> <tool>" tool)
  | .status => return .status

end Cli

namespace Owner

variable {word : ℕ} {now : SystemTime} {fs : FileSystem}

/-! ## One line -/

/-- A request that is not too long is read from the connection, and what follows it is left there. -/
theorem receive_payload {request : Value} (fits : Fits inOrder maxDepth request)
    (short : request.text.length < Limits.ownerRequestBytes) (rest : Bytes) :
    receive word now (payload request ++ rest) = (some (readOp word now request), rest) := by
  have line := oneLine_text fits
  obtain ⟨s, text⟩ := line.decoded
  have taken : takeLine Limits.ownerRequestBytes (payload request ++ rest) = (request.text ++ [newline], rest) := by
    rw [payload, List.append_assoc, List.singleton_append]
    exact takeLine_line line.unbroken short rest
  have decoded : String.fromUTF8? ⟨(request.text ++ [newline]).dropLast.toArray⟩ = some s := by
    rw [List.dropLast_concat, ← text]
    exact fromUTF8?_utf8 s
  have read : Limits.ownerLine (payload request ++ rest) = (.ok (some s), rest) := by
    rw [Limits.ownerLine, Limits.limitedLine, taken]
    dsimp only
    rw [if_neg (by simp), if_neg (by rw [List.length_append, List.length_singleton]; omega), if_neg (by simp), decoded]
  have parsed := fromSlice_text fits
  have filled : s ≠ "" := by
    rintro rfl
    rw [← text] at parsed
    cases parsed
  rw [receive, read]
  dsimp only
  rw [if_neg filled, text, parsed]

/-! ## The requests of the commands -/

theorem required_filter (text complaint : String) :
    required ((some text).filter (· ≠ "")) complaint = Cli.filled complaint text := by
  rw [Option.filter_some, Cli.filled]
  by_cases empty : text = ""
  · rw [if_neg (by simp [empty]), if_pos empty, required, Option.elim_none]
  · rw [if_pos (by simp [empty]), if_neg empty, required, Option.elim_some]

theorem field_eq {req : Value} {name text : String} (found : req.get name = some (.string text)) :
    field req name = Cli.missing name text := by
  rw [field, filled?, text?, found]
  exact required_filter text _

theorem requestId_eq {req : Value} {text : String} (found : req.get "request_id" = some (.string text)) :
    requestId req = Cli.filled "provide a request ID from clix pending" text := by
  rw [requestId, filled?, text?, found]
  exact required_filter text _

theorem jobId_eq {req : Value} {id : String} (found : req.get "job_id" = some (.string id)) :
    jobId req = (do Limits.identifier id; return id) := by
  rw [jobId, text?, found]
  rfl

theorem text?_eq {req : Value} {name text : String} (found : req.get name = some (.string text)) :
    text? req name = some text := by
  rw [text?, found]
  rfl

theorem readOp_eq {req : Value} {op : String} (found : req.get "op" = some (.string op)) :
    readOp word now req = readNamed word now req op := by
  rw [readOp, text?_eq found]
  rfl

/-- Each command about jobs is read back. -/
theorem readOp_job (command : Cli.JobCommand) : readOp word now (jobRequest command) = command.op := by
  cases command with
  | inspect id =>
    have get := get_message "job_inspect" ["job_id"] [.string id] (by decide) rfl
    rw [jobRequest, readOp_eq (get "op")]
    change (jobId _ >>= _) = _
    rw [jobId_eq (get "job_id"), Cli.JobCommand.op, bind_assoc]
    rfl
  | output id stderr =>
    have get := get_message "job_output" ["job_id", "stderr"] [.string id, .bool stderr]
      (by decide) rfl
    rw [jobRequest, readOp_eq (get "op")]
    change (jobId _ >>= _) = _
    rw [jobId_eq (get "job_id"), Cli.JobCommand.op, bind_assoc, flag, get "stderr"]
    rfl
  | retry id =>
    have get := get_message "job_retry" ["job_id"] [.string id] (by decide) rfl
    rw [jobRequest, readOp_eq (get "op")]
    change (jobId _ >>= _) = _
    rw [jobId_eq (get "job_id"), Cli.JobCommand.op, bind_assoc]
    rfl

/-- The sidecar knows the versions that the command line takes. -/
theorem readVersion_of_name {version : String} (known : (Cli.version? version).isSome = true) :
    readVersion (.string version) = .ok ((Cli.version? version).getD .receipt) := by
  unfold Cli.version? at known ⊢
  split at known
  · rfl
  · rfl
  · rfl
  · cases known

/-- The sidecar knows the choices that the command line takes. -/
theorem readChoice_of_name {choice : String} (known : (Cli.choice? choice).isSome = true) :
    readChoice (.string (withUnderscores choice)) = .ok ((Cli.choice? choice).getD .keepLive) := by
  unfold Cli.choice? at known ⊢
  split at known
  · rfl
  · rfl
  · cases known

/-- Each command about recovery data is read back. -/
theorem readOp_recovery (command : Cli.RecoveryCommand)
    (checked : (Cli.Cmd.pin (.recovery command)).Checked word) :
    readOp word now (recoveryRequest command) = command.op := by
  cases command with
  | list after =>
    have get := get_message "pin_recovery_list" ["after"] [toValue inOrder after]
      (by decide) rfl
    have fine : ¬(some (toValue inOrder after)).any (fun v => !textOrNull v) = true := by
      cases after <;> exact Bool.false_ne_true
    rw [recoveryRequest, readOp_eq (get "op")]
    change recoveryList _ = _
    rw [recoveryList, text?, get "after"]
    change (refuseIf ((some (toValue inOrder after)).any (fun v => !textOrNull v) = true) _ >>= _) = _
    rw [refuseIf_neg fine, ok_bind]
    exact congrArg (fun o => Except.ok (Op.recoveryList o)) (asStr_optional after)
  | inspect id =>
    have get := get_message "pin_recovery_inspect" ["id"] [.string id] (by decide) rfl
    rw [recoveryRequest, readOp_eq (get "op")]
    change (field _ "id" >>= _) = _
    rw [field_eq (get "id")]
    rfl
  | «export» id version token =>
    have get := get_message "pin_recovery_export" ["id", "version", "token"]
      [.string id, .string version, .string token] (by decide) rfl
    rw [recoveryRequest, readOp_eq (get "op")]
    change (field _ "id" >>= fun a => field _ "token" >>= fun b => readVersion ((Value.get "version" _).getD .null) >>= _) = _
    rw [field_eq (get "id"), field_eq (get "token"), get "version"]
    change (_ >>= fun a => _ >>= fun b => readVersion (.string version) >>= _) = _
    rw [readVersion_of_name checked]
    rfl
  | resolve id choice token =>
    have get := get_message "pin_recovery_resolve" ["id", "choice", "token"]
      [.string id, .string (withUnderscores choice), .string token] (by decide) rfl
    rw [recoveryRequest, readOp_eq (get "op")]
    change (readChoice ((Value.get "choice" _).getD .null) >>= fun choice => field _ "id" >>= fun id =>
      field _ "token" >>= fun token => pure (Op.recoveryResolve id token choice)) = _
    rw [field_eq (get "id"), field_eq (get "token"), get "choice"]
    change (readChoice (.string (withUnderscores choice)) >>= _) = _
    rw [readChoice_of_name checked]
    rfl
  | discard id token =>
    have get := get_message "pin_recovery_discard" ["id", "token"]
      [.string id, .string token] (by decide) rfl
    rw [recoveryRequest, readOp_eq (get "op")]
    change (field _ "id" >>= fun id => field _ "token" >>= fun token => pure (Op.recoveryDiscard id token)) = _
    rw [field_eq (get "id"), field_eq (get "token")]
    rfl

/-- Each command about pin is read back. -/
theorem readOp_pin (command : Cli.PinCommand) (checked : (Cli.Cmd.pin command).Checked word) :
    readOp word now (pinRequest command) = command.op := by
  cases command with
  | on => rw [pinRequest, readOp_eq (get_message _ _ _ (by decide) rfl "op")]; rfl
  | off => rw [pinRequest, readOp_eq (get_message _ _ _ (by decide) rfl "op")]; rfl
  | sync body =>
    have get := get_message "pin_sync" ["body"] [.string body] (by decide) rfl
    rw [pinRequest, readOp_eq (get "op")]
    change (field _ "body" >>= _) = _
    rw [field_eq (get "body")]
    rfl
  | conflicts body =>
    have get := get_message "pin_conflicts" ["body"] [.string body] (by decide) rfl
    rw [pinRequest, readOp_eq (get "op")]
    change (field _ "body" >>= _) = _
    rw [field_eq (get "body")]
    rfl
  | takePeer body path token =>
    have get := get_message "pin_take_peer" ["body", "path", "token"]
      [.string body, .string path, .string token] (by decide) rfl
    rw [pinRequest, readOp_eq (get "op")]
    change (field _ "body" >>= fun body => field _ "path" >>= fun path => field _ "token" >>= fun token =>
      pure (Op.pinTakePeer body path token)) = _
    rw [field_eq (get "body"), field_eq (get "path"), field_eq (get "token")]
    rfl
  | recovery command => exact readOp_recovery command checked

theorem rpcPrune_eq {req : Value} {keep : ℕ} (found : req.get "keep_output_jobs" = some (.number keep))
    (small : word ≤ 2 ^ 64) (fits : keep < word) : rpcPrune word req = .ok (.storagePrune keep) := by
  have number : Value.asU64 (.number keep) = some keep := asU64_natCast (lt_of_lt_of_le fits small)
  rw [rpcPrune, found, Option.bind_some, number]
  dsimp only
  rw [refuseIf_neg (not_le.mpr fits)]
  rfl

theorem readNamed_prune (req : Value) : readNamed word now req "storage_prune" = rpcPrune word req := rfl

/-- Each command about storage is read back, and no count is too large for the sidecar. -/
theorem readOp_storage (small : word ≤ 2 ^ 64) (command : Cli.StorageCommand)
    (checked : (Cli.Cmd.storage command).Checked word) :
    readOp word now (storageRequest command) = (Cli.Cmd.storage command).op fs now := by
  cases command with
  | status => rw [storageRequest, readOp_eq (get_message _ _ _ (by decide) rfl "op")]; rfl
  | prune keep =>
    have get := get_message "storage_prune" ["keep_output_jobs"] [.number keep]
      (by decide) rfl
    have named : (storageRequest (.prune keep)).get "op" = some (.string "storage_prune") := get "op"
    have found : (storageRequest (.prune keep)).get "keep_output_jobs" = some (.number keep) := get "keep_output_jobs"
    rw [readOp_eq named, readNamed_prune, rpcPrune_eq found small checked]
    rfl

/-! ## Grants -/

variable {n : Cli.GrantNarrow} {args : Option (List (List String))}

theorem carried_add (path : String) : Carried (addRequest path n args) n args := by
  have get := get_message "add" ("tool" :: grantNames ++ ["args"])
    (.string path :: grantValues n ++ [toValue inOrder args]) (by decide) rfl
  exact ⟨get _, get _, get _, get _, get _, get _, get _, get _, get _,
    fun v found => Option.some.inj (found.symm.trans (get "args"))⟩

theorem carried_allow (id : String) : Carried (allowRequest id n) n none := by
  have get := get_message "allow_request" ("request_id" :: grantNames)
    (.string id :: grantValues n) (by decide) rfl
  refine ⟨get _, get _, get _, get _, get _, get _, get _, get _, get _, fun v found => ?_⟩
  have none : (allowRequest id n).get "args" = none := get "args"
  rw [none] at found
  cases found

theorem Carried.machines {req : Value} (carried : Carried req n args) : jsonStringList (req.get "allow") = n.allow := by
  rw [carried.allow]
  exact filterMap_asStr n.allow

theorem Carried.single {req : Value} (carried : Carried req n args) (default : Bool) :
    flag req "once" default = n.once := by
  rw [flag, carried.once]
  rfl

/-- A grant is read back with its flags, up to the whole seconds of its deadline. -/
theorem readOp_add (path : String) (checked : n.Checked) : readOp word now (addRequest path n args) = (do
    let expiry ← n.expiry now
    return .add path n.allow n.once expiry n.schedule args) := by
  have get := get_message "add" ("tool" :: grantNames ++ ["args"])
    (.string path :: grantValues n ++ [toValue inOrder args]) (by decide) rfl
  have carried : Carried _ n args := carried_add path
  have tool : (addRequest path n args).get "tool" = some (.string path) := get "tool"
  have vectors : (addRequest path n args).get "args" = some (toValue inOrder args) := get "args"
  rw [addRequest, readOp_eq (get "op")]
  change rpcAdd word now (addRequest path n args) = _
  rw [rpcAdd, carried.valid checked, ok_bind, text?_eq tool, required, Option.elim_some, ok_bind,
    carried.expiry checked, carried.schedule checked, vectors, readArgs_args, carried.machines, carried.single]
  rfl

/-- An approval is read back with its flags. -/
theorem readOp_allow (id : String) (checked : n.Checked) : readOp word now (allowRequest id n) = (do
    let id ← Cli.filled "provide a request ID from clix pending" id
    let expiry ← n.expiry now
    let scope := if n.allow = [] then Request.Scope.requester else .bodies n.allow
    return .decide id (.allow scope n.once expiry n.schedule)) := by
  have get := get_message "allow_request" ("request_id" :: grantNames)
    (.string id :: grantValues n) (by decide) rfl
  have carried : Carried _ n none := carried_allow id
  have requestId : (allowRequest id n).get "request_id" = some (.string id) := get "request_id"
  rw [allowRequest, readOp_eq (get "op")]
  change rpcAllow now (allowRequest id n) = _
  rw [rpcAllow, requestId_eq requestId, carried.valid checked, carried.expiry checked, carried.schedule checked,
    carried.machines, carried.single]
  rfl

theorem fits_option {α : Type} [ToValue α] {depth : ℕ} (o : Option α)
    (each : ∀ a : α, Fits inOrder depth (toValue inOrder a)) : Fits inOrder depth (toValue inOrder o) := by
  cases o with
  | none => cases depth <;> trivial
  | some a => exact each a

theorem fits_grantValues (n : Cli.GrantNarrow) : ∀ v ∈ grantValues n, Fits inOrder 126 v := by
  simp only [grantValues, List.forall_mem_cons, List.not_mem_nil, false_implies, implies_true, and_true]
  have dates : Carries 0 126 n.dates := carries_list (fun date _ => carries_uInt8 date)
  exact ⟨fits_strings _, trivial, fits_option _ (fun _ => trivial), fits_option _ (fun _ => trivial), fits_strings _,
    dates.fits keeps_inOrder,
    fits_option _ (fun _ => trivial), fits_option _ (fun _ => trivial), trivial⟩

/-- The request for a grant is within the depth that the sidecar reads. -/
theorem fits_add (path : String) : Fits inOrder maxDepth (addRequest path n args) := by
  refine fits_message (List.forall_mem_append.mpr ⟨List.forall_mem_cons.mpr ⟨trivial, fits_grantValues n⟩, ?_⟩)
  refine List.forall_mem_singleton.mpr (fits_option _ (fun patterns => ?_))
  have carried : Carries 0 126 patterns := carries_list (fun p _ => carries_list (fun s _ => carries_string s))
  exact carried.fits keeps_inOrder

theorem fits_allow (id : String) : Fits inOrder maxDepth (allowRequest id n) :=
  fits_message (List.forall_mem_cons.mpr ⟨trivial, fits_grantValues n⟩)

/-! ## Every command -/

theorem readOp_exec {body : String} {argv : List String} {noWait : Bool} :
    readOp word now (message "exec" ["body", "argv", "no_wait"] [.string body, toValue inOrder argv, .bool noWait]) =
      (Cli.Cmd.exec body argv noWait).op fs now := by
  have get := get_message "exec" ["body", "argv", "no_wait"]
    [.string body, toValue inOrder argv, .bool noWait] (by decide) rfl
  have carried : Carries word 1 argv := carries_list (fun s _ => carries_string s)
  have back : (fromValue word (toValue inOrder argv) : Option (List String)) = some argv := carried.back keeps_inOrder
  rw [readOp_eq (get "op")]
  change rpcExec word _ = _
  rw [rpcExec, text?_eq (get "body"), required, Option.elim_some, ok_bind, readArgv, get "argv"]
  change ((fromValue word (toValue inOrder argv) : Option (List String)).elim _ _ >>= _) = _
  rw [back, Cli.Cmd.op, Option.elim_some, ok_bind]
  split_ifs with empty
  · rw [refuseIf, if_pos empty]
    rfl
  · rw [refuseIf_neg empty, ok_bind, flag, get "no_wait"]
    rfl

/-- The values of these requests are texts, numbers and flags. -/
theorem fits_scalars {op : String} {names : List String} {values : List Value}
    (each : ∀ v ∈ values, (∃ s, v = .string s) ∨ (∃ b, v = .bool b) ∨ (∃ n, v = .number n)) :
    Fits inOrder maxDepth (message op names values) :=
  fits_message (fun v member => by
    rcases each v member with ⟨s, rfl⟩ | ⟨b, rfl⟩ | ⟨n, rfl⟩ <;> trivial)

theorem fits_job (command : Cli.JobCommand) : Fits inOrder maxDepth (jobRequest command) := by
  cases command <;> exact fits_scalars (by simp)

theorem fits_storage (command : Cli.StorageCommand) : Fits inOrder maxDepth (storageRequest command) := by
  cases command <;> exact fits_scalars (by simp)

theorem fits_pin (command : Cli.PinCommand) : Fits inOrder maxDepth (pinRequest command) := by
  cases command with
  | recovery command =>
    cases command with
    | list after =>
      exact fits_message (List.forall_mem_singleton.mpr (fits_option _ (fun _ => trivial)))
    | _ => exact fits_scalars (by simp)
  | _ => exact fits_scalars (by simp)

/-- Whatever the command, its request is read back as what the command stands for. -/
theorem readOp_request {cmd : Cli.Cmd} {request : Value} (small : word ≤ 2 ^ 64) (checked : cmd.Checked word)
    (written : rpcFromCmd fs cmd = .ok request) :
    Fits inOrder maxDepth request ∧ readOp word now request = cmd.op fs now := by
  cases cmd with
  | add tool grant args =>
    rw [rpcFromCmd, bind_eq_ok] at written
    obtain ⟨path, resolved, same⟩ := written
    cases same
    refine ⟨fits_add path, ?_⟩
    rw [readOp_add path checked, Cli.Cmd.op, resolved]
    rfl
  | remove tool =>
    rw [rpcFromCmd, bind_eq_ok] at written
    obtain ⟨target, resolved, same⟩ := written
    cases same
    have get := get_message "remove" ["tool"] [.string target] (by decide) rfl
    refine ⟨fits_scalars (by simp), ?_⟩
    rw [readOp_eq (get "op"), Cli.Cmd.op, resolved]
    change (required (text? _ "tool") _ >>= _) = _
    rw [text?_eq (get "tool")]
    rfl
  | hands =>
    cases written
    exact ⟨fits_scalars (by simp), readOp_eq (get_message _ _ _ (by decide) rfl "op")⟩
  | log =>
    cases written
    exact ⟨fits_scalars (by simp), readOp_eq (get_message _ _ _ (by decide) rfl "op")⟩
  | pending =>
    cases written
    exact ⟨fits_scalars (by simp), readOp_eq (get_message _ _ _ (by decide) rfl "op")⟩
  | status =>
    cases written
    exact ⟨fits_scalars (by simp), readOp_eq (get_message _ _ _ (by decide) rfl "op")⟩
  | exec body argv noWait =>
    cases written
    refine ⟨fits_message ?_, readOp_exec⟩
    simp only [List.forall_mem_cons, List.not_mem_nil, false_implies, implies_true, and_true]
    exact ⟨trivial, fits_strings _, trivial⟩
  | pair phrase name =>
    cases phrase with
    | none =>
      cases written
      have get := get_message "pair_start" ["name"] [toValue inOrder name] (by decide) rfl
      refine ⟨fits_message (List.forall_mem_singleton.mpr (fits_option _ (fun _ => trivial))), ?_⟩
      rw [readOp_eq (get "op")]
      change Except.ok (Op.pairStart (filled? _ "name")) = _
      rw [filled?, text?, get "name"]
      exact congrArg (fun o => Except.ok (Op.pairStart (Option.filter (· ≠ "") o))) (asStr_optional name)
    | some phrase =>
      cases written
      have get := get_message "pair_join" ["phrase", "name"]
        [.string phrase, toValue inOrder name] (by decide) rfl
      refine ⟨fits_message ?_, ?_⟩
      · simp only [List.forall_mem_cons, List.not_mem_nil, false_implies, implies_true, and_true]
        exact ⟨trivial, fits_option _ (fun _ => trivial)⟩
      rw [readOp_eq (get "op")]
      change (required (text? _ "phrase") _ >>= fun phrase =>
        pure (Op.pairJoin (filled? _ "name") phrase (filled? _ "addr"))) = _
      rw [text?_eq (get "phrase"), filled?, filled?, text?, text?, get "name", get "addr"]
      exact congrArg (fun o => Except.ok (Op.pairJoin (Option.filter (· ≠ "") o) phrase none)) (asStr_optional name)
  | job command =>
    cases written
    exact ⟨fits_job command, readOp_job command⟩
  | storage command =>
    cases written
    exact ⟨fits_storage command, readOp_storage small command checked⟩
  | pin command =>
    cases written
    exact ⟨fits_pin command, readOp_pin command checked⟩
  | allow requestId grant =>
    cases written
    exact ⟨fits_allow requestId, readOp_allow requestId checked⟩
  | deny requestId =>
    cases written
    have get := get_message "deny_request" ["request_id"] [.string requestId]
      (by decide) rfl
    refine ⟨fits_scalars (by simp), ?_⟩
    rw [readOp_eq (get "op")]
    change (Owner.requestId _ >>= _) = _
    rw [requestId_eq (get "request_id")]
    rfl
  | request body tool =>
    cases written
    have get := get_message "request" ["body", "tool"] [.string body, .string tool]
      (by decide) rfl
    refine ⟨fits_scalars (by simp), ?_⟩
    rw [readOp_eq (get "op")]
    change (required (filled? _ "tool") _ >>= fun tool => pure (Op.request ((text? _ "body").getD "") tool)) = _
    rw [text?_eq (get "body"), filled?, text?_eq (get "tool"), required_filter]
    rfl

/-- Whatever the owner typed, and whatever follows on the connection, the sidecar takes the request of a checked
command, when it is shorter than the limit of a line, for the operation that the command stands for, and takes nothing
of what follows. -/
theorem request_understood {word : ℕ} (small : word ≤ 2 ^ 64) {fs : FileSystem} {cmd : Cli.Cmd}
    (checked : cmd.Checked word) {request : Value} (written : rpcFromCmd fs cmd = .ok request)
    (short : request.text.length < Limits.ownerRequestBytes) (now : SystemTime) (rest : Bytes) :
    receive word now (payload request ++ rest) = (some (cmd.op fs now), rest) := by
  obtain ⟨fits, read⟩ : Fits inOrder maxDepth request ∧ readOp word now request = cmd.op fs now :=
    readOp_request small checked written
  rw [receive_payload fits short rest, read]

end Owner

namespace CommandExample

open Owner

def fs : FileSystem := ⟨fun tool => .ok ("/bin/" ++ tool), .ok⟩

/-- `clix add git --allow bob --once --only "log \"a\""`. -/
def add : Cli.Cmd :=
  .add "git" ⟨["bob"], true, none, some (5 * nanosPerSecond + 1), [], [], none, none, false⟩ (some [["log", "\"a\""]])

theorem add_checked (word : ℕ) : add.Checked word where
  days := by simp
  exclusive := by simp
  dates := by simp
  opens := by simp
  closes := by simp
  deadline := by
    intro t same
    cases same
    decide

/-- The sidecar adds what was typed, up to the whole seconds of the deadline, and reads on after the line. -/
theorem add_understood : ∃ request, rpcFromCmd fs add = .ok request ∧
    receive (2 ^ 64) 7 (payload request ++ [65]) =
      (some (.ok (.add "/bin/git" ["bob"] true (some (5 * nanosPerSecond)) none (some [["log", "\"a\""]]))), [65]) := by
  obtain ⟨request, written⟩ : ∃ request, rpcFromCmd fs add = .ok request := ⟨_, rfl⟩
  have short : request.text.length < Limits.ownerRequestBytes := by
    cases written
    decide +kernel
  refine ⟨request, written, (request_understood le_rfl (add_checked _) written short 7 [65]).trans ?_⟩
  decide

end CommandExample

end Clix
