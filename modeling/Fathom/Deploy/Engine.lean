/-
**The push deploy** (`core/deploy/engine.py`): a batch of hosts, each of which the agent is
installed on over a session of its own.

A host stands at the call whose answer it waits for, and `Pc.next` is what comes after the
answer, whatever that is. The answers are in the labels, so a run of `deploys` is what the
targets of a batch answer, in whatever order they do. A task that is cancelled at shutdown is
left out, and so is the shell text of the commands.
-/
import Fathom.Deploy.Listing
import Fathom.Lib.Interaction

set_option autoImplicit false

namespace Fathom.Deploy.Engine

open Fathom.Config (is_space)
open Fathom.Interaction (Always always_nil always_cons)

/-! ## What is asked for -/

/-- `DeployPhase`, in the order the phases come in. -/
inductive DeployPhase where
  | pending
  | connecting
  | preflight
  | minting
  | uploading
  | loading_image
  | starting
  | verifying
  | succeeded
  | failed
  deriving DecidableEq

/-- `BundleSpec`, with what `_render_config` and `_render_compose` make of it. -/
structure BundleSpec where
  host_id : String
  proxy_host_ip : String
  config : String
  compose : String

/-- `MintedCert`. -/
structure MintedCert where
  key_pem : String
  cert_pem : String
  ca_cert_pem : String
  fingerprint_sha1 : String

/-- `build_agent_bundle`. -/
def build_agent_bundle (spec : BundleSpec) (minted : MintedCert) : List (String × String) :=
  [("agent.config.yaml", spec.config), ("docker-compose.yml", spec.compose), ("certs/client.crt", minted.cert_pem),
    ("certs/client.key", minted.key_pem), ("certs/fathom-ca.crt", minted.ca_cert_pem)]

/-- `HostDeployRequest`, with why `SshCredential.validate` refuses the credential, where it does. -/
structure HostDeployRequest where
  target : String
  refusal : Option String
  spec : BundleSpec
  remote_dir : String

/-- `HostStatus`. -/
structure HostStatus where
  host_id : String
  target : String
  phase : DeployPhase := .pending
  detail : String := ""
  fingerprint : Option String := none
  host_key : Option String := none

/-- `DeployEngine`: the archive it loads a missing image from, and its semaphore. -/
structure DeployEngine where
  image_archive_path : Option String
  max_concurrent : ℕ

/-! ## Calls and answers -/

/-- What is asked of a target. -/
inductive Call where
  | connect
  | docker_version
  | proxy_reachable
  | prepare
  | write_file (remote_path content : String) (mode : ℕ)
  | image_inspect
  | upload_file
  | docker_load
  | remove_archive
  | compose_up
  | container_inspect
  | close
  deriving DecidableEq

/-- A `DeploymentError`, or any other exception, with its text. -/
inductive Fault where
  | deployment (message : String)
  | other (message : String)

/-- The `detail` of the status of a host that failed. -/
def Fault.detail : Fault → String
  | .deployment message => message
  | .other message => "unexpected error: " ++ message

/-- What a host waits for: its turn, a session with the key of the target, a command, a
certificate, or that something is done. -/
inductive Reply where
  | acquired
  | session (host_key_fingerprint : String)
  | result (r : CommandResult)
  | minted (m : MintedCert)
  | done
  | raised (fault : Fault)

def Reply.ok : Reply → Bool
  | .result r => r.ok
  | .raised _ => false
  | _ => true

/-- `stderr.strip() or stdout.strip()`. -/
def reason (r : CommandResult) : String :=
  let strip := fun text : List Char => (text.dropWhile is_space).rdropWhile is_space
  String.ofList (if strip r.stderr ≠ [] then strip r.stderr else strip r.stdout)

/-! ## One host -/

/-- Where `deploy_one` stands. What comes of it is a certificate that is installed, or why none is. -/
inductive Pc where
  | queued
  | connecting
  | docker (host_key : String)
  | proxy
  | minting
  | preparing (m : MintedCert)
  | writing (m : MintedCert) (written : List (String × String)) (file : String × String) (rest : List (String × String))
  | inspecting (m : MintedCert)
  | uploading (m : MintedCert)
  | loading (m : MintedCert)
  | removing (m : MintedCert) (load : CommandResult)
  | composing (m : MintedCert)
  | verifying (m : MintedCert)
  | closing (outcome : Except Fault MintedCert)
  | finished (outcome : Except Fault MintedCert)

/-- The call that writes a file of the bundle: the key is for its owner only. -/
def write_call (request : HostDeployRequest) (file : String × String) : Call :=
  .write_file (request.remote_dir ++ "/" ++ file.1) file.2
    (if "client.key".toList.isSuffixOf file.1.toList then 0o600 else 0o644)

/-- The call whose answer is waited for. -/
def Pc.call (request : HostDeployRequest) : Pc → Option Call
  | .queued | .minting | .finished _ => none
  | .connecting => some .connect
  | .docker _ => some .docker_version
  | .proxy => some .proxy_reachable
  | .preparing _ => some .prepare
  | .writing _ _ file _ => some (write_call request file)
  | .inspecting _ => some .image_inspect
  | .uploading _ => some .upload_file
  | .loading _ => some .docker_load
  | .removing _ _ => some .remove_archive
  | .composing _ => some .compose_up
  | .verifying _ => some .container_inspect
  | .closing _ => some .close

/-- `_deploy_one_inner` raises a `DeploymentError` and closes the session. -/
def Pc.fail (message : String) : Pc := .closing (.error (.deployment message))

/-- The rest of `_mint_and_upload`, and the start of `_ensure_image`. -/
def Pc.write (e : DeployEngine) (m : MintedCert) (written : List (String × String)) : List (String × String) → Pc
  | file :: rest => .writing m written file rest
  | [] => if e.image_archive_path = none then .composing m else .inspecting m

/-- What comes after an answer. -/
def Pc.next (e : DeployEngine) (request : HostDeployRequest) : Pc → Reply → Option Pc
  | .queued, .acquired =>
    some (match request.refusal with
      | some message => .finished (.error (.deployment message))
      | none => .connecting)
  | .connecting, .session key => some (.docker key)
  | .connecting, .raised fault => some (.finished (.error fault))
  | .docker _, .result r => some (if r.ok then .proxy else .fail "docker not found on target")
  | .proxy, .result r =>
    some (if r.ok then .minting else .fail ("target cannot reach proxy " ++ request.spec.proxy_host_ip ++ ":9443"))
  | .minting, .minted m => some (.preparing m)
  | .preparing m, .result r =>
    some (if r.ok then .write e m [] (build_agent_bundle request.spec m)
      else .fail ("could not prepare " ++ request.remote_dir ++ ": " ++ reason r))
  | .writing m written file rest, .done => some (.write e m (written ++ [file]) rest)
  | .inspecting m, .result r => some (if r.ok then .composing m else .uploading m)
  | .uploading m, .done => some (.loading m)
  | .loading m, .result r => some (.removing m r)
  | .removing m load, .result _ =>
    -- whether the archive could be removed does not matter
    some (if load.ok then .composing m else .fail ("docker load failed: " ++ reason load))
  | .composing m, .result r => some (if r.ok then .verifying m else .fail ("compose up failed: " ++ reason r))
  | .verifying m, .result r =>
    some (if r.ok then .closing (.ok m) else .fail ("agent container was not created: " ++ reason r))
  | .closing outcome, .done => some (.finished outcome)
  -- what closing raises takes the place of what was raised before
  | .closing _, .raised fault => some (.finished (.error fault))
  | .queued, _ => none
  | .finished _, _ => none
  | _, .raised fault => some (.closing (.error fault))
  | _, _ => none

/-- What is written to the status on the way to a call. -/
def HostStatus.enter (status : HostStatus) : Pc → HostStatus
  | .connecting => { status with phase := .connecting }
  | .docker key => { status with host_key := some key, phase := .preflight }
  | .minting => { status with phase := .minting }
  | .preparing m => { status with fingerprint := some m.fingerprint_sha1, phase := .uploading }
  | .uploading _ => { status with phase := .loading_image }
  | .composing _ => { status with phase := .starting }
  | .verifying _ => { status with phase := .verifying }
  | .closing (.ok _) => { status with phase := .succeeded, detail := "agent deployed" }
  | .finished (.error fault) => { status with phase := .failed, detail := fault.detail }
  | _ => status

inductive Event where
  | asked (call : Call)
  | answered (call : Call) (ok : Bool)
  deriving DecidableEq

/-- A host of a batch, with what it was asked and answered, newest first. -/
structure Host where
  request : HostDeployRequest
  status : HostStatus
  pc : Pc
  log : List Event

/-- The status `deploy_route` makes for a host. -/
def Host.queue (request : HostDeployRequest) : Host :=
  ⟨request, { host_id := request.spec.host_id, target := request.target }, .queued, []⟩

/-- `deploy_one`, from one answer to the next call. -/
def Host.reply (e : DeployEngine) (h : Host) (r : Reply) : Option Host :=
  (h.pc.next e h.request r).map fun pc =>
    { h with
      status := h.status.enter pc
      pc
      log := (pc.call h.request).toList.map .asked ++ ((h.pc.call h.request).toList.map (.answered · r.ok) ++ h.log) }

/-! ## The batch -/

/-- Whether a host holds the semaphore. -/
def Host.running (h : Host) : Bool :=
  match h.pc with
  | .queued | .finished _ => false
  | _ => true

/-- `deploy_batch`: the hosts go their ways, and one more is let in when the engine has room. The
hosts of a batch that comes later wait among them. -/
def deploys (e : DeployEngine) : System (List Host) (ℕ × Reply) where
  init hosts := ∃ requests : List HostDeployRequest, hosts = requests.map Host.queue
  step hosts label :=
    let go := (hosts[label.1]?.bind fun h => h.reply e label.2).map (hosts.set label.1)
    match label.2 with
    | .acquired => if hosts.countP Host.running < e.max_concurrent then go else none
    | _ => go

/-- `HostStatus.done`. -/
def HostStatus.done (status : HostStatus) : Bool := status.phase = .succeeded || status.phase = .failed

/-- `DeployRun.complete`. -/
def complete (hosts : List Host) : Bool := hosts.all (·.status.done)

/-! ## What is kept -/

section

variable {e : DeployEngine} {request : HostDeployRequest} {pc pc' : Pc} {r : Reply} {h h' : Host}

/-- The calls that write a bundle. -/
def files (request : HostDeployRequest) (m : MintedCert) : List Call :=
  (build_agent_bundle request.spec m).map (write_call request)

/-- The calls that end well before a bundle is written. -/
def prepared : List Call := [.connect, .docker_version, .proxy_reachable, .prepare]

/-- What a call comes after. -/
def Call.after (request : HostDeployRequest) (m : MintedCert) : Call → List Call
  | .connect | .close => []
  | .docker_version => [.connect]
  | .proxy_reachable => [.connect, .docker_version]
  | .prepare => [.connect, .docker_version, .proxy_reachable]
  | .write_file _ _ _ => prepared
  | .container_inspect => .compose_up :: (prepared ++ files request m)
  | _ => prepared ++ files request m

/-- The calls that end well in an installation. -/
def installed (request : HostDeployRequest) (m : MintedCert) : List Call :=
  .container_inspect :: .compose_up :: (prepared ++ files request m)

/-- The calls that ended well on the way. -/
def Pc.passed (request : HostDeployRequest) : Pc → List Call
  | .queued | .connecting => []
  | .docker _ => [.connect]
  | .proxy => [.connect, .docker_version]
  | .minting | .preparing _ => [.connect, .docker_version, .proxy_reachable]
  | .writing _ written _ _ => prepared ++ written.map (write_call request)
  | .inspecting m | .uploading m | .loading m | .removing m _ | .composing m => prepared ++ files request m
  | .verifying m => .compose_up :: (prepared ++ files request m)
  | .closing outcome | .finished outcome => outcome.toOption.elim [] (installed request)

/-- The files of a bundle are written in their order. -/
def Pc.Ordered (request : HostDeployRequest) : Pc → Prop
  | .writing m written file rest => written ++ file :: rest = build_agent_bundle request.spec m
  | _ => True

/-- A file is written, or it was the last. -/
theorem passed_write (m : MintedCert) {written rest : List (String × String)}
    (hfiles : written ++ rest = build_agent_bundle request.spec m) :
    (Pc.write e m written rest).Ordered request ∧
      (Pc.write e m written rest).passed request = prepared ++ written.map (write_call request) := by
  cases rest with
  | cons file rest => exact ⟨hfiles, rfl⟩
  | nil =>
      rw [List.append_nil] at hfiles
      rw [Pc.write]
      split <;> exact ⟨trivial, by rw [Pc.passed, files, hfiles]⟩

/-- What an answer adds to the calls that ended well is the call it is an answer to. -/
theorem next_passed (hnext : pc.next e request r = some pc') (hpc : pc.Ordered request) :
    pc'.Ordered request ∧ ∀ c ∈ pc'.passed request, c ∈ pc.passed request ∨ pc.call request = some c ∧ r.ok = true := by
  cases pc with
  | preparing m =>
      cases r <;> simp only [Pc.next, Option.some.injEq, reduceCtorEq] at hnext <;> subst hnext
      · split
        · rename_i r hok
          obtain ⟨hordered, hpassed⟩ := passed_write (e := e) m (List.nil_append (build_agent_bundle request.spec m))
          refine ⟨hordered, fun c hc => ?_⟩
          rw [hpassed] at hc
          simpa [prepared, Pc.passed, Pc.call, Reply.ok, hok, or_assoc, eq_comm] using hc
        · exact ⟨trivial, by simp [Pc.passed, Pc.fail, Except.toOption]⟩
      · exact ⟨trivial, by simp [Pc.passed, Except.toOption]⟩
  | writing m written file rest =>
      cases r <;> simp only [Pc.next, Option.some.injEq, reduceCtorEq] at hnext <;> subst hnext
      · obtain ⟨hordered, hpassed⟩ := passed_write (e := e) m ((List.append_cons written file rest).symm.trans hpc)
        refine ⟨hordered, fun c hc => ?_⟩
        rw [hpassed, List.map_append, ← List.append_assoc, List.mem_append] at hc
        exact hc.imp id fun hc => ⟨congrArg some (List.mem_singleton.mp hc).symm, rfl⟩
      · exact ⟨trivial, by simp [Pc.passed, Except.toOption]⟩
  -- elsewhere an answer leads to one call, whatever the bundle is
  | _ =>
      cases r <;> simp only [Pc.next, Option.some.injEq, reduceCtorEq] at hnext <;> subst hnext <;> first
        | exact ⟨trivial, fun c hc => .inl hc⟩
        | (repeat' split) <;> exact ⟨trivial, by
            simp_all [Pc.passed, Pc.fail, Pc.call, Reply.ok, installed, Except.toOption]⟩

/-- What a call comes after went well before it is asked for. -/
theorem after_passed {c : Call} (hcall : pc.call request = some c) :
    ∃ m, ∀ b ∈ c.after request m, b ∈ pc.passed request := by
  cases pc <;> simp only [Pc.call, Option.some.injEq, reduceCtorEq] at hcall <;> subst hcall
  case writing m _ _ _ => exact ⟨m, fun b hb => List.mem_append_left _ hb⟩
  case closing => exact ⟨⟨"", "", "", ""⟩, fun b hb => absurd hb List.not_mem_nil⟩
  case connecting | docker | proxy => exact ⟨⟨"", "", "", ""⟩, fun b hb => hb⟩
  case removing m _ => exact ⟨m, fun b hb => hb⟩
  all_goals
    rename_i m
    exact ⟨m, fun b hb => hb⟩

/-- The image that is started is there, as far as the engine is told to see to it. -/
def Present (e : DeployEngine) (log : List Event) : Prop :=
  e.image_archive_path = none ∨ .answered .image_inspect true ∈ log ∨ .answered .docker_load true ∈ log

/-- What a host has been asked and answered where it stands. -/
def Pc.Told (e : DeployEngine) (log : List Event) : Pc → Prop
  | .queued | .connecting => .asked .close ∉ log ∧ .answered .connect true ∉ log
  | .removing _ load => .asked .close ∉ log ∧ (load.ok = true → .answered .docker_load true ∈ log)
  | .composing _ => .asked .close ∉ log ∧ Present e log
  | .closing _ => .asked .close ∈ log
  | .finished _ => .answered .connect true ∈ log → .asked .close ∈ log
  | _ => .asked .close ∉ log

/-- What a host is asked and answered from one answer to the next call. -/
def told (request : HostDeployRequest) (pc pc' : Pc) (r : Reply) (log : List Event) : List Event :=
  (pc'.call request).toList.map .asked ++ ((pc.call request).toList.map (.answered · r.ok) ++ log)

theorem close_ne_write (file : String × String) : Call.close ≠ write_call request file := nofun

theorem next_told {log : List Event} (hnext : pc.next e request r = some pc') (htold : pc.Told e log) :
    pc'.Told e (told request pc pc' r log) ∧ ((pc'.call request).isSome → .asked .close ∉ log) := by
  cases pc <;> cases r <;> simp only [Pc.next, Option.some.injEq, reduceCtorEq] at hnext <;> subst hnext
  case preparing | writing.done =>
    unfold Pc.write
    (repeat' split) <;> simp_all [Pc.Told, told, Pc.call, Pc.fail, Present, close_ne_write]
  all_goals
    (repeat' split) <;> simp_all [Pc.Told, told, Pc.call, Pc.fail, Reply.ok, Present]

theorem call_compose_up (hcall : pc.call request = some .compose_up) : ∃ m, pc = .composing m := by
  cases pc <;> first | exact ⟨_, rfl⟩ | nomatch hcall

/-- What the status says at a call. -/
def HostStatus.Shows (status : HostStatus) : Pc → Prop
  | .queued => status.phase = .pending
  | .connecting => status.phase = .connecting
  | .docker _ | .proxy => status.phase = .preflight
  | .minting => status.phase = .minting
  | .preparing m | .writing m _ _ _ | .inspecting m =>
    status.phase = .uploading ∧ status.fingerprint = some m.fingerprint_sha1
  | .uploading m | .loading m | .removing m _ =>
    status.phase = .loading_image ∧ status.fingerprint = some m.fingerprint_sha1
  | .composing m => status.phase = .starting ∧ status.fingerprint = some m.fingerprint_sha1
  | .verifying m => status.phase = .verifying ∧ status.fingerprint = some m.fingerprint_sha1
  | .closing (.ok m) | .finished (.ok m) =>
    status.phase = .succeeded ∧ status.fingerprint = some m.fingerprint_sha1
  | .closing (.error _) => status.phase ≠ .succeeded ∧ status.phase ≠ .failed
  | .finished (.error fault) => status.phase = .failed ∧ status.detail = fault.detail

theorem next_shows {status : HostStatus} (hnext : pc.next e request r = some pc') (hshows : status.Shows pc) :
    (status.enter pc').Shows pc' := by
  cases pc <;> cases r <;> simp only [Pc.next, Option.some.injEq, reduceCtorEq] at hnext <;> subst hnext
  case closing.done outcome => cases outcome <;> simp_all [HostStatus.Shows, HostStatus.enter]
  all_goals
    try unfold Pc.write
    (repeat' split) <;> simp_all [HostStatus.Shows, HostStatus.enter, Pc.fail]

/-- How many answers a host can still wait for. -/
def Pc.left : Pc → ℕ
  | .queued => 18
  | .connecting => 17
  | .docker _ => 16
  | .proxy => 15
  | .minting => 14
  | .preparing _ => 13
  | .writing _ _ _ rest => 8 + rest.length
  | .inspecting _ => 7
  | .uploading _ => 6
  | .loading _ => 5
  | .removing _ _ => 4
  | .composing _ => 3
  | .verifying _ => 2
  | .closing _ => 1
  | .finished _ => 0

theorem next_left (hnext : pc.next e request r = some pc') : pc'.left < pc.left := by
  have hwrite (m : MintedCert) (written rest) : (Pc.write e m written rest).left ≤ 7 + rest.length := by
    unfold Pc.write
    (repeat' split) <;> simp only [Pc.left, List.length_cons, List.length_nil] <;> omega
  cases pc <;> cases r <;> simp only [Pc.next, Option.some.injEq, reduceCtorEq] at hnext <;> subst hnext
  -- the five files of a bundle
  case preparing.result m r =>
    split
    · exact (hwrite m [] _).trans_lt (by simp [build_agent_bundle, Pc.left])
    · simp [Pc.left, Pc.fail]
  case writing.done m written file rest => exact (hwrite m _ rest).trans_lt (by simp only [Pc.left]; omega)
  all_goals
    (repeat' split) <;> simp [Pc.left, Pc.fail]
  all_goals omega

/-- What went before an event of a host. -/
def Follows (e : DeployEngine) (request : HostDeployRequest) (earlier : List Event) : Event → Prop
  | .asked c => .asked .close ∉ earlier ∧ (∃ m, ∀ b ∈ c.after request m, .answered b true ∈ earlier) ∧
      (c = .compose_up → Present e earlier)
  | .answered _ _ => True

/-- What holds of a host wherever it stands. -/
structure HostInv (e : DeployEngine) (h : Host) : Prop where
  ordered : h.pc.Ordered h.request
  passed : ∀ c ∈ h.pc.passed h.request, .answered c true ∈ h.log
  told : h.pc.Told e h.log
  shows : h.status.Shows h.pc
  follows : Always (Follows e h.request) h.log

theorem queue_inv (e : DeployEngine) (request : HostDeployRequest) : HostInv e (.queue request) :=
  ⟨trivial, fun _ hc => absurd hc List.not_mem_nil, ⟨List.not_mem_nil, List.not_mem_nil⟩, rfl, always_nil _⟩

/-- **One answer** keeps it. -/
theorem reply_inv (hreply : h.reply e r = some h') (hinv : HostInv e h) : HostInv e h' ∧ h'.pc.left < h.pc.left := by
  obtain ⟨pc', hnext, rfl⟩ := Option.map_eq_some_iff.mp hreply
  obtain ⟨hordered, hpassed⟩ := next_passed hnext hinv.ordered
  obtain ⟨htold, hclose⟩ := next_told hnext hinv.told
  have hok : ∀ c ∈ pc'.passed h.request, .answered c true ∈ (h.pc.call h.request).toList.map (.answered · r.ok) ++ h.log := by
    intro c hc
    rcases hpassed c hc with hc | ⟨hcall, hok⟩
    · exact List.mem_append_right _ (hinv.passed c hc)
    · exact List.mem_append_left _ (by simp [hcall, hok])
  refine ⟨⟨hordered, fun c hc => List.mem_append_right _ (hok c hc), htold, next_shows hnext hinv.shows, ?_⟩,
    next_left hnext⟩
  have hanswered : Always (Follows e h.request) ((h.pc.call h.request).toList.map (.answered · r.ok) ++ h.log) := by
    cases h.pc.call h.request with
    | none => exact hinv.follows
    | some c => exact always_cons.mpr ⟨trivial, hinv.follows⟩
  cases hcall : pc'.call h.request with
  | none => exact hanswered
  | some c =>
      refine always_cons.mpr ⟨⟨?_, ?_, ?_⟩, hanswered⟩
      · simpa using hclose (by rw [hcall]; rfl)
      · obtain ⟨m, hafter⟩ := after_passed hcall
        exact ⟨m, fun b hb => hok b (hafter b hb)⟩
      · rintro rfl
        obtain ⟨m, rfl⟩ := call_compose_up hcall
        obtain ⟨-, hpresent⟩ := htold
        simpa [Present, told, hcall] using hpresent

/-! ## Runs -/

variable {hosts hosts' : List Host} {label : ℕ × Reply} {tr : List (ℕ × Reply)}

/-- A host that does not run goes on only when it is let in. -/
theorem reply_running (hreply : h.reply e r = some h') (hrunning : h.running = false) : r = .acquired := by
  obtain ⟨pc', hnext, -⟩ := Option.map_eq_some_iff.mp hreply
  rw [Host.running] at hrunning
  split at hrunning <;> rename_i hpc
  · rw [hpc] at hnext
    cases r <;> first | rfl | nomatch hnext
  · rw [hpc] at hnext
    cases r <;> nomatch hnext
  · cases hrunning

/-- One host goes on, and one that had not begun was let in. -/
theorem deploys_step (hstep : (deploys e).step hosts label = some hosts') :
    ∃ before h h' rest, hosts = before ++ h :: rest ∧ hosts' = before ++ h' :: rest ∧ h.reply e label.2 = some h' ∧
      (h.running = false → hosts.countP Host.running < e.max_concurrent) := by
  obtain ⟨i, r⟩ := label
  have hgo : (hosts[i]?.bind fun h => h.reply e r).map (hosts.set i) = some hosts' ∧
      (r = .acquired → hosts.countP Host.running < e.max_concurrent) := by
    simp only [deploys] at hstep
    split at hstep
    · split at hstep
      · exact ⟨hstep, fun _ => ‹_›⟩
      · cases hstep
    · exact ⟨hstep, fun heq => absurd heq (by assumption)⟩
  obtain ⟨⟨h', hget, rfl⟩, hroom⟩ := hgo.imp_left Option.map_eq_some_iff.mp
  obtain ⟨h, hget, hreply⟩ := Option.bind_eq_some_iff.mp hget
  obtain ⟨hi, rfl⟩ := List.getElem?_eq_some_iff.mp hget
  obtain ⟨before, rest, hhosts, -, hset⟩ : ∃ before rest, hosts = before ++ hosts[i] :: rest ∧ before.length = i ∧
      hosts.set i h' = before ++ h' :: rest := List.exists_of_set hi
  exact ⟨before, hosts[i], h', rest, hhosts, hset, hreply, fun hrunning => hroom (reply_running hreply hrunning)⟩

/-- What every run keeps. -/
theorem deploys_kept (htr : (deploys e).Trace tr hosts) :
    (∀ h ∈ hosts, HostInv e h) ∧ hosts.countP Host.running ≤ e.max_concurrent ∧
      tr.length + (hosts.map (·.pc.left)).sum ≤ 18 * hosts.length := by
  refine System.Trace.induct (P := fun tr hosts => (∀ h ∈ hosts, HostInv e h) ∧
    hosts.countP Host.running ≤ e.max_concurrent ∧ tr.length + (hosts.map (·.pc.left)).sum ≤ 18 * hosts.length) ?_ ?_ htr
  · rintro _ ⟨requests, rfl⟩
    refine ⟨List.forall_mem_map.mpr fun request _ => queue_inv e request, ?_, ?_⟩
    · rw [List.countP_map]
      exact (List.countP_eq_zero.mpr fun _ _ => Bool.false_ne_true).trans_le (Nat.zero_le _)
    · simp [Function.comp_def, Host.queue, Pc.left, mul_comm]
  · intro tr hosts label hosts' _ ⟨hinv, hroom, hleft⟩ hstep
    obtain ⟨before, h, h', rest, rfl, rfl, hreply, hlet⟩ := deploys_step hstep
    obtain ⟨hinv', hless⟩ := reply_inv hreply (hinv h (by simp))
    refine ⟨?_, ?_, ?_⟩
    · simp only [List.forall_mem_append, List.forall_mem_cons] at hinv ⊢
      exact ⟨hinv.1, hinv', hinv.2.2⟩
    · -- one host changes, and if it begins to run there was room for it
      simp only [List.countP_append, List.countP_cons] at hroom hlet ⊢
      split <;> cases hrunning : h.running <;> simp_all <;> omega
    · simp only [List.length_append, List.length_cons, List.length_nil, List.map_append, List.map_cons, List.sum_append,
        List.sum_cons] at hleft ⊢
      omega

/-- **The order of a deploy.** -/
theorem deploy_order (htr : (deploys e).Trace tr hosts) : ∀ h ∈ hosts, Always (Follows e h.request) h.log :=
  fun h hh => ((deploys_kept htr).1 h hh).follows

def sample_engine : DeployEngine := ⟨some "/srv/agent-image.tgz", 1⟩

def sample_request : HostDeployRequest :=
  ⟨"192.0.2.7", none, ⟨"nas", "192.0.2.1", "host_id: nas", "services:"⟩, "/opt/fathom-agent"⟩

/-- The target has no image, and its archive stays. -/
def sample_answers : List (ℕ × Reply) :=
  let ok := Reply.result ⟨0, [], []⟩
  let failed := Reply.result ⟨1, [], []⟩
  [.acquired, .session "SHA256:k", ok, ok, .minted ⟨"key", "cert", "ca", "f1"⟩, ok, .done, .done, .done, .done, .done,
    failed, .done, ok, failed, ok, ok, .done].map (0, ·)

def sample_hosts : List Host := ((deploys sample_engine).run [.queue sample_request] sample_answers).getD []

theorem sample_trace : (deploys sample_engine).Trace sample_answers sample_hosts := ⟨_, ⟨[sample_request], rfl⟩, rfl⟩

theorem deploy_order_sample : ∃ h ∈ sample_hosts, Always (Follows sample_engine h.request) h.log :=
  ⟨_, List.mem_cons_self, deploy_order sample_trace _ List.mem_cons_self⟩

/-- What is done waits for its session to be closed at most. -/
theorem done_cases {status : HostStatus} (hshows : status.Shows pc) (hdone : status.done = true) :
    (∃ outcome, pc = .finished outcome) ∨ ∃ m, pc = .closing (.ok m) := by
  cases pc with
  | finished outcome => exact .inl ⟨outcome, rfl⟩
  | closing outcome =>
      cases outcome with
      | ok m => exact .inr ⟨m, rfl⟩
      | error fault => simp_all [HostStatus.Shows, HostStatus.done]
  | _ => simp_all [HostStatus.Shows, HostStatus.done]

/-- **A deploy that succeeded.** -/
theorem deploy_succeeded (htr : (deploys e).Trace tr hosts) (hh : h ∈ hosts) (hphase : h.status.phase = .succeeded) :
    .asked .close ∈ h.log ∧ ∃ m, h.status.fingerprint = some m.fingerprint_sha1 ∧
      ∀ c ∈ installed h.request m, .answered c true ∈ h.log := by
  obtain ⟨-, hpassed, htold, hshows, -⟩ := (deploys_kept htr).1 h hh
  rcases done_cases hshows (by rw [HostStatus.done, hphase]; rfl) with ⟨outcome, hpc⟩ | ⟨m, hpc⟩ <;>
    rw [hpc] at hpassed htold hshows
  · cases outcome with
    | ok m =>
        have hopened := hpassed .connect (by simp [Pc.passed, Except.toOption, installed, prepared])
        exact ⟨htold hopened, m, hshows.2, hpassed⟩
    | error fault => exact absurd (hphase.symm.trans hshows.1) (by decide)
  · exact ⟨htold, m, hshows.2, hpassed⟩

theorem deploy_succeeded_sample : ∃ h ∈ sample_hosts, .asked .close ∈ h.log ∧ ∃ m,
    h.status.fingerprint = some m.fingerprint_sha1 ∧ ∀ c ∈ installed h.request m, .answered c true ∈ h.log :=
  ⟨_, List.mem_cons_self, deploy_succeeded sample_trace List.mem_cons_self rfl⟩

/-- A host that runs can be answered. -/
theorem running_reply (e : DeployEngine) (hrunning : h.running = true) : h.reply e (.raised (.other "")) ≠ none := by
  cases hpc : h.pc <;> simp_all [Host.running, Host.reply, Pc.next]

/-- **A batch comes to an end.** -/
theorem deploy_settles (htr : (deploys e).Trace tr hosts) (hmax : 0 < e.max_concurrent) :
    tr.length ≤ 18 * hosts.length ∧ hosts.countP Host.running ≤ e.max_concurrent ∧
      (complete hosts = true → ∀ h ∈ hosts, h.running = true → h.pc.call h.request = some .close) ∧
      ((∀ label, (deploys e).step hosts label = none) → complete hosts = true ∧ ∀ h ∈ hosts,
        .answered .connect true ∈ h.log → .asked .close ∈ h.log) := by
  obtain ⟨hinv, hroom, hleft⟩ := deploys_kept htr
  refine ⟨by omega, hroom, fun hcomplete h hh hrunning => ?_, fun hstuck => ?_⟩
  · rcases done_cases (hinv h hh).shows (List.all_eq_true.mp hcomplete h hh) with ⟨outcome, hpc⟩ | ⟨m, hpc⟩
    · rw [Host.running, hpc] at hrunning
      cases hrunning
    · rw [hpc]
      rfl
  have hstop {h : Host} (hh : h ∈ hosts) {r : Reply} (hstep : ∀ i, (deploys e).step hosts (i, r) =
      (hosts[i]?.bind fun h => h.reply e r).map (hosts.set i)) : h.reply e r = none := by
    obtain ⟨i, hi⟩ := List.mem_iff_getElem?.mp hh
    have hnone := hstuck (i, r)
    rwa [hstep, hi, Option.bind_some, Option.map_eq_none_iff] at hnone
  -- what runs can be answered, so nothing runs; then there is room, and nothing waits
  have hquiet : ∀ h ∈ hosts, ¬h.running = true := fun h hh hrunning => running_reply e hrunning (hstop hh fun i => rfl)
  have hidle : hosts.countP Host.running < e.max_concurrent := by rwa [List.countP_eq_zero.mpr hquiet]
  have hfinished : ∀ h ∈ hosts, ∃ outcome, h.pc = .finished outcome := by
    intro h hh
    have hnone := Option.map_eq_none_iff.mp (hstop hh (r := .acquired) fun i => by simp only [deploys, if_pos hidle])
    have hquiet := hquiet h hh
    rw [Host.running] at hquiet
    cases hpc : h.pc <;> rw [hpc] at hnone hquiet <;> first
      | exact ⟨_, rfl⟩
      | exact absurd rfl hquiet
      | cases hnone
  constructor
  · refine List.all_eq_true.mpr fun h hh => ?_
    obtain ⟨outcome, hpc⟩ := hfinished h hh
    have hshows := (hinv h hh).shows
    rw [hpc] at hshows
    cases outcome <;> simp [HostStatus.done, hshows.1]
  · intro h hh
    obtain ⟨outcome, hpc⟩ := hfinished h hh
    have htold := (hinv h hh).told
    rwa [hpc] at htold

theorem deploy_settles_sample : sample_answers.length ≤ 18 * sample_hosts.length ∧ sample_hosts.countP Host.running ≤ 1 ∧
    (complete sample_hosts = true → ∀ h ∈ sample_hosts, h.running = true → h.pc.call h.request = some .close) ∧
    ((∀ label, (deploys sample_engine).step sample_hosts label = none) → complete sample_hosts = true ∧
      ∀ h ∈ sample_hosts, .answered .connect true ∈ h.log → .asked .close ∈ h.log) :=
  deploy_settles sample_trace Nat.one_pos

end

end Fathom.Deploy.Engine
