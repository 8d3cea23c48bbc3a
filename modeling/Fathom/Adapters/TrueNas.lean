/-
**The session of the TrueNAS adapter** (`adapters/truenas.py`).

The adapter logs in once, when it opens its session, and again whenever the client has
connected anew. That it has logged in it keeps in a flag, and the flag says nothing of the
connection there is now: a reconnect or a login that fails leaves it set. A later call then
goes out on a connection without a login. `session_iff` says when it does not.

What the client does with ids, second sends and refusals is right in every run.
-/
import Fathom.Adapters.JsonRpc
import Fathom.Lib.System

set_option autoImplicit false

namespace Fathom.Adapters

open Fathom.Interaction
open Fathom.Json (Value)

/-- `AdapterConfig`, as far as a session reads it, and what the adapter was given. -/
structure AdapterConfig where
  /-- The scheme of the endpoint is `unix`. -/
  unix : Bool
  api_version : String
  api_key_ref : Option String
  secret_provider : Option (String → Except Fault String)
  /-- A transport was passed in. -/
  injected : Bool
  /-- The extra that the transport needs is installed. -/
  websockets : Bool

/-- `auth.login_with_api_key`. -/
def LOGIN : String := "auth.login_with_api_key"

/-- `_resolve_api_key`. -/
def resolve_api_key (cfg : AdapterConfig) : Run (Option String) :=
  match cfg.api_key_ref, cfg.secret_provider with
  | none, _ => pure none
  | some _, none => Prog.raise .unavailable
  | some ref, some provider =>
    match provider ref with
    | .error e => Prog.raise e
    | .ok key => pure (some key)

/-- The transport of a new client: the one passed in, or a new one. -/
def build_transport (cfg : AdapterConfig) : Run Unit :=
  if cfg.injected then pure ()
  else do
    let _ ← resolve_api_key cfg
    if cfg.websockets then Prog.change drop else Prog.raise .unavailable

/-- `_build_client`, and the client is held. -/
def build_client (cfg : AdapterConfig) : Run Unit := do
  build_transport cfg
  Prog.change fun w => { w with client := { serial := w.client.serial + 1 }, held := true }

/-- `_authenticate`. -/
def authenticate (cfg : AdapterConfig) (on_reconnect : Run Unit) : Run Unit := do
  if cfg.unix && cfg.api_key_ref.isNone then pure ()
  else
    let api_key ← resolve_api_key cfg
    match api_key with
    | none => pure ()
    | some key =>
      let _ ← call on_reconnect LOGIN (.arr [.str key])
      pure ()

/-- `_reauthenticate`, which may be run inside itself so many times. It never is
(`reauthenticate_depth`). -/
def reauthenticate (cfg : AdapterConfig) : ℕ → Run Unit
  | 0 => Prog.raise .other
  | depth + 1 => do
    let held ← Prog.look World.held
    if held then authenticate cfg (reauthenticate cfg depth) else pure ()

/-- A call of the client that the adapter has built. -/
def client_call (cfg : AdapterConfig) (method : String) (params : Value) : Run Value :=
  call (reauthenticate cfg 1) method params

/-- The client, built when there is none. -/
def hold_client (cfg : AdapterConfig) : Run Unit := do
  let held ← Prog.look World.held
  if held then pure () else build_client cfg

/-- `_session`. -/
def session (cfg : AdapterConfig) : Run Unit := do
  hold_client cfg
  connect
  let authenticated ← Prog.look World.authenticated
  if authenticated then pure ()
  else
    authenticate cfg (reauthenticate cfg 1)
    Prog.change fun w => { w with authenticated := true }

/-- `_negotiate_version`. -/
def negotiate_version (cfg : AdapterConfig) : Run String :=
  Prog.attempt
    (do
      let raw ← client_call cfg "core.get_jsonrpc_version" (.arr [])
      match raw with
      | .str s => pure (if s = "" then cfg.api_version else s)
      | _ => pure cfg.api_version)
    fun e => if e = .unavailable then pure cfg.api_version else Prog.raise e

/-- `probe`: whether the API is available. -/
def probe (cfg : AdapterConfig) : Run Bool :=
  Prog.attempt
    (do
      session cfg
      let version ← negotiate_version cfg
      Prog.change fun w => { w with negotiated := some version }
      pure true)
    fun e => if e = .unavailable then pure false else Prog.raise e

/-- The rows a method reads; how they are mapped is no matter of the session. -/
def query (cfg : AdapterConfig) (method : String) (params : Value) : Run Value := do
  session cfg
  client_call cfg method params

/-- `close`. -/
def close : Run Unit := do
  let held ← Prog.look World.held
  if held then
    client_close
    Prog.change fun w => { w with held := false, authenticated := false }
  else pure ()

/-- The methods of the adapter. -/
inductive Method where
  | probe
  | list_pools
  | list_disks
  | volume_usage (mountpoint : String)
  | is_array_healthy (pool : String)
  | close
  deriving DecidableEq

/-- The query a method makes. -/
def Method.query : Method → Option (String × Value)
  | .list_pools | .is_array_healthy _ => some ("pool.query", .arr [])
  | .list_disks => some ("disk.query", .arr [])
  | .volume_usage mountpoint =>
    some ("pool.dataset.query", .arr [.arr [.arr [.str "mountpoint", .str "=", .str mountpoint]]])
  | .probe | .close => none

def perform (cfg : AdapterConfig) : Method → Run Unit
  | .probe => do
    let _ ← probe cfg
    pure ()
  | .close => close
  | method =>
    match method.query with
    | none => pure ()
    | some (name, params) => do
      let _ ← query cfg name params
      pure ()

/-- A method that is called, and what the transport will answer. -/
structure Step where
  method : Method
  answers : List Answer

/-- The method has come to an end. -/
def World.finish (w : World) : Outcome Fault Unit → World
  | .done _ => w.emit (.ended none)
  | .raised e => w.emit (.ended (some e))
  | .waiting => { w with waiting := true }

/-- Methods are called one after the other. -/
def adapter (cfg : AdapterConfig) : System World Step where
  init := fun w => w = {}
  step := fun w step =>
    if w.waiting then none
    else
      let out := perform cfg step.method { w with answers := step.answers }
      some (out.2.finish out.1)

/-! ## What a session should be -/

/-- The connection there was last has a login that succeeded: a login that is refused is
answered by an error, as `_authenticate` says. -/
def logged_in : List Event → Bool
  | [] => false
  | .opened :: _ => false
  | .answered req _ :: earlier => decide (req.method = LOGIN) || logged_in earlier
  | .sent _ :: earlier => logged_in earlier
  | .received _ _ :: earlier => logged_in earlier
  | .ended _ :: earlier => logged_in earlier

/-- Only the login goes out without one. -/
def Event.entitled (earlier : List Event) : Event → Prop
  | .sent req => req.method = LOGIN ∨ logged_in earlier = true
  | _ => True

/-- **The session.** -/
structure SessionHolds (log : List Event) : Prop where
  /-- Only the login is sent on a connection on which none has succeeded. -/
  authenticated : Always Event.entitled log
  /-- A call returns the result of a frame that carries its id. -/
  own : Always Event.own log
  /-- A request is sent twice at most. -/
  twice : ∀ client id, log.countP (Event.sends client id) ≤ 2
  /-- After an error of the authentication class the next thing is that it is raised. -/
  surfaces : Always Event.surfaces log ∧ ¬Refused log

/-- **What it takes** of the state a method is called in: that the flag is not set while the
connection there is has no login, or while there is none, the client knows it, and the
method comes to open one. -/
def Settled (w : World) (step : Step) : Prop :=
  step.method = .close ∨ w.authenticated = false ∨
    if w.live then logged_in w.log = true else w.client.connected = true ∨ ¬Reached step.answers

/-! ## Ids, second sends and refusals -/

section

variable {cfg : AdapterConfig}

theorem resolve_api_key_calm (cfg : AdapterConfig) : CalmProg (resolve_api_key cfg) := by
  intro start limit
  rw [resolve_api_key]
  rcases cfg.api_key_ref with _ | ref
  · exact Spec.ret fun w hw => hw
  · rcases cfg.secret_provider with _ | provider
    · exact calm_raise fun w hw => hw
    · dsimp only
      rcases provider ref with e | key
      · exact calm_raise fun w hw => hw
      · exact Spec.ret fun w hw => hw

/-- A new client has no request yet. -/
theorem Calm.build {start : List Event} {limit : ℕ → ℕ → ℕ} {w : World} (h : Calm start limit w) :
    Calm start limit { w with client := { serial := w.client.serial + 1 }, held := true } := by
  refine ⟨⟨h.1.grows, h.1.own, h.1.surfaces, h.1.sends, fun client id hun => h.1.unissued client id ?_⟩, h.2⟩
  left
  replace hun : Unissued (w.client.serial + 1) 1 client id := hun
  rcases hun with hun | ⟨heq, -⟩ <;> omega

theorem build_transport_calm (cfg : AdapterConfig) : CalmProg (build_transport cfg) := by
  intro start limit
  rw [build_transport]
  split
  · exact Spec.ret fun w hw => hw
  · refine Spec.bind (resolve_api_key_calm cfg start limit) fun _ => ?_
    split
    · exact Spec.change fun w hw => hw
    · exact calm_raise fun w hw => hw

theorem build_client_calm (cfg : AdapterConfig) : CalmProg (build_client cfg) := fun start limit =>
  Spec.bind (build_transport_calm cfg start limit) fun _ => Spec.change fun _ hw => hw.build

theorem hold_client_calm (cfg : AdapterConfig) : CalmProg (hold_client cfg) := by
  intro start limit
  refine Spec.look fun held => ?_
  split
  · exact Spec.ret fun w hw => hw.1
  · exact (build_client_calm cfg start limit).pre fun w hw => hw.1

theorem authenticate_calm (cfg : AdapterConfig) {on_reconnect : Run Unit} (h : CalmProg on_reconnect) :
    CalmProg (authenticate cfg on_reconnect) := by
  intro start limit
  rw [authenticate]
  split
  · exact Spec.ret fun w hw => hw
  · refine Spec.bind (resolve_api_key_calm cfg start limit) fun api_key => ?_
    rcases api_key with _ | key
    · exact Spec.ret fun w hw => hw
    · exact Spec.bind (call_calm h _ _ start limit) fun _ => Spec.ret fun w hw => hw

theorem reauthenticate_calm (cfg : AdapterConfig) (depth : ℕ) : CalmProg (reauthenticate cfg depth) := by
  induction depth with
  | zero => exact fun start limit => calm_raise fun w hw => hw
  | succ depth ih =>
    intro start limit
    refine Spec.look fun held => ?_
    split
    · exact (authenticate_calm cfg ih start limit).pre fun w hw => hw.1
    · exact Spec.ret fun w hw => hw.1

/-- It calls itself once at most: deeper inside, the guard keeps it from being called. -/
theorem reauthenticate_depth (cfg : AdapterConfig) (depth : ℕ) {w : World} (hw : Guarded w) :
    reauthenticate cfg (depth + 1) w = reauthenticate cfg 1 w := by
  have hcall : ∀ key s, Guarded s → call (reauthenticate cfg depth) LOGIN (.arr [.str key]) s =
      call (reauthenticate cfg 0) LOGIN (.arr [.str key]) s := fun key s hs => call_guarded _ _ _ _ hs
  have hauth : ∀ s, Guarded s → authenticate cfg (reauthenticate cfg depth) s = authenticate cfg (reauthenticate cfg 0) s := by
    intro s hs
    rw [authenticate, authenticate]
    split
    · rfl
    · have hkeep : Keeps Guarded (resolve_api_key cfg) := by
        rw [resolve_api_key]
        split
        · exact fun _ h => h
        · exact fun _ h => h
        · split <;> exact fun _ h => h
      refine Prog.bind_congr hkeep (fun api_key s hs => ?_) hs
      rcases api_key with _ | key
      · rfl
      · change Prog.andThen _ _ s = Prog.andThen _ _ s
        rw [Prog.andThen, Prog.andThen, hcall key s hs]
  change (if w.held = true then _ else (pure () : Run Unit)) w = (if w.held = true then _ else (pure () : Run Unit)) w
  split
  · exact hauth w hw
  · rfl

theorem client_call_calm (cfg : AdapterConfig) (method : String) (params : Value) : CalmProg (client_call cfg method params) :=
  call_calm (reauthenticate_calm cfg 1) method params

theorem session_calm (cfg : AdapterConfig) : CalmProg (session cfg) := by
  intro start limit
  refine Spec.bind (hold_client_calm cfg start limit) fun _ => ?_
  refine Spec.bind connect_calm fun _ => Spec.look fun authenticated => ?_
  split
  · exact Spec.ret fun w hw => hw.1
  · refine Spec.bind ((authenticate_calm cfg (reauthenticate_calm cfg 1) start limit).pre fun w hw => hw.1) fun _ => ?_
    exact Spec.change fun w hw => hw

/-- What is no refusal may be taken for a result. -/
theorem calm_rescue {P : World → Prop} {start : List Event} {limit : ℕ → ℕ → ℕ} {α : Type} {m : Run α} {a : α}
    (h : Spec P m (calm start limit)) :
    Spec P (m.attempt fun e => if e = .unavailable then pure a else Prog.raise e) (calm start limit) :=
  Spec.rescue h fun _ hw => ⟨hw.1, hw.2 fun hne => nomatch hne⟩

/-- A method that is not `close` opens the session and makes one call. -/
theorem perform_call (cfg : AdapterConfig) {method : Method} (hmethod : method ≠ .close) :
    ∃ name params, name ≠ LOGIN ∧ ∀ (P P' : World → Prop) (start : List Event) (limit : ℕ → ℕ → ℕ),
      Spec P (session cfg) ⟨fun _ => P', calm_raised start limit, Calm start limit⟩ →
      Spec P' (client_call cfg name params) (calm start limit) → Spec P (perform cfg method) (calm start limit) := by
  have hquery : ∀ name params (P P' : World → Prop) (start : List Event) (limit : ℕ → ℕ → ℕ),
      Spec P (session cfg) ⟨fun _ => P', calm_raised start limit, Calm start limit⟩ →
      Spec P' (client_call cfg name params) (calm start limit) →
      Spec P (do let _ ← query cfg name params; pure ()) (calm start limit) :=
    fun name params P P' start limit hsession hcall =>
      Spec.bind (Spec.bind hsession fun _ => hcall) fun _ => Spec.ret fun w hw => hw
  cases method with
  | probe =>
    refine ⟨"core.get_jsonrpc_version", .arr [], by decide, fun P P' start limit hsession hcall => ?_⟩
    refine Spec.bind (calm_rescue (Spec.bind hsession fun _ => ?_)) fun _ => Spec.ret fun w hw => hw
    refine Spec.bind (D := fun _ => Calm start limit) (calm_rescue (Spec.bind hcall fun raw => ?_)) fun version => ?_
    · split <;> exact Spec.ret fun w hw => hw
    · exact Spec.bind (D := fun _ => Calm start limit) (Spec.change fun w hw => hw) fun _ => Spec.ret fun w hw => hw
  | close => exact absurd rfl hmethod
  | list_pools => exact ⟨_, _, by decide, hquery _ _⟩
  | list_disks => exact ⟨_, _, by decide, hquery _ _⟩
  | volume_usage mountpoint => exact ⟨"pool.dataset.query", _, by decide, hquery _ _⟩
  | is_array_healthy pool => exact ⟨_, _, by decide, hquery _ _⟩

theorem close_calm : CalmProg close := by
  intro start limit
  refine Spec.look fun held => ?_
  split
  · refine Spec.bind ((client_close_calm start limit).pre fun w hw => hw.1) fun _ => ?_
    exact Spec.change fun w hw => hw
  · exact Spec.ret fun w hw => hw.1

theorem perform_calm (cfg : AdapterConfig) (method : Method) : CalmProg (perform cfg method) := by
  intro start limit
  by_cases hmethod : method = .close
  · rw [hmethod]
    exact close_calm start limit
  · obtain ⟨name, params, -, hperform⟩ := perform_call cfg hmethod
    exact hperform _ _ start limit (session_calm cfg start limit) (client_call_calm cfg name params start limit)

end

/-! ## Logins

`Entitled` is kept wherever a program of the adapter comes to, and `Ready` is what lets a
request other than the login be sent. -/

/-- What was sent was entitled, there is a client, and the two flags are as said. -/
structure Entitled (authenticated guard : Bool) (w : World) : Prop where
  log : Always Event.entitled w.log
  held : w.held = true
  flag : w.authenticated = authenticated
  guard : w.client.reauthenticating = guard

/-- The client has a connection, and a login on it, or it does not know yet that it has none. -/
def Ready (w : World) : Prop := w.client.connected = true ∧ (w.live = true → logged_in w.log = true)

/-- A postcondition for a return, and `Entitled` at the other ends. -/
def entitled (a b : Bool) {α : Type} (D : α → World → Prop) : Post World Fault α where
  done := D
  raised := fun _ => Entitled a b
  waiting := fun w => Always Event.entitled w.log

/-- A request for a method may be sent. -/
def Sending (a b : Bool) (method : String) (w : World) : Prop :=
  Entitled a b w ∧ w.client.connected = true ∧ (method = LOGIN ∨ (w.live = true → logged_in w.log = true))

section

variable {a b : Bool} {w : World} {req : Request}

theorem Entitled.emit (h : Entitled a b w) {e : Event} (he : e.entitled w.log) : Entitled a b (w.emit e) :=
  ⟨always_cons.mpr ⟨he, h.log⟩, h.held, h.flag, h.guard⟩

theorem Entitled.same {w' : World} (h : Entitled a b w) (hlog : w'.log = w.log) (hheld : w'.held = w.held)
    (hflag : w'.authenticated = w.authenticated) (hguard : w'.client.reauthenticating = w.client.reauthenticating) :
    Entitled a b w' :=
  ⟨hlog ▸ h.log, hheld ▸ h.held, hflag ▸ h.flag, hguard ▸ h.guard⟩

theorem next_answer_entitled {I : World → Prop} (hanswers : ∀ w rest, I w → I { w with answers := rest })
    (hI : ∀ w, I w → Entitled a b w) : Spec I next_answer (entitled a b fun _ => I) :=
  (next_answer_spec hanswers).post (fun _ _ h => h) (fun _ w h => hI w h) fun w h => (hI w h).log

theorem transport_connect_entitled : Spec (Entitled a b) transport_connect (entitled a b fun _ => Entitled a b) := by
  refine Spec.look fun live => ?_
  split
  · exact Spec.ret fun w hw => hw.1
  · refine Spec.bind ((next_answer_entitled (fun w _ h => h.same rfl rfl rfl rfl) fun w h => h).pre fun w hw => hw.1) fun answer => ?_
    split
    · exact Spec.raise fun w hw => hw
    · exact Spec.change fun w hw => (hw.emit (e := .opened) trivial).same rfl rfl rfl rfl

theorem connect_with_backoff_entitled (n : ℕ) :
    Spec (Entitled a b) (connect_with_backoff n) (entitled a b fun _ => Entitled a b) := by
  induction n with
  | zero => exact Spec.raise fun w hw => hw
  | succ n ih =>
    refine Spec.attempt transport_connect_entitled fun e => ?_
    split
    · exact ih
    · exact Spec.raise fun w hw => hw

theorem connect_entitled :
    Spec (Entitled a b) connect (entitled a b fun _ w => Entitled a b w ∧ w.client.connected = true) := by
  refine Spec.look fun connected => ?_
  by_cases hconnected : connected = true
  · rw [if_pos hconnected]
    exact Spec.ret fun w hw => ⟨hw.1, hw.2.trans hconnected⟩
  · rw [if_neg hconnected]
    refine Spec.bind ((connect_with_backoff_entitled _).pre fun w hw => hw.1) fun _ => ?_
    exact Spec.change fun w hw => ⟨hw.same rfl rfl rfl rfl, rfl⟩

/-- A client that thinks it is connected does nothing. -/
theorem connect_ready : Spec (fun w => Entitled a b w ∧ Ready w) connect (entitled a b fun _ w => Entitled a b w ∧ Ready w) := by
  refine Spec.look fun connected => ?_
  by_cases hconnected : connected = true
  · rw [if_pos hconnected]
    exact Spec.ret fun w hw => hw.1
  · rw [if_neg hconnected]
    intro w hw
    exact absurd (hw.2.symm.trans hw.1.2.1) hconnected

theorem transport_send_entitled : Spec (Sending a b req.method) (transport_send req) (entitled a b fun _ => Sending a b req.method) := by
  refine Spec.look fun live => ?_
  by_cases hlive : live = true
  · rw [if_pos hlive]
    refine Spec.bind (D := fun _ => Sending a b req.method) (Spec.change fun w hw => ?_) fun _ => ?_
    · obtain ⟨⟨hent, hconnected, hready⟩, heq⟩ := hw
      refine ⟨hent.emit ?_, hconnected, hready⟩
      exact hready.imp_right fun h => h (heq.trans hlive)
    · refine Spec.bind (next_answer_entitled (fun w _ h => ⟨h.1.same rfl rfl rfl rfl, h.2⟩) fun w h => h.1) fun answer => ?_
      split
      · refine Spec.bind (D := fun _ => Entitled a b) (Spec.change fun w hw => hw.1.same rfl rfl rfl rfl) fun _ => ?_
        exact Spec.raise fun w hw => hw
      · exact Spec.ret fun w hw => hw
  · rw [if_neg hlive]
    exact Spec.raise fun w hw => hw.1.1

theorem read_reply_entitled (answers : List Answer) :
    Spec (Sending a b req.method) (read_reply req answers) (entitled a b fun _ => Sending a b req.method) := by
  induction answers with
  | nil => exact fun w hw => hw.1.log
  | cons answer rest ih =>
    intro w hw
    rcases answer with _ | frame
    · exact hw.1.same rfl rfl rfl rfl
    · have hnext : Sending a b req.method { w.emit (.received req frame) with answers := rest } :=
        ⟨(hw.1.emit (e := .received req frame) trivial).same rfl rfl rfl rfl, hw.2⟩
      rcases frame with _ | _ | ⟨id, body⟩
      · exact hnext.1
      · exact hnext.1
      · dsimp only [read_reply]
        split
        · rcases body with value | code | _
          · exact hnext
          · dsimp only [unwrap]
            split <;> exact hnext.1
          · exact hnext.1
        · exact ih _ hnext

theorem send_and_read_entitled : Spec (Sending a b req.method) (send_and_read req) (entitled a b fun _ => Sending a b req.method) :=
  Spec.bind transport_send_entitled fun _ w hw => read_reply_entitled w.answers w hw

theorem new_request_entitled {method : String} (params : Value) :
    Spec (Sending a b method) (new_request method params) (entitled a b fun req w => req.method = method ∧ Sending a b method w) :=
  fun _ hw => ⟨rfl, hw.1.same rfl rfl rfl rfl, hw.2⟩

end

section

variable {a b : Bool} {req : Request} {on_reconnect : Run Unit}

/-- What the method that logs in again comes to. -/
def LogsIn (a : Bool) (m : Run Unit) : Prop :=
  Spec (Entitled a true) m (entitled a true fun _ w => Entitled a true w ∧ Ready w)

/-- After a reconnect there is a login, but for the one that the guard keeps from calling
itself, and that one is the login. -/
theorem reauthenticate_once_entitled (h : LogsIn a on_reconnect) :
    Spec (fun w => Entitled a b w ∧ w.client.connected = true) (reauthenticate_once on_reconnect)
      (entitled a b fun _ w => Entitled a b w ∧ w.client.connected = true ∧ (b = false → Ready w)) := by
  refine Spec.look fun guard => ?_
  by_cases hguard : guard = true
  · rw [if_pos hguard]
    refine Spec.ret fun w hw => ⟨hw.1.1, hw.1.2, fun hb => ?_⟩
    have heq : b = true := hw.1.1.guard.symm.trans (hw.2.trans hguard)
    rw [hb] at heq
    exact absurd heq Bool.false_ne_true
  · rw [if_neg hguard]
    have hb : ∀ w, (Entitled a b w ∧ w.client.connected = true) ∧ w.client.reauthenticating = guard → b = false := by
      intro w hw
      rw [← hw.1.1.guard, hw.2]
      exact Bool.not_eq_true _ ▸ hguard
    intro w hw
    obtain rfl := hb w hw
    have hset : Spec (Entitled a false) (Prog.change (World.set_reauthenticating true)) (entitled a false fun _ => Entitled a true) :=
      Spec.change fun w hw => ⟨hw.log, hw.held, hw.flag, rfl⟩
    refine Spec.bind hset (fun _ => ?_) w hw.1.1
    refine Spec.always (h.post (fun _ w hw => ?_) (fun _ w hw => ?_) fun w hw => hw)
    · exact ⟨⟨hw.1.log, hw.1.held, hw.1.flag, rfl⟩, hw.2.1, fun _ => hw.2⟩
    · exact ⟨hw.log, hw.held, hw.flag, rfl⟩

theorem reconnect_and_retry_entitled (h : LogsIn a on_reconnect) (hguarded : b = true → req.method = LOGIN) :
    Spec (Entitled a b) (reconnect_and_retry on_reconnect req) (entitled a b fun _ => Sending a b req.method) := by
  refine Spec.bind (D := fun _ => Entitled a b) (Spec.change fun w hw => hw.same rfl rfl rfl rfl) fun _ => ?_
  refine Spec.bind connect_entitled fun _ => ?_
  refine Spec.bind (reauthenticate_once_entitled h) fun _ => ?_
  refine send_and_read_entitled.pre fun w hw => ⟨hw.1, hw.2.1, ?_⟩
  cases b with
  | true => exact Or.inl (hguarded rfl)
  | false => exact Or.inr (hw.2.2 rfl).2

theorem exchange_entitled (h : LogsIn a on_reconnect) (hguarded : b = true → req.method = LOGIN) :
    Spec (Sending a b req.method) (exchange on_reconnect req)
      (entitled a b fun _ w => Sending a b req.method w ∧ (req.method = LOGIN → logged_in w.log = true)) := by
  refine Spec.bind (D := fun _ => Sending a b req.method) (Spec.attempt send_and_read_entitled fun e => ?_) fun value => ?_
  · split
    · exact reconnect_and_retry_entitled h hguarded
    · exact Spec.raise fun w hw => hw
  · refine Spec.bind (D := fun _ w => Sending a b req.method w ∧ (req.method = LOGIN → logged_in w.log = true))
      (Spec.change fun w hw => ?_) fun _ => Spec.ret fun w hw => hw
    refine ⟨⟨hw.1.emit (e := .answered req value) trivial, hw.2.1, ?_⟩, fun hlogin => ?_⟩
    · refine hw.2.2.imp_right fun hlogged hlive => ?_
      rw [World.emit, logged_in, hlogged hlive, Bool.or_true]
    · rw [World.emit, logged_in, decide_eq_true hlogin, Bool.true_or]

/-- The login may be sent at any time, and a connection has it when the call returns. -/
theorem call_login (h : LogsIn a on_reconnect) (params : Value) :
    Spec (Entitled a b) (call on_reconnect LOGIN params) (entitled a b fun _ w => Entitled a b w ∧ Ready w) := by
  rw [call_eq]
  refine Spec.bind connect_entitled fun _ => ?_
  refine Spec.bind ((new_request_entitled params).pre fun w hw => ⟨hw.1, hw.2, Or.inl rfl⟩) fun req => ?_
  rintro w ⟨hmethod, hw⟩
  have hlogin : Spec (Sending a b req.method) (exchange on_reconnect req) (entitled a b fun _ w => Entitled a b w ∧ Ready w) := by
    refine (exchange_entitled h fun _ => hmethod).post (fun _ w hw => ?_) (fun _ _ hw => hw) fun _ hw => hw
    exact ⟨hw.1.1, hw.1.2.1, fun _ => hw.2 hmethod⟩
  rw [← hmethod] at hw
  exact hlogin w hw

/-- Another request is sent by a client that is ready. -/
theorem call_entitled (h : LogsIn a on_reconnect) (method : String) (params : Value) :
    Spec (fun w => Entitled a false w ∧ Ready w) (call on_reconnect method params) (entitled a false fun _ => Entitled a false) := by
  rw [call_eq]
  refine Spec.bind connect_ready fun _ => ?_
  refine Spec.bind ((new_request_entitled params).pre fun w hw => ⟨hw.1, hw.2.1, Or.inr hw.2.2⟩) fun req => ?_
  rintro w ⟨hmethod, hw⟩
  have hrest : Spec (Sending a false req.method) (exchange on_reconnect req) (entitled a false fun _ => Entitled a false) := by
    refine (exchange_entitled h fun hb => absurd hb Bool.false_ne_true).post (fun _ w hw => ?_) (fun _ _ hw => hw) fun _ hw => hw
    exact hw.1.1
  rw [← hmethod] at hw
  exact hrest w hw

end

/-! ## Sessions -/

/-- Between two methods: what was sent was entitled, no login is running, and the flag is set
with a client only. -/
structure Resting (w : World) : Prop where
  log : Always Event.entitled w.log
  guard : w.client.reauthenticating = false
  held : w.authenticated = true → w.held = true

theorem Entitled.resting {a : Bool} {w : World} (h : Entitled a false w) : Resting w := ⟨h.log, h.guard, fun _ => h.held⟩

def resting {α : Type} (D : α → World → Prop) : Post World Fault α where
  done := D
  raised := fun _ => Resting
  waiting := fun w => Always Event.entitled w.log

/-- Any end of a program that keeps `Entitled` is one of a session at rest. -/
theorem rest_of_entitled {a : Bool} {α : Type} {P : World → Prop} {m : Run α} {D : α → World → Prop}
    (h : Spec P m (entitled a false D)) : Spec P m (resting D) :=
  h.post (fun _ _ hw => hw) (fun _ _ hw => hw.resting) fun _ hw => hw

section

variable {cfg : AdapterConfig} {a b : Bool}

theorem resolve_cases (hkey : cfg.api_key_ref.isSome = true) :
    (∃ e, resolve_api_key cfg = Prog.raise e) ∨ ∃ key, resolve_api_key cfg = pure (some key) := by
  obtain ⟨ref, href⟩ := Option.isSome_iff_exists.mp hkey
  rw [resolve_api_key, href]
  rcases cfg.secret_provider with _ | provider
  · exact Or.inl ⟨_, rfl⟩
  · dsimp only
    rcases provider ref with e | key
    · exact Or.inl ⟨e, rfl⟩
    · exact Or.inr ⟨key, rfl⟩

theorem authenticate_entitled (hkey : cfg.api_key_ref.isSome = true) {on_reconnect : Run Unit} (h : LogsIn a on_reconnect) :
    Spec (Entitled a b) (authenticate cfg on_reconnect) (entitled a b fun _ w => Entitled a b w ∧ Ready w) := by
  have hlocal : ¬(cfg.unix && cfg.api_key_ref.isNone) = true := by
    rw [← Option.not_isSome, hkey, Bool.not_true, Bool.and_false]
    exact Bool.false_ne_true
  rw [authenticate, if_neg hlocal]
  rcases resolve_cases hkey with ⟨e, he⟩ | ⟨key, hresolved⟩
  · rw [he]
    exact Spec.bind (D := fun _ _ => False) (Spec.raise fun w hw => hw) fun _ w hw => hw.elim
  · rw [hresolved]
    refine Spec.bind (D := fun api_key w => api_key = some key ∧ Entitled a b w) (Spec.ret fun w hw => ⟨rfl, hw⟩) ?_
    rintro api_key w ⟨rfl, hw⟩
    exact (Spec.bind (call_login h _) fun _ => Spec.ret fun w hw => hw) w hw

theorem reauthenticate_entitled (hkey : cfg.api_key_ref.isSome = true) (depth : ℕ) : LogsIn a (reauthenticate cfg depth) := by
  induction depth with
  | zero => exact Spec.raise fun w hw => hw
  | succ depth ih =>
    refine Spec.look fun held => ?_
    by_cases hheld : held = true
    · rw [if_pos hheld]
      exact (authenticate_entitled hkey ih).pre fun w hw => hw.1
    · rw [if_neg hheld]
      intro w hw
      exact absurd (hw.2.symm.trans hw.1.held) hheld

theorem client_call_entitled (hkey : cfg.api_key_ref.isSome = true) (method : String) (params : Value) :
    Spec (fun w => Entitled a false w ∧ Ready w) (client_call cfg method params) (entitled a false fun _ => Entitled a false) :=
  call_entitled (reauthenticate_entitled hkey 1) method params

theorem build_client_resting (hkey : cfg.api_key_ref.isSome = true) :
    Spec (fun w => Resting w ∧ w.authenticated = false) (build_client cfg) (resting fun _ => Entitled false false) := by
  refine Spec.bind (D := fun _ w => Resting w ∧ w.authenticated = false) ?_ fun _ => ?_
  · rw [build_transport]
    split
    · exact Spec.ret fun w hw => hw
    · rcases resolve_cases hkey with ⟨e, he⟩ | ⟨key, hresolved⟩
      · rw [he]
        exact Spec.bind (D := fun _ _ => False) (Spec.raise fun w hw => hw.1) fun _ w hw => hw.elim
      · rw [hresolved]
        refine Spec.bind (D := fun _ w => Resting w ∧ w.authenticated = false) (Spec.ret fun w hw => hw) fun _ => ?_
        split
        · exact Spec.change fun w hw => ⟨⟨hw.1.log, hw.1.guard, hw.1.held⟩, hw.2⟩
        · exact Spec.raise fun w hw => hw.1
  · exact Spec.change fun w hw => ⟨hw.1.log, rfl, hw.2, rfl⟩

/-- The client is there, and nothing has been sent. -/
theorem hold_client_resting (hkey : cfg.api_key_ref.isSome = true) :
    Spec (fun w => Resting w ∧ w.authenticated = false) (hold_client cfg) (resting fun _ => Entitled false false) := by
  refine Spec.look fun held => ?_
  by_cases hheld : held = true
  · rw [if_pos hheld]
    exact Spec.ret fun w hw => ⟨hw.1.1.log, hw.2.trans hheld, hw.1.2, hw.1.1.guard⟩
  · rw [if_neg hheld]
    exact (build_client_resting hkey).pre fun w hw => hw.1

/-- A session that is not authenticated logs in. -/
theorem session_fresh (hkey : cfg.api_key_ref.isSome = true) :
    Spec (fun w => Resting w ∧ w.authenticated = false) (session cfg)
      (resting fun _ w => Entitled true false w ∧ Ready w) := by
  refine Spec.bind (hold_client_resting hkey) fun _ => ?_
  refine Spec.bind (rest_of_entitled connect_entitled) fun _ => Spec.look fun authenticated => ?_
  by_cases hflag : authenticated = true
  · rw [if_pos hflag]
    intro w hw
    exact absurd (hw.1.1.flag.symm.trans (hw.2.trans hflag)) Bool.false_ne_true
  · rw [if_neg hflag]
    have hlogin := rest_of_entitled (authenticate_entitled (a := false) (b := false) hkey (reauthenticate_entitled hkey 1))
    refine Spec.bind (hlogin.pre fun w hw => hw.1.1) fun _ => ?_
    exact Spec.change fun w hw => ⟨⟨hw.1.log, hw.1.held, rfl, hw.1.guard⟩, hw.2⟩

/-- The client of a session that has one is not built again. -/
theorem session_held {P : World → Prop} {Q : Post World Fault Unit} (hheld : ∀ w, P w → w.held = true ∧ w.authenticated = true)
    {D : Unit → World → Prop} (hflag : ∀ w, D () w → w.authenticated = true)
    (hconnect : Spec P connect ⟨D, Q.raised, Q.waiting⟩) (hdone : ∀ w, D () w → Q.done () w) : Spec P (session cfg) Q := by
  have hhold : Spec P (hold_client cfg) ⟨fun _ => P, Q.raised, Q.waiting⟩ := by
    refine Spec.look fun held => ?_
    by_cases hcases : held = true
    · rw [if_pos hcases]
      exact Spec.ret fun w hw => hw.1
    · rw [if_neg hcases]
      intro w hw
      exact absurd (hw.2.symm.trans (hheld w hw.1).1) hcases
  refine Spec.bind hhold fun _ => Spec.bind hconnect fun _ => Spec.look fun authenticated => ?_
  by_cases hcases : authenticated = true
  · rw [if_pos hcases]
    exact Spec.ret fun w hw => hdone w hw.1
  · rw [if_neg hcases]
    intro w hw
    exact absurd (hw.2.symm.trans (hflag w hw.1)) hcases

end

/-! ## The flag and the connection -/

/-- Where a session that is taken for authenticated is ready, or comes to nothing. -/
def Fine (w : World) : Prop :=
  w.authenticated = false ∨ if w.live then logged_in w.log = true else w.client.connected = true ∨ ¬Reached w.answers

section

variable {cfg : AdapterConfig} {w : World}

theorem connect_fine :
    Spec (fun w => Entitled true false w ∧ Fine w) connect (entitled true false fun _ w => Entitled true false w ∧ Ready w) := by
  rintro w ⟨hent, hfine⟩
  rcases hfine with hflag | hfine
  · exact absurd (hflag.symm.trans hent.flag) Bool.false_ne_true
  · cases hlive : w.live with
    | true =>
      rw [if_pos hlive] at hfine
      cases hconnected : w.client.connected with
      | true => exact connect_ready w ⟨hent, hconnected, fun _ => hfine⟩
      | false =>
        rw [connect_live hconnected hlive]
        exact ⟨hent.same rfl rfl rfl rfl, rfl, fun _ => hfine⟩
    | false =>
      rw [if_neg (by rw [hlive]; exact Bool.false_ne_true)] at hfine
      cases hconnected : w.client.connected with
      | true =>
        refine connect_ready w ⟨hent, hconnected, fun hopen => ?_⟩
        exact absurd (hlive.symm.trans hopen) Bool.false_ne_true
      | false =>
        have hunreached : ¬Reached w.answers := hfine.resolve_left (by rw [hconnected]; exact Bool.false_ne_true)
        obtain ⟨out, rest, heq, hout⟩ := connect_unreached hconnected hlive hunreached
        rw [heq]
        rcases out with u | e | _
        · exact absurd rfl (hout u)
        · exact hent.same rfl rfl rfl rfl
        · exact hent.log

/-- A session is opened: either it logs in, or it has a login, or nothing is sent on it. -/
theorem session_fine (hkey : cfg.api_key_ref.isSome = true) :
    Spec (fun w => Resting w ∧ Fine w) (session cfg) (resting fun _ w => Entitled true false w ∧ Ready w) := by
  rintro w ⟨hrest, hfine⟩
  cases hflag : w.authenticated with
  | false => exact session_fresh hkey w ⟨hrest, hflag⟩
  | true =>
    have hent : Entitled true false w := ⟨hrest.log, hrest.held hflag, hflag, hrest.guard⟩
    refine session_held (P := fun w => Entitled true false w ∧ Fine w) (D := fun _ w => Entitled true false w ∧ Ready w)
      (fun w hw => ⟨hw.1.held, hw.1.flag⟩) (fun w hw => hw.1.flag) ?_ (fun w hw => hw) w ⟨hent, hfine⟩
    exact rest_of_entitled connect_fine

theorem close_resting : Spec Resting close (resting fun _ => Resting) := by
  refine Spec.look fun held => ?_
  split
  · refine Spec.bind (D := fun _ => Resting) ?_ fun _ => ?_
    · refine Spec.look fun connected => ?_
      split
      · exact Spec.change fun w hw => ⟨hw.1.1.log, hw.1.1.guard, hw.1.1.held⟩
      · exact Spec.ret fun w hw => hw.1.1
    · exact Spec.change fun w hw => ⟨hw.log, hw.guard, fun h => absurd h Bool.false_ne_true⟩
  · exact Spec.ret fun w hw => hw.1

/-- **Where the flag and the connection agree**, a method sends what it may. -/
theorem perform_fine (hkey : cfg.api_key_ref.isSome = true) (method : Method) :
    Spec (fun w => Resting w ∧ (method = .close ∨ Fine w)) (perform cfg method) (resting fun _ => Resting) := by
  by_cases hmethod : method = .close
  · rw [hmethod]
    exact close_resting.pre fun w hw => hw.1
  · have hsession : Spec (fun w => Resting w ∧ (method = .close ∨ Fine w)) (session cfg)
        (resting fun _ w => Entitled true false w ∧ Ready w) :=
      (session_fine hkey).pre fun w hw => ⟨hw.1, hw.2.resolve_left hmethod⟩
    have hquery : ∀ name params, Spec (fun w => Resting w ∧ (method = .close ∨ Fine w))
        (do let _ ← query cfg name params; pure ()) (resting fun _ => Resting) := by
      intro name params
      refine Spec.bind (D := fun _ => Entitled true false) ?_ fun _ => Spec.ret fun w hw => hw.resting
      exact Spec.bind hsession fun _ => rest_of_entitled (client_call_entitled hkey name params)
    cases method with
    | probe =>
      refine Spec.bind (D := fun _ => Resting) (Spec.rescue (Spec.bind hsession fun _ => ?_) fun _ hw => hw) fun _ => Spec.ret fun w hw => hw
      refine rest_of_entitled (a := true) (Spec.bind (D := fun _ => Entitled true false) ?_ fun version => ?_)
      · refine Spec.rescue (Spec.bind (client_call_entitled hkey _ _) fun raw => ?_) fun _ hw => hw
        split <;> exact Spec.ret fun w hw => hw
      · refine Spec.bind (D := fun _ => Entitled true false) (Spec.change fun w hw => hw.same rfl rfl rfl rfl) fun _ => ?_
        exact Spec.ret fun w hw => hw.resting
    | close => exact absurd rfl hmethod
    | list_pools => exact hquery _ _
    | list_disks => exact hquery _ _
    | volume_usage mountpoint => exact hquery _ _
    | is_array_healthy pool => exact hquery _ _

/-- Where they do not, the session is taken as it is, on a connection without a login. -/
theorem session_stale {start : List Event} {limit : ℕ → ℕ → ℕ} (cfg : AdapterConfig) (hcalm : Calm start limit w)
    (hheld : w.held = true) (hfine : ¬Fine w) :
    ∃ w', session cfg w = (.done (), w') ∧ Calm start limit w' ∧ w'.client.connected = true ∧ w'.live = true ∧
      logged_in w'.log = false := by
  rw [Fine, not_or, Bool.not_eq_false] at hfine
  obtain ⟨hflag, hconnection⟩ := hfine
  have hsession : ∀ {w'}, connect w = (.done (), w') → w'.authenticated = true → session cfg w = (.done (), w') := by
    intro w' hconnect hflag'
    change Prog.andThen (hold_client cfg) _ w = _
    have hhold : hold_client cfg w = (.done (), w) := by
      change (if w.held = true then (pure () : Run Unit) else _) w = _
      rw [hheld]
      rfl
    rw [Prog.andThen, hhold]
    change Prog.andThen connect _ w = _
    rw [Prog.andThen, hconnect]
    change (if w'.authenticated = true then (pure () : Run Unit) else _) w' = _
    rw [hflag']
    rfl
  have hgood : ∀ {w'}, connect w = (.done (), w') → Calm start limit w' := by
    intro w' hconnect
    have hend := connect_calm w hcalm
    rw [hconnect] at hend
    exact hend
  cases hlive : w.live with
  | true =>
    rw [if_pos hlive, Bool.not_eq_true] at hconnection
    cases hconnected : w.client.connected with
    | true =>
      have hconnect := connect_connected hconnected
      exact ⟨w, hsession hconnect hflag, hgood hconnect, hconnected, hlive, hconnection⟩
    | false =>
      have hconnect := connect_live hconnected hlive
      exact ⟨_, hsession hconnect hflag, hgood hconnect, rfl, hlive, hconnection⟩
  | false =>
    rw [if_neg (by rw [hlive]; exact Bool.false_ne_true), not_or, Bool.not_eq_true, not_not] at hconnection
    obtain ⟨rest, hconnect⟩ := connect_reached hconnection.1 hlive hconnection.2
    exact ⟨_, hsession hconnect hflag, hgood hconnect, rfl, rfl, rfl⟩

/-- **And a method sends what it may not.** -/
theorem perform_stale {start : List Event} {limit : ℕ → ℕ → ℕ} (cfg : AdapterConfig) {method : Method} (hmethod : method ≠ .close)
    (hcalm : Calm start limit w) (hheld : w.held = true) (hfine : ¬Fine w) :
    ¬Always Event.entitled (perform cfg method w).2.log := by
  obtain ⟨name, params, hname, hperform⟩ := perform_call cfg hmethod
  obtain ⟨w', hsession, hcalm', hconnected, hlive, hlogged⟩ := session_stale cfg hcalm hheld hfine
  obtain ⟨req, hreq, hcall⟩ := call_first (reauthenticate_calm cfg 1) name params hcalm' hconnected hlive
  -- the request goes out, and the history goes on from there
  have hend := hperform (· = w) (· = w') (.sent req :: w'.log) limit (fun s hs => by rw [hs, hsession]; rfl)
    (fun s hs => by rw [hs]; exact hcall) w rfl
  have hgrows : (.sent req :: w'.log) <:+ (perform cfg method w).2.log := by
    rcases hout : perform cfg method w with ⟨u | e | _, t⟩ <;> rw [hout] at hend <;> exact hend.1.grows
  intro hall
  rcases hall _ _ hgrows with hlogin | hlogin
  · exact hname (hreq.symm.trans hlogin)
  · exact absurd (hlogged.symm.trans hlogin) Bool.false_ne_true

end

/-! ## Runs -/

section

variable {cfg : AdapterConfig} {w t : World} {step : Step}

/-- The history may be relied on, and between two methods the session is at rest, as long as
nothing was sent that was not entitled. -/
structure Kept (w : World) : Prop where
  calm : Calm [] (fun _ _ => 2) w
  resting : Always Event.entitled w.log → w.waiting = false → Resting w

theorem Kept.holds_iff (h : Kept w) : SessionHolds w.log ↔ Always Event.entitled w.log :=
  ⟨fun hholds => hholds.authenticated, fun hall => ⟨hall, h.calm.1.own, h.calm.1.sends, h.calm.1.surfaces, h.calm.2⟩⟩

theorem adapter_step (h : (adapter cfg).step w step = some t) :
    w.waiting = false ∧ ∃ out w', perform cfg step.method { w with answers := step.answers } = (out, w') ∧ t = w'.finish out := by
  dsimp only [adapter] at h
  split_ifs at h with hwaiting
  exact ⟨Bool.not_eq_true _ ▸ hwaiting, _, _, rfl, (Option.some.inj h).symm⟩

/-- The end of a method is written down, and a refusal has been raised. -/
theorem finish_calm {out : Outcome Fault Unit} {w' : World} {start : List Event} (hend : (calm start fun _ _ => 2).holds out w') :
    Calm [] (fun _ _ => 2) (w'.finish out) ∧ start <:+ (w'.finish out).log := by
  have hcons : ∀ fault, Sound start (fun _ _ => 2) w'.log w'.client.serial w'.client.next_id →
      (Refused w'.log → fault = some .auth) →
      Calm [] (fun _ _ => 2) (w'.emit (.ended fault)) ∧ start <:+ (w'.emit (.ended fault)).log := by
    intro fault hsound hrefused
    refine ⟨⟨⟨List.nil_suffix, always_cons.mpr ⟨trivial, hsound.own⟩, always_cons.mpr ⟨?_, hsound.surfaces⟩, ?_, ?_⟩,
      not_refused_cons (by intro _ _ heq; cases heq)⟩, hsound.grows.trans (List.suffix_cons _ _)⟩
    · intro h
      rw [hrefused h]
    · intro client id
      exact (List.countP_cons_of_neg Bool.false_ne_true).le.trans (hsound.sends client id)
    · intro client id hun
      exact ⟨(List.countP_cons_of_neg Bool.false_ne_true).trans (hsound.unissued client id hun).1, rfl⟩
  rcases out with u | e | _
  · exact hcons none hend.1 fun h => absurd h hend.2
  · refine hcons (some e) hend.1 fun h => ?_
    by_contra hne
    exact hend.2 (fun he => hne (congrArg some he)) h
  · exact ⟨⟨⟨List.nil_suffix, hend.1.own, hend.1.surfaces, hend.1.sends, hend.1.unissued⟩, hend.2⟩, hend.1.grows⟩

/-- **One method.** -/
theorem step_entitled (hkey : cfg.api_key_ref.isSome = true) (h : Kept w) (hstep : (adapter cfg).step w step = some t) :
    Kept t ∧ (Always Event.entitled t.log ↔ Always Event.entitled w.log ∧ Settled w step) := by
  obtain ⟨hwaiting, out, w', hperform, rfl⟩ := adapter_step hstep
  have hend := perform_calm cfg step.method w.log (fun _ _ => 2) { w with answers := step.answers } (Calm.restart h.calm)
  rw [hperform] at hend
  obtain ⟨hcalm, hgrows⟩ := finish_calm hend
  have hentitled : Always Event.entitled (w'.finish out).log ↔ Always Event.entitled w'.log := by
    rcases out with u | e | _
    · exact always_cons.trans (and_iff_right trivial)
    · exact always_cons.trans (and_iff_right trivial)
    · exact Iff.rfl
  by_cases hgood : Always Event.entitled w.log
  · by_cases hsettled : Settled w step
    · -- what is sent is entitled, and the session is at rest again
      have hrest := h.resting hgood hwaiting
      have hfine := perform_fine hkey step.method { w with answers := step.answers }
        ⟨⟨hrest.log, hrest.guard, hrest.held⟩, hsettled⟩
      rw [hperform] at hfine
      have hall : Always Event.entitled w'.log := by
        rcases out with u | e | _
        · exact hfine.log
        · exact hfine.log
        · exact hfine
      refine ⟨⟨hcalm, fun hafter hend => ?_⟩, fun _ => ⟨hgood, hsettled⟩, fun _ => hentitled.mpr hall⟩
      rcases out with u | e | _
      · exact ⟨hafter, hfine.guard, hfine.held⟩
      · exact ⟨hafter, hfine.guard, hfine.held⟩
      · exact absurd hend (by simp [World.finish])
    · obtain ⟨hmethod, hfine⟩ := not_or.mp hsettled
      have hflag : w.authenticated = true := by
        by_contra hne
        exact hfine (Or.inl (Bool.not_eq_true _ ▸ hne))
      have hbad := perform_stale cfg hmethod (w := { w with answers := step.answers }) (Calm.restart h.calm)
        ((h.resting hgood hwaiting).held hflag) hfine
      rw [hperform] at hbad
      have hbad' : ¬Always Event.entitled (w'.finish out).log := fun hall => hbad (hentitled.mp hall)
      exact ⟨⟨hcalm, fun hall => absurd hall hbad'⟩, fun hall => absurd hall hbad', fun hand => absurd hand.2 hsettled⟩
  · have hbad : ¬Always Event.entitled (w'.finish out).log := fun hall => hgood (hall.earlier hgrows)
    exact ⟨⟨hcalm, fun hall => absurd hall hbad⟩, fun hall => absurd hall hbad, fun hand => absurd hand.1 hgood⟩

theorem kept_init : Kept {} := by
  refine ⟨⟨⟨List.nil_suffix, always_nil _, always_nil _, fun _ _ => Nat.zero_le 2, fun _ _ _ => ⟨rfl, rfl⟩⟩, ?_⟩, fun _ _ => ?_⟩
  · rintro ⟨req, frame, before, heq, -⟩
    cases heq
  · exact ⟨always_nil _, rfl, fun h => absurd h Bool.false_ne_true⟩

/-- **The session of the adapter.** In a run of its methods only the login is sent on a
connection on which none has succeeded, a call returns what came under its id, a request is
sent twice at most and a refusal is raised at once -- exactly when every method is called in
a state whose flag and connection agree. -/
theorem session_iff (cfg : AdapterConfig) (hkey : cfg.api_key_ref.isSome = true) {steps : List Step} {w : World}
    (hrun : (adapter cfg).Trace steps w) : SessionHolds w.log ↔ (adapter cfg).Meets Settled {} steps := by
  obtain ⟨w₀, hinit, hrun⟩ := hrun
  obtain rfl : w₀ = {} := hinit
  have hkeep : Kept w := System.run_keeps (I := Kept) (fun _ _ _ hI hstep => (step_entitled hkey hI hstep).1) kept_init hrun
  rw [hkeep.holds_iff]
  have hmeets : Always Event.entitled w.log ↔ Always Event.entitled ({} : World).log ∧ (adapter cfg).Meets Settled {} steps :=
    @System.good_iff_meets _ _ (adapter cfg) Kept (fun w => Always Event.entitled w.log) Settled
      (fun _ _ _ hI hstep => (step_entitled hkey hI hstep).1) (fun _ _ _ hI hstep => (step_entitled hkey hI hstep).2)
      {} w steps kept_init hrun
  exact hmeets.trans (and_iff_right (always_nil _))

/-! ## Runs of it -/

/-- An adapter of a remote endpoint with its key. -/
def remote : AdapterConfig where
  unix := false
  api_version := "v25.10"
  api_key_ref := some "TRUENAS_KEY"
  secret_provider := some fun _ => .ok "key"
  injected := false
  websockets := true

/-- The reply to a request. -/
def reply (id : ℤ) (value : Value) : Answer := some (.message (some id) (.result value))

/-- The transport does what it is asked. -/
def does : Answer := some .not_object

/-- The first pool list: a connection, the login and its reply, the query and its reply. -/
def first_list : Step where
  method := .list_pools
  answers := [does, does, reply 1 (.bool true), does, reply 2 (.arr [])]

/-- The next one, at which the connection drops, is made again and logged in to. -/
def second_list : Step where
  method := .list_pools
  answers := [none, does, does, reply 4 (.bool true), does, reply 3 (.arr [])]

theorem relogin_list : ∃ w, (adapter remote).Trace [first_list, second_list] w ∧ SessionHolds w.log := by
  have hruns : ((adapter remote).run {} [first_list, second_list]).isSome = true := by decide +kernel
  have hlogged : ((adapter remote).step {} first_list).all (fun w => w.live && logged_in w.log) = true := by decide +kernel
  obtain ⟨w, hrun⟩ := Option.isSome_iff_exists.mp hruns
  refine ⟨w, ⟨{}, rfl, hrun⟩, (session_iff remote rfl ⟨{}, rfl, hrun⟩).mpr ⟨Or.inr (Or.inl rfl), fun t ht => ⟨?_, fun _ _ => trivial⟩⟩⟩
  rw [ht, Option.all_some, Bool.and_eq_true] at hlogged
  right
  right
  rw [if_pos hlogged.1]
  exact hlogged.2

/-- The method of the request sent last, and whether there was a login. -/
def last_send : List Event → Option (String × Bool)
  | .sent req :: earlier => some (req.method, logged_in earlier)
  | _ => none

theorem last_send_some {log : List Event} {method : String} {logged : Bool} (h : last_send log = some (method, logged)) :
    ∃ req earlier, log = .sent req :: earlier ∧ req.method = method ∧ logged_in earlier = logged := by
  rw [last_send.eq_def] at h
  split at h
  · cases h
    exact ⟨_, _, rfl, rfl, rfl⟩
  · cases h

/-- The connection drops and none of the five attempts gets through; the next list goes out on
a connection without a login. -/
theorem list_without_login : ¬ ∀ (cfg : AdapterConfig), cfg.api_key_ref.isSome = true → ∀ (steps : List Step) (w : World),
    (adapter cfg).Trace steps w → SessionHolds w.log := by
  intro hall
  have hrun : ((adapter remote).run {} [first_list, { method := .list_pools, answers := [none, none, none, none, none, none] },
      { method := .list_pools, answers := [does] }]).bind (fun w => last_send w.log) = some ("pool.query", false) := by
    decide +kernel
  obtain ⟨w, hrun, hlast⟩ := Option.bind_eq_some_iff.mp hrun
  obtain ⟨req, earlier, hlog, hmethod, hlogged⟩ := last_send_some hlast
  have h := hall remote rfl _ w ⟨{}, rfl, hrun⟩
  rcases h.authenticated (.sent req) earlier (hlog ▸ List.suffix_rfl) with hlogin | hlogin
  · exact absurd (hmethod.symm.trans hlogin) (by decide)
  · exact absurd (hlogged.symm.trans hlogin) Bool.false_ne_true

end

theorem reauthenticate_depth_remote :
    let w : World := { client := { serial := 0, reauthenticating := true }, held := true }
    reauthenticate remote 5 w = reauthenticate remote 1 w := reauthenticate_depth remote 4 rfl

end Fathom.Adapters
