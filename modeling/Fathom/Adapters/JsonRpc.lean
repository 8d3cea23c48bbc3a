/-
**The JSON-RPC client** (`adapters/jsonrpc.py`, `adapters/_ws.py`).

One connection, one request at a time. A frame that carries another id is skipped; an error
of the authentication class is raised; whatever else goes wrong, a dropped connection or an
error of the method, has the client connect again, let its owner log in again, and send the
request a second time.

What is connected, sent, received and returned is written down as it happens, newest first,
and the claims about the client are claims about that history.
-/
import Fathom.Lib.Interaction
import Fathom.Lib.Json

set_option autoImplicit false

namespace Fathom.Adapters

open Fathom.Interaction
open Fathom.Json (Value)

/-- `AdapterUnavailableError`, `AdapterAuthError`, and any other exception. -/
inductive Fault where
  | unavailable
  | auth
  | other
  deriving DecidableEq

/-- The envelope of a reply: its result, or an error with its code where that is an
integer. An error that is not an object has no `get`. -/
inductive Body where
  | result (value : Value)
  | error (code : Option ℤ)
  | malformed

/-- A text frame: no JSON, JSON that is not an object, or an object, with the integer its
`id` is equal to. -/
inductive Frame where
  | unreadable
  | not_object
  | message (id : Option ℤ) (body : Body)

/-- A request, told from the others by its client and its id. -/
structure Request where
  client : ℕ
  id : ℕ
  method : String
  params : Value

inductive Event where
  /-- A connection is opened. -/
  | opened
  /-- A request is handed to the open connection. -/
  | sent (req : Request)
  /-- A frame arrives while the reply to a request is awaited. -/
  | received (req : Request) (frame : Frame)
  /-- `call` returns. -/
  | answered (req : Request) (value : Value)
  /-- A method of the adapter returns or raises. -/
  | ended (fault : Option Fault)

/-- `JsonRpcClient`. -/
structure Client where
  serial : ℕ
  connected : Bool := false
  reauthenticating : Bool := false
  next_id : ℕ := 1

/-- What the transport does when it is asked for something: it fails, or it does it. A
frame comes only of a receive. -/
abbrev Answer := Option Frame

/-- The transport, the client, the adapter and the history. -/
structure World where
  /-- `_conn is not None` -/
  live : Bool := false
  client : Client := { serial := 0 }
  /-- The adapter's `_client is not None` -/
  held : Bool := false
  authenticated : Bool := false
  negotiated : Option String := none
  log : List Event := []
  answers : List Answer := []
  /-- The method called last has not returned. -/
  waiting : Bool := false

abbrev Run (α : Type) := Prog World Fault α

def World.emit (e : Event) (w : World) : World := { w with log := e :: w.log }

def World.set_connected (b : Bool) (w : World) : World := { w with client := { w.client with connected := b } }

def World.set_reauthenticating (b : Bool) (w : World) : World :=
  { w with client := { w.client with reauthenticating := b } }

/-! ## The transport -/

/-- What the transport answers next. -/
def next_answer : Run Answer := fun w =>
  match w.answers with
  | [] => (.waiting, w)
  | a :: rest => (.done a, { w with answers := rest })

def drop (w : World) : World := { w with live := false }

/-- `WebSocketTransport.connect`. -/
def transport_connect : Run Unit := do
  let live ← Prog.look World.live
  if live then pure ()
  else
    let answer ← next_answer
    if answer.isNone then Prog.raise .unavailable
    else Prog.change fun w => { w with live := true, log := .opened :: w.log }

/-- `WebSocketTransport.send`. -/
def transport_send (req : Request) : Run Unit := do
  let live ← Prog.look World.live
  if live then
    Prog.change (World.emit (.sent req))
    let answer ← next_answer
    if answer.isNone then
      Prog.change drop
      Prog.raise .unavailable
    else pure ()
  else Prog.raise .unavailable

/-! ## The client -/

/-- `_AUTH_ERROR_CODES`. -/
def AUTH_ERROR_CODES : List ℤ := [-32000, -32001, 401, 403]

/-- `_unwrap`. -/
def unwrap : Body → Run Value
  | .result value => pure value
  | .error code => if code.any fun c => AUTH_ERROR_CODES.contains c then Prog.raise .auth else Prog.raise .unavailable
  | .malformed => Prog.raise .other

/-- A frame, until one carries the id of the request. The connection stays open until a
receive fails, so no receive finds it closed. -/
def read_reply (req : Request) : List Answer → Run Value
  | [] => fun w => (.waiting, { w with answers := [] })
  | none :: rest => fun w => (.raised .unavailable, { drop w with answers := rest })
  | some frame :: rest => fun w =>
    let w := { w.emit (.received req frame) with answers := rest }
    match frame with
    | .unreadable => (.raised .unavailable, w)
    | .not_object => (.raised .other, w)
    | .message id body => if id = some (req.id : ℤ) then unwrap body w else read_reply req rest w

/-- `_send_and_read`. -/
def send_and_read (req : Request) : Run Value := do
  transport_send req
  fun w => read_reply req w.answers w

/-- `_RECONNECT_ATTEMPTS`. -/
def RECONNECT_ATTEMPTS : ℕ := 5

/-- `_connect_with_backoff`, with so many attempts left. -/
def connect_with_backoff : ℕ → Run Unit
  | 0 => Prog.raise .unavailable
  | n + 1 => Prog.attempt transport_connect fun e =>
    if e = .unavailable then connect_with_backoff n else Prog.raise e

/-- `connect`. -/
def connect : Run Unit := do
  let connected ← Prog.look fun w => w.client.connected
  if connected then pure ()
  else
    connect_with_backoff RECONNECT_ATTEMPTS
    Prog.change (World.set_connected true)

/-- The next id is taken. -/
def new_request (method : String) (params : Value) : Run Request := fun w =>
  (.done { client := w.client.serial, id := w.client.next_id, method, params },
    { w with client := { w.client with next_id := w.client.next_id + 1 } })

/-- `_on_reconnect`, unless it is running. -/
def reauthenticate_once (on_reconnect : Run Unit) : Run Unit := do
  let reauthenticating ← Prog.look fun w => w.client.reauthenticating
  if reauthenticating then pure ()
  else
    Prog.change (World.set_reauthenticating true)
    Prog.always on_reconnect (World.set_reauthenticating false)

/-- The `except` of `call`. -/
def reconnect_and_retry (on_reconnect : Run Unit) (req : Request) : Run Value := do
  Prog.change (World.set_connected false)
  connect
  reauthenticate_once on_reconnect
  send_and_read req

/-- `call`. -/
def call (on_reconnect : Run Unit) (method : String) (params : Value) : Run Value := do
  connect
  let req ← new_request method params
  let value ← Prog.attempt (send_and_read req) fun e =>
    if e = .unavailable then reconnect_and_retry on_reconnect req else Prog.raise e
  Prog.change (World.emit (.answered req value))
  pure value

/-- `close`. -/
def client_close : Run Unit := do
  let connected ← Prog.look fun w => w.client.connected
  if connected then Prog.change fun w => drop (w.set_connected false)
  else pure ()

/-! ## What is said of the history -/

/-- What a call returns is the result of the frame that came last, and that frame carries
its id. -/
def Event.own (earlier : List Event) : Event → Prop
  | .answered req value => ∃ before, earlier = .received req (.message (some (req.id : ℤ)) (.result value)) :: before
  | _ => True

/-- An error of the authentication class, for the request that is waited for. -/
def Refusal (req : Request) (frame : Frame) : Prop :=
  ∃ code, AUTH_ERROR_CODES.contains code = true ∧ frame = .message (some (req.id : ℤ)) (.error (some code))

/-- One came last. -/
def Refused (log : List Event) : Prop := ∃ req frame before, log = .received req frame :: before ∧ Refusal req frame

/-- After one, the method of the adapter raises. -/
def Event.surfaces (earlier : List Event) (e : Event) : Prop := Refused earlier → e = .ended (some .auth)

/-- The request of a client and an id is sent. -/
def Event.sends (client id : ℕ) : Event → Bool
  | .sent req => decide (req.client = client) && decide (req.id = id)
  | _ => false

/-- An id no request has yet. -/
def Unissued (serial next_id client id : ℕ) : Prop := serial < client ∨ client = serial ∧ next_id ≤ id

/-- A history that goes on from another, where every request was sent so often at most. -/
structure Sound (start : List Event) (limit : ℕ → ℕ → ℕ) (log : List Event) (serial next_id : ℕ) : Prop where
  grows : start <:+ log
  own : Always Event.own log
  surfaces : Always Event.surfaces log
  sends : ∀ client id, log.countP (Event.sends client id) ≤ limit client id
  unissued : ∀ client id, Unissued serial next_id client id →
    log.countP (Event.sends client id) = 0 ∧ limit client id = 2

/-- And no refusal is left to be raised. -/
def Calm (start : List Event) (limit : ℕ → ℕ → ℕ) (w : World) : Prop :=
  Sound start limit w.log w.client.serial w.client.next_id ∧ ¬Refused w.log

/-- A refusal is left only where it is being raised. -/
def calm_raised (start : List Event) (limit : ℕ → ℕ → ℕ) (e : Fault) (w : World) : Prop :=
  Sound start limit w.log w.client.serial w.client.next_id ∧ (e ≠ .auth → ¬Refused w.log)

/-- It holds at every end. -/
def calm (start : List Event) (limit : ℕ → ℕ → ℕ) {α : Type} : Post World Fault α where
  done := fun _ w => Calm start limit w
  raised := calm_raised start limit
  waiting := Calm start limit

/-- So many times for one request, and what it was for the others. -/
def room (limit : ℕ → ℕ → ℕ) (req : Request) (n : ℕ) : ℕ → ℕ → ℕ := fun client id =>
  if req.client = client ∧ req.id = id then n else limit client id

section

variable {start log : List Event} {limit : ℕ → ℕ → ℕ} {w : World} {req : Request} {serial next_id n : ℕ}

theorem not_refused_cons {e : Event} (h : ∀ req frame, e = .received req frame → ¬Refusal req frame) : ¬Refused (e :: log) := by
  rintro ⟨req, frame, before, heq, hrefusal⟩
  exact h req frame (List.cons.inj heq).1 hrefusal

/-- An event that sends nothing. -/
theorem Calm.sound_emit (h : Calm start limit w) {e : Event} (hown : e.own w.log)
    (hsends : ∀ client id, e.sends client id = false) :
    Sound start limit (e :: w.log) w.client.serial w.client.next_id where
  grows := h.1.grows.trans (List.suffix_cons e w.log)
  own := always_cons.mpr ⟨hown, h.1.own⟩
  surfaces := always_cons.mpr ⟨fun hrefused => absurd hrefused h.2, h.1.surfaces⟩
  sends := fun client id => by
    rw [List.countP_cons_of_neg (by rw [hsends client id]; exact Bool.false_ne_true)]
    exact h.1.sends client id
  unissued := fun client id hun => by
    rw [List.countP_cons_of_neg (by rw [hsends client id]; exact Bool.false_ne_true)]
    exact h.1.unissued client id hun

theorem Calm.emit (h : Calm start limit w) {e : Event} (hown : e.own w.log)
    (hsends : ∀ client id, e.sends client id = false) (hquiet : ∀ req frame, e = .received req frame → ¬Refusal req frame) :
    Calm start limit (w.emit e) :=
  ⟨h.sound_emit hown hsends, not_refused_cons hquiet⟩

/-- A request that has room left was given out. -/
theorem Sound.issued (h : Sound start (room limit req n) log serial next_id) (hn : n < 2) :
    ¬Unissued serial next_id req.client req.id := by
  intro hun
  have htwo := (h.unissued req.client req.id hun).2
  rw [room, if_pos ⟨rfl, rfl⟩] at htwo
  omega

/-- The request is sent once more. -/
theorem Calm.send (h : Calm start (room limit req n) w) (hn : n < 2) : Calm start (room limit req (n + 1)) (w.emit (.sent req)) := by
  refine ⟨⟨h.1.grows.trans (List.suffix_cons _ _), always_cons.mpr ⟨trivial, h.1.own⟩,
    always_cons.mpr ⟨fun hrefused => absurd hrefused h.2, h.1.surfaces⟩, ?_, ?_⟩, not_refused_cons (by intro _ _ heq; cases heq)⟩
  · intro client id
    have hbound := h.1.sends client id
    by_cases hreq : req.client = client ∧ req.id = id
    · rw [room, if_pos hreq] at hbound ⊢
      rw [World.emit, List.countP_cons_of_pos (by rw [Event.sends, hreq.1, hreq.2]; simp)]
      omega
    · rw [room, if_neg hreq] at hbound ⊢
      rw [World.emit, List.countP_cons_of_neg (by rw [Event.sends]; simpa using hreq)]
      exact hbound
  · intro client id hun
    have hreq : ¬(req.client = client ∧ req.id = id) := by
      rintro ⟨rfl, rfl⟩
      exact h.1.issued hn hun
    obtain ⟨hnone, htwo⟩ := h.1.unissued client id hun
    rw [room, if_neg hreq] at htwo ⊢
    rw [World.emit, List.countP_cons_of_neg (by rw [Event.sends]; simpa using hreq)]
    exact ⟨hnone, htwo⟩

/-- More room for a request that was given out. -/
theorem Sound.more {k : ℕ} (h : Sound start (room limit req n) log serial next_id) (hn : n < 2) (hk : n ≤ k) :
    Sound start (room limit req k) log serial next_id := by
  refine ⟨h.grows, h.own, h.surfaces, fun client id => ?_, fun client id hun => ?_⟩
  · refine (h.sends client id).trans ?_
    rw [room, room]
    split_ifs <;> omega
  · have hreq : ¬(req.client = client ∧ req.id = id) := by
      rintro ⟨rfl, rfl⟩
      exact h.issued hn hun
    have hold := h.unissued client id hun
    rw [room, if_neg hreq] at hold ⊢
    exact hold

/-- Twice is all there is. -/
theorem room_two (h : limit req.client req.id = 2) : room limit req 2 = limit := by
  funext client id
  rw [room]
  split_ifs with hreq
  · rw [← hreq.1, ← hreq.2, h]
  · rfl

/-! ## What each method does -/

/-- An exception that is no refusal. -/
theorem calm_raise {P : World → Prop} {α : Type} {e : Fault} (h : ∀ w, P w → Calm start limit w) :
    Spec P (Prog.raise e : Run α) (calm start limit) :=
  Spec.raise fun w hw => ⟨(h w hw).1, fun _ => (h w hw).2⟩

theorem next_answer_spec {I : World → Prop} (hanswers : ∀ w rest, I w → I { w with answers := rest }) :
    Keeps I next_answer := by
  intro w hw
  rw [next_answer]
  rcases w.answers with _ | ⟨a, rest⟩
  · exact hw
  · exact hanswers w rest hw

theorem next_answer_calm : Spec (Calm start limit) next_answer (calm start limit) := by
  refine (next_answer_spec fun _ _ h => h).post (fun _ _ h => h) (fun e w h => ?_) fun _ h => h
  exact ⟨h.1, fun _ => h.2⟩

theorem transport_connect_calm : Spec (Calm start limit) transport_connect (calm start limit) := by
  refine Spec.look fun live => ?_
  by_cases hlive : live = true
  · rw [if_pos hlive]
    exact Spec.ret fun w hw => hw.1
  · rw [if_neg hlive]
    refine Spec.bind (next_answer_calm.pre fun w hw => hw.1) fun answer => ?_
    split
    · exact calm_raise fun w hw => hw
    · refine Spec.change fun w hw => ?_
      exact hw.emit (e := .opened) trivial (fun _ _ => rfl) (by intro _ _ heq; cases heq)

theorem connect_with_backoff_calm (n : ℕ) : Spec (Calm start limit) (connect_with_backoff n) (calm start limit) := by
  induction n with
  | zero => exact calm_raise fun w hw => hw
  | succ n ih =>
    refine Spec.attempt transport_connect_calm fun e => ?_
    by_cases he : e = .unavailable
    · rw [if_pos he]
      refine ih.pre fun w hw => ⟨hw.1, hw.2 ?_⟩
      rw [he]
      exact fun hne => nomatch hne
    · rw [if_neg he]
      exact Spec.raise fun w hw => hw

theorem connect_calm : Spec (Calm start limit) connect (calm start limit) := by
  refine Spec.look fun connected => ?_
  by_cases hconnected : connected = true
  · rw [if_pos hconnected]
    exact Spec.ret fun w hw => hw.1
  · rw [if_neg hconnected]
    refine Spec.bind ((connect_with_backoff_calm _).pre fun w hw => hw.1) fun _ => ?_
    exact Spec.change fun w hw => hw

theorem transport_send_calm (hn : n < 2) :
    Spec (Calm start (room limit req n)) (transport_send req) (calm start (room limit req (n + 1))) := by
  refine Spec.look fun live => ?_
  by_cases hlive : live = true
  · rw [if_pos hlive]
    refine Spec.bind (D := fun _ => Calm start (room limit req (n + 1))) (Spec.change fun w hw => hw.1.send hn) fun _ => ?_
    refine Spec.bind next_answer_calm fun answer => ?_
    split
    · refine Spec.bind (D := fun _ => Calm start (room limit req (n + 1))) (Spec.change fun w hw => hw) fun _ => ?_
      exact calm_raise fun w hw => hw
    · exact Spec.ret fun w hw => hw
  · rw [if_neg hlive]
    exact calm_raise fun w hw => ⟨hw.1.1.more hn (by omega), hw.1.2⟩

/-- The result of a frame with the id of the request came last. -/
def Replied (req : Request) (value : Value) (w : World) : Prop := Event.own w.log (.answered req value)

theorem read_reply_calm (answers : List Answer) :
    Spec (Calm start limit) (read_reply req answers)
      ⟨fun value w => Calm start limit w ∧ Replied req value w, calm_raised start limit, Calm start limit⟩ := by
  induction answers with
  | nil => exact fun w hw => hw
  | cons answer rest ih =>
    intro w hw
    rcases answer with _ | frame
    · exact ⟨hw.1, fun _ => hw.2⟩
    · -- a frame that is no refusal leaves the history as good as it was
      have hquiet : ¬Refusal req frame → Calm start limit { w.emit (.received req frame) with answers := rest } := by
        intro hnot
        refine hw.emit (e := .received req frame) trivial (fun _ _ => rfl) ?_
        intro req' frame' heq
        cases heq
        exact hnot
      rcases frame with _ | _ | ⟨id, body⟩
      · have h := hquiet (fun ⟨_, _, heq⟩ => nomatch heq)
        exact ⟨h.1, fun _ => h.2⟩
      · have h := hquiet (fun ⟨_, _, heq⟩ => nomatch heq)
        exact ⟨h.1, fun _ => h.2⟩
      · dsimp only [read_reply]
        by_cases hid : id = some (req.id : ℤ)
        · rw [if_pos hid]
          subst hid
          rcases body with value | code | _
          · have h := hquiet (fun ⟨_, _, heq⟩ => nomatch heq)
            exact ⟨h, w.log, rfl⟩
          · dsimp only [unwrap]
            split
            · refine ⟨?_, fun hne => absurd rfl hne⟩
              exact hw.sound_emit (e := .received req _) trivial fun _ _ => rfl
            · rename_i hcode
              have h := hquiet ?_
              · exact ⟨h.1, fun _ => h.2⟩
              · rintro ⟨c, hc, heq⟩
                cases heq
                exact hcode hc
          · have h := hquiet (fun ⟨_, _, heq⟩ => nomatch heq)
            exact ⟨h.1, fun _ => h.2⟩
        · rw [if_neg hid]
          refine ih _ (hquiet ?_)
          rintro ⟨c, _, heq⟩
          cases heq
          exact hid rfl

theorem send_and_read_calm (hn : n < 2) :
    Spec (Calm start (room limit req n)) (send_and_read req)
      ⟨fun value w => Calm start (room limit req (n + 1)) w ∧ Replied req value w,
        calm_raised start (room limit req (n + 1)), Calm start (room limit req (n + 1))⟩ :=
  Spec.bind (transport_send_calm hn) fun _ w hw => read_reply_calm w.answers w hw

theorem new_request_calm (method : String) (params : Value) :
    Spec (Calm start limit) (new_request method params)
      ⟨fun req w => Calm start (room limit req 0) w ∧ limit req.client req.id = 2, fun _ _ => False, fun _ => False⟩ := by
  intro w hw
  -- the id taken is one that no request has
  obtain ⟨hnone, htwo⟩ := hw.1.unissued w.client.serial w.client.next_id (Or.inr ⟨rfl, le_rfl⟩)
  refine ⟨⟨⟨hw.1.grows, hw.1.own, hw.1.surfaces, fun client id => ?_, fun client id hun => ?_⟩, hw.2⟩, htwo⟩
  · rw [room]
    split_ifs with hreq
    · rw [← hreq.1, ← hreq.2]
      exact hnone.le
    · exact hw.1.sends client id
  · replace hun : Unissued w.client.serial (w.client.next_id + 1) client id := hun
    have hreq : ¬(w.client.serial = client ∧ w.client.next_id = id) := by
      rintro ⟨rfl, rfl⟩
      rcases hun with hun | ⟨-, hun⟩ <;> omega
    rw [room, if_neg hreq]
    refine hw.1.unissued client id ?_
    rcases hun with hun | ⟨hserial, hun⟩
    · exact Or.inl hun
    · exact Or.inr ⟨hserial, by omega⟩

end

/-- What is asked of the method that logs in again. -/
def CalmProg {α : Type} (m : Run α) : Prop := ∀ start limit, Spec (Calm start limit) m (calm start limit)

section

variable {on_reconnect : Run Unit}

theorem reauthenticate_once_calm (h : CalmProg on_reconnect) : CalmProg (reauthenticate_once on_reconnect) := by
  intro start limit
  refine Spec.look fun reauthenticating => ?_
  by_cases hguard : reauthenticating = true
  · rw [if_pos hguard]
    exact Spec.ret fun w hw => hw.1
  · rw [if_neg hguard]
    refine Spec.bind (D := fun _ => Calm start limit) (Spec.change fun w hw => hw.1) fun _ => ?_
    exact Spec.always (h start limit)

theorem reconnect_and_retry_calm (start : List Event) (limit : ℕ → ℕ → ℕ) (req : Request) (h : CalmProg on_reconnect) :
    Spec (Calm start (room limit req 1)) (reconnect_and_retry on_reconnect req)
      ⟨fun value w => Calm start (room limit req 2) w ∧ Replied req value w,
        calm_raised start (room limit req 2), Calm start (room limit req 2)⟩ := by
  -- until the second send there is room for one, and room for two is enough at any end
  have hmore : ∀ {α : Type} {m : Run α}, Spec (Calm start (room limit req 1)) m (calm start (room limit req 1)) →
      Spec (Calm start (room limit req 1)) m
        ⟨fun _ => Calm start (room limit req 1), calm_raised start (room limit req 2), Calm start (room limit req 2)⟩ := by
    intro α m hm
    refine hm.post (fun _ w hw => hw) (fun e w hw => ⟨hw.1.more (by omega) (by omega), hw.2⟩) fun w hw => ?_
    exact ⟨hw.1.more (by omega) (by omega), hw.2⟩
  refine Spec.bind (D := fun _ => Calm start (room limit req 1)) (Spec.change fun w hw => hw) fun _ => ?_
  refine Spec.bind (hmore connect_calm) fun _ => ?_
  refine Spec.bind (hmore (reauthenticate_once_calm h start _)) fun _ => ?_
  exact send_and_read_calm (by omega)

/-- What `call` does from its first send on. -/
def exchange (on_reconnect : Run Unit) (req : Request) : Run Value := do
  let value ← Prog.attempt (send_and_read req) fun e =>
    if e = .unavailable then reconnect_and_retry on_reconnect req else Prog.raise e
  Prog.change (World.emit (.answered req value))
  pure value

theorem call_eq (on_reconnect : Run Unit) (method : String) (params : Value) :
    call on_reconnect method params = connect >>= fun _ => new_request method params >>= exchange on_reconnect := rfl

/-- However the first send went, the second is the last, and what is returned came under the
id of the request. -/
theorem exchange_calm {P : World → Prop} {start : List Event} {limit : ℕ → ℕ → ℕ} {req : Request} (h : CalmProg on_reconnect)
    (htwo : limit req.client req.id = 2)
    (hsend : Spec P (send_and_read req) ⟨fun value w => Calm start (room limit req 1) w ∧ Replied req value w,
      calm_raised start (room limit req 1), Calm start (room limit req 1)⟩) :
    Spec P (exchange on_reconnect req) (calm start limit) := by
  have hroom := room_two htwo
  refine Spec.bind (D := fun value w => Calm start limit w ∧ Replied req value w)
    (Spec.attempt (E := calm_raised start (room limit req 1)) ?_ fun e => ?_) fun value => ?_
  · refine hsend.post (fun value w hw => ⟨?_, hw.2⟩) (fun _ _ hw => hw) fun w hw => ?_
    · rw [← hroom]
      exact ⟨hw.1.1.more (by omega) (by omega), hw.1.2⟩
    · rw [← hroom]
      exact ⟨hw.1.more (by omega) (by omega), hw.2⟩
  · by_cases he : e = .unavailable
    · rw [if_pos he]
      have hretry := reconnect_and_retry_calm start limit req h
      rw [hroom] at hretry
      refine hretry.pre fun w hw => ⟨hw.1, hw.2 ?_⟩
      rw [he]
      exact fun hne => nomatch hne
    · rw [if_neg he]
      refine Spec.raise fun w hw => ?_
      rw [← hroom]
      exact ⟨hw.1.more (by omega) (by omega), hw.2⟩
  · refine Spec.bind (D := fun _ => Calm start limit) (Spec.change fun w hw => ?_) fun _ => Spec.ret fun w hw => hw
    exact hw.1.emit hw.2 (fun _ _ => rfl) (by intro _ _ heq; cases heq)

/-- A call gives every request two sends at most, returns what came under its id, and is left
by a refusal at once. -/
theorem call_calm (h : CalmProg on_reconnect) (method : String) (params : Value) :
    CalmProg (call on_reconnect method params) := by
  intro start limit
  rw [call_eq]
  refine Spec.bind connect_calm fun _ => ?_
  refine Spec.bind ((new_request_calm method params).post (fun _ _ hw => hw) (fun _ _ hw => hw.elim) fun _ hw => hw.elim)
    fun req w hw => ?_
  exact exchange_calm h hw.2 (send_and_read_calm (by omega)) w hw.1

end

theorem client_close_calm : CalmProg client_close := by
  intro start limit
  refine Spec.look fun connected => ?_
  split
  · exact Spec.change fun w hw => hw.1
  · exact Spec.ret fun w hw => hw.1

/-! ## Attempts to connect -/

/-- One of the attempts to connect gets through. -/
def Reached (answers : List Answer) : Prop := (answers.take RECONNECT_ATTEMPTS).any Option.isSome = true

section

variable {w : World}

theorem transport_connect_live (h : w.live = true) : transport_connect w = (.done (), w) := by
  rcases w with ⟨live, client, held, authenticated, negotiated, log, answers, waiting⟩
  obtain rfl : live = true := h
  rfl

theorem transport_connect_wait (h : w.live = false) (hanswers : w.answers = []) : transport_connect w = (.waiting, w) := by
  rcases w with ⟨live, client, held, authenticated, negotiated, log, answers, waiting⟩
  obtain rfl : live = false := h
  obtain rfl : answers = [] := hanswers
  rfl

theorem transport_connect_drop {rest : List Answer} (h : w.live = false) (hanswers : w.answers = none :: rest) :
    transport_connect w = (.raised .unavailable, { w with answers := rest }) := by
  rcases w with ⟨live, client, held, authenticated, negotiated, log, answers, waiting⟩
  obtain rfl : live = false := h
  obtain rfl : answers = none :: rest := hanswers
  rfl

theorem transport_connect_open {frame : Frame} {rest : List Answer} (h : w.live = false) (hanswers : w.answers = some frame :: rest) :
    transport_connect w = (.done (), { w with live := true, log := .opened :: w.log, answers := rest }) := by
  rcases w with ⟨live, client, held, authenticated, negotiated, log, answers, waiting⟩
  obtain rfl : live = false := h
  obtain rfl : answers = some frame :: rest := hanswers
  rfl

theorem backoff_succ (n : ℕ) {out : Outcome Fault Unit} {w' : World} (h : transport_connect w = (out, w'))
    (hout : ∀ e, out ≠ .raised e) : connect_with_backoff (n + 1) w = (out, w') := by
  rw [connect_with_backoff, Prog.attempt, h]
  rcases out with _ | e | _
  · rfl
  · exact absurd rfl (hout e)
  · rfl

theorem backoff_drop (n : ℕ) {w' : World} (h : transport_connect w = (.raised .unavailable, w')) :
    connect_with_backoff (n + 1) w = connect_with_backoff n w' := by
  rw [connect_with_backoff, Prog.attempt, h]
  dsimp only
  rw [if_pos rfl]

/-- The attempts go on until one gets through. -/
theorem backoff_reached (n : ℕ) (hlive : w.live = false) (hreached : (w.answers.take n).any Option.isSome = true) :
    ∃ rest, connect_with_backoff n w = (.done (), { w with live := true, log := .opened :: w.log, answers := rest }) := by
  induction n generalizing w with
  | zero =>
    rw [List.take_zero, List.any_nil] at hreached
    exact absurd hreached Bool.false_ne_true
  | succ n ih =>
    rcases hanswers : w.answers with _ | ⟨_ | frame, rest⟩
    · rw [hanswers, List.take_nil, List.any_nil] at hreached
      exact absurd hreached Bool.false_ne_true
    · rw [backoff_drop n (transport_connect_drop hlive hanswers)]
      rw [hanswers, List.take_succ_cons, List.any_cons, Option.isSome_none, Bool.false_or] at hreached
      obtain ⟨last, hlast⟩ := ih (w := { w with answers := rest }) hlive hreached
      exact ⟨last, hlast⟩
    · exact ⟨rest, backoff_succ n (transport_connect_open hlive hanswers) fun e h => nomatch h⟩

/-- When none does, nothing has happened. -/
theorem backoff_unreached (n : ℕ) (hlive : w.live = false) (hreached : ¬(w.answers.take n).any Option.isSome = true) :
    ∃ out rest, connect_with_backoff n w = (out, { w with answers := rest }) ∧ ∀ u, out ≠ .done u := by
  induction n generalizing w with
  | zero => exact ⟨.raised .unavailable, w.answers, rfl, fun u h => nomatch h⟩
  | succ n ih =>
    rcases hanswers : w.answers with _ | ⟨_ | frame, rest⟩
    · refine ⟨.waiting, w.answers, ?_, fun u h => nomatch h⟩
      exact backoff_succ n (transport_connect_wait hlive hanswers) fun e h => nomatch h
    · rw [backoff_drop n (transport_connect_drop hlive hanswers)]
      rw [hanswers, List.take_succ_cons, List.any_cons, Option.isSome_none, Bool.false_or] at hreached
      exact ih (w := { w with answers := rest }) hlive hreached
    · rw [hanswers, List.take_succ_cons, List.any_cons, Option.isSome_some, Bool.true_or] at hreached
      exact absurd rfl hreached

/-- A client that knows it is not connected tries to connect. -/
theorem connect_eq (h : w.client.connected = false) :
    connect w = Prog.andThen (connect_with_backoff RECONNECT_ATTEMPTS) (fun _ => Prog.change (World.set_connected true)) w := by
  change (if w.client.connected = true then (pure () : Run Unit) else _) w = _
  rw [h]
  rfl

theorem connect_connected (h : w.client.connected = true) : connect w = (.done (), w) := by
  change (if w.client.connected = true then (pure () : Run Unit) else _) w = _
  rw [h]
  rfl

theorem connect_live (h : w.client.connected = false) (hlive : w.live = true) : connect w = (.done (), w.set_connected true) := by
  have hbackoff : connect_with_backoff RECONNECT_ATTEMPTS w = (.done (), w) :=
    backoff_succ 4 (transport_connect_live hlive) fun e h => nomatch h
  rw [connect_eq h, Prog.andThen, hbackoff]
  rfl

theorem connect_reached (h : w.client.connected = false) (hlive : w.live = false) (hreached : Reached w.answers) :
    ∃ rest, connect w =
      (.done (), World.set_connected true { w with live := true, log := .opened :: w.log, answers := rest }) := by
  obtain ⟨rest, hbackoff⟩ := backoff_reached RECONNECT_ATTEMPTS hlive hreached
  refine ⟨rest, ?_⟩
  rw [connect_eq h, Prog.andThen, hbackoff]
  rfl

theorem connect_unreached (h : w.client.connected = false) (hlive : w.live = false) (hreached : ¬Reached w.answers) :
    ∃ out rest, connect w = (out, { w with answers := rest }) ∧ ∀ u, out ≠ .done u := by
  obtain ⟨out, rest, hbackoff, hout⟩ := backoff_unreached RECONNECT_ATTEMPTS hlive hreached
  refine ⟨out, rest, ?_, hout⟩
  rw [connect_eq h, Prog.andThen, hbackoff]
  rcases out with u | e | _
  · exact absurd rfl (hout u)
  · rfl
  · rfl

end

/-! ## The first send -/

section

variable {start l : List Event} {limit : ℕ → ℕ → ℕ} {w : World} {req : Request} {on_reconnect : Run Unit} {n : ℕ}

/-- A history goes on from itself. -/
theorem Calm.restart (h : Calm start limit w) : Calm w.log limit w :=
  ⟨⟨List.suffix_rfl, h.1.own, h.1.surfaces, h.1.sends, h.1.unissued⟩, h.2⟩

/-- On an open connection the request goes out, whatever comes of it. -/
theorem transport_send_first (hn : n < 2) :
    Spec (fun w => Calm start (room limit req n) w ∧ w.live = true ∧ w.log = l) (transport_send req)
      (calm (.sent req :: l) (room limit req (n + 1))) := by
  refine Spec.look fun live => ?_
  by_cases hlive : live = true
  · rw [if_pos hlive]
    refine Spec.bind (D := fun _ => Calm (.sent req :: l) (room limit req (n + 1))) (Spec.change fun w hw => ?_) fun _ => ?_
    · obtain ⟨⟨hcalm, -, rfl⟩, -⟩ := hw
      exact (hcalm.send hn).restart
    · refine Spec.bind next_answer_calm fun answer => ?_
      split
      · refine Spec.bind (D := fun _ => Calm (.sent req :: l) (room limit req (n + 1))) (Spec.change fun w hw => hw) fun _ => ?_
        exact calm_raise fun w hw => hw
      · exact Spec.ret fun w hw => hw
  · rw [if_neg hlive]
    intro w hw
    exact absurd (hw.2.symm.trans hw.1.2.1) hlive

theorem send_and_read_first :
    Spec (fun w => Calm start (room limit req 0) w ∧ w.live = true ∧ w.log = l) (send_and_read req)
      ⟨fun value w => Calm (.sent req :: l) (room limit req 1) w ∧ Replied req value w,
        calm_raised (.sent req :: l) (room limit req 1), Calm (.sent req :: l) (room limit req 1)⟩ :=
  Spec.bind (transport_send_first (by omega)) fun _ w hw => read_reply_calm w.answers w hw

/-- A call that finds the client connected and the connection open sends its request on it. -/
theorem call_first (h : CalmProg on_reconnect) (method : String) (params : Value) (hcalm : Calm start limit w)
    (hconnected : w.client.connected = true) (hlive : w.live = true) :
    ∃ req, req.method = method ∧ (calm (.sent req :: w.log) limit).holds (call on_reconnect method params w).1
      (call on_reconnect method params w).2 := by
  obtain ⟨hroom, htwo⟩ := new_request_calm method params w hcalm
  refine ⟨{ client := w.client.serial, id := w.client.next_id, method, params }, rfl, ?_⟩
  have hcall : call on_reconnect method params w = exchange on_reconnect
      { client := w.client.serial, id := w.client.next_id, method, params } (new_request method params w).2 := by
    rw [call_eq]
    change Prog.andThen connect _ w = _
    rw [Prog.andThen, connect_connected hconnected]
    rfl
  rw [hcall]
  exact exchange_calm h htwo send_and_read_first _ ⟨hroom, hlive, rfl⟩

end

/-! ## The guard -/

section

variable {req : Request}

/-- A login is running. -/
def Guarded (w : World) : Prop := w.client.reauthenticating = true

theorem transport_connect_guarded : Keeps Guarded transport_connect := by
  refine Spec.look fun live => ?_
  split
  · exact Spec.ret fun w hw => hw.1
  · refine Spec.bind ((next_answer_spec fun _ _ h => h).pre fun w hw => hw.1) fun answer => ?_
    split
    · exact Spec.raise fun w hw => hw
    · exact Spec.change fun w hw => hw

theorem connect_with_backoff_guarded (n : ℕ) : Keeps Guarded (connect_with_backoff n) := by
  induction n with
  | zero => exact Spec.raise fun w hw => hw
  | succ n ih =>
    refine Spec.attempt transport_connect_guarded fun e => ?_
    split
    · exact ih
    · exact Spec.raise fun w hw => hw

theorem connect_guarded : Keeps Guarded connect := by
  refine Spec.look fun connected => ?_
  split
  · exact Spec.ret fun w hw => hw.1
  · refine Spec.bind ((connect_with_backoff_guarded _).pre fun w hw => hw.1) fun _ => ?_
    exact Spec.change fun w hw => hw

theorem transport_send_guarded : Keeps Guarded (transport_send req) := by
  refine Spec.look fun live => ?_
  split
  · refine Spec.bind (D := fun _ => Guarded) (Spec.change fun w hw => hw.1) fun _ => ?_
    refine Spec.bind (next_answer_spec fun _ _ h => h) fun answer => ?_
    split
    · exact Spec.bind (D := fun _ => Guarded) (Spec.change fun w hw => hw) fun _ => Spec.raise fun w hw => hw
    · exact Spec.ret fun w hw => hw
  · exact Spec.raise fun w hw => hw.1

theorem read_reply_guarded (answers : List Answer) : Keeps Guarded (read_reply req answers) := by
  induction answers with
  | nil => exact fun w hw => hw
  | cons answer rest ih =>
    intro w hw
    rcases answer with _ | _ | _ | ⟨id, body⟩
    · exact hw
    · exact hw
    · exact hw
    · dsimp only [read_reply]
      split
      · rcases body with value | code | _
        · exact hw
        · dsimp only [unwrap]
          split <;> exact hw
        · exact hw
      · exact ih _ hw

theorem send_and_read_guarded : Keeps Guarded (send_and_read req) :=
  Spec.bind transport_send_guarded fun _ w hw => read_reply_guarded w.answers w hw

theorem reauthenticate_once_guarded (on_reconnect : Run Unit) {w : World} (hw : Guarded w) :
    reauthenticate_once on_reconnect w = (.done (), w) := by
  change (if w.client.reauthenticating = true then (pure () : Run Unit) else _) w = _
  rw [hw]
  rfl

/-- While a login is running, the method that logs in again is not called. -/
theorem call_guarded (r r' : Run Unit) (method : String) (params : Value) {w : World} (hw : Guarded w) :
    call r method params w = call r' method params w := by
  rw [call_eq, call_eq]
  refine Prog.bind_congr connect_guarded (fun _ s hs => ?_) hw
  have hnew : Keeps Guarded (new_request method params) := fun _ h => h
  refine Prog.bind_congr hnew (fun req s hs => ?_) hs
  -- the two differ in the handler only, after its reconnect
  change Prog.andThen _ _ s = Prog.andThen _ _ s
  rw [Prog.andThen, Prog.andThen, Prog.attempt_congr send_and_read_guarded (fun e s hs => ?_) hs]
  split
  · have hdown : Keeps Guarded (Prog.change (World.set_connected false) : Run Unit) := fun _ h => h
    refine Prog.bind_congr hdown (fun _ s hs => ?_) hs
    refine Prog.bind_congr connect_guarded (fun _ s hs => ?_) hs
    change Prog.andThen _ _ s = Prog.andThen _ _ s
    rw [Prog.andThen, Prog.andThen, reauthenticate_once_guarded r hs, reauthenticate_once_guarded r' hs]
  · rfl

end

end Fathom.Adapters
