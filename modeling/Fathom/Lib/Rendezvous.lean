/-
**A rendezvous over per-host queues**: a caller puts a signed item on a host's
queue and waits on a future; the host polls the item, checks it against its own
clock and its ledger of nonces, acts on it, and posts a reply that resolves the
future.

The core's side is a structure with its operations; the agents' side is the
checks, the ledger and the acts. `channel` runs the two together, with the event
loop's clock, the core's wall clock and a wall clock per host all free to move.
What the items look like is a parameter (`Protocol`).

A future is an object, and what is said of "a waiter" is said of that object. The
model gives each accepted enqueue a number, its *ticket*, which stands for the
identity of the future and of the queued item; no operation reads it to decide
anything. With tickets the statements hold of every run, also where a caller
uses an id again (`handed_once`, `resolved_once`).
-/
import Fathom.Lib.Ledger
import Mathlib.Data.List.Perm.Subperm
import Mathlib.Logic.Function.Basic

set_option autoImplicit false
set_option linter.unusedSectionVars false

namespace Fathom

/-- How the future of a waiter stands. -/
inductive Future (ρ : Type) where
  | pending
  | done (outcome : ρ)
  /-- the wait timed out before there was an outcome -/
  | cancelled
  deriving DecidableEq

/-- A future with the ticket that names it and its deadline in loop time. -/
structure Waiter (ρ : Type) where
  ticket : ℕ
  deadline : ℕ
  future : Future ρ
  deriving DecidableEq

/-- The queues per host, the futures by id, the host each id was issued to, and
the next ticket. -/
structure Rendezvous (κ η π ρ : Type) where
  queues : η → List (ℕ × π)
  results : κ → Option (Waiter ρ)
  issued_to : κ → Option η
  next : ℕ

/-- Why an operation is refused. -/
inductive CorrelationError where
  /-- an id that is in flight is enqueued -/
  | duplicate
  /-- no one waits for the id -/
  | unknown
  /-- the id was issued to another host -/
  | host_mismatch
  /-- the future is done -/
  | already_resolved
  deriving DecidableEq

namespace Rendezvous

variable {κ η ν π δ ρ : Type} [DecidableEq κ] [DecidableEq η] [DecidableEq ν]

/-! ## The core's side -/

/-- The rendezvous at the start: nothing queued, no one waiting. -/
def empty : Rendezvous κ η π ρ := ⟨fun _ => [], fun _ => none, fun _ => none, 0⟩

/-- Queue the item and wait on a new future, unless the id is in flight. -/
def enqueue (r : Rendezvous κ η π ρ) (id : κ) (host : η) (item : π) (deadline : ℕ) :
    Except CorrelationError (ℕ × Rendezvous κ η π ρ) :=
  if (r.results id).isSome then .error .duplicate
  else .ok (r.next, {
    queues := Function.update r.queues host (r.queues host ++ [(r.next, item)])
    results := Function.update r.results id (some ⟨r.next, deadline, .pending⟩)
    issued_to := Function.update r.issued_to id (some host)
    next := r.next + 1 })

/-- Fail the waiter of an id, if it is still pending: its ticket, when it was. -/
def expire_waiter (r : Rendezvous κ η π ρ) (id : κ) (outcome : ρ) :
    Option ℕ × Rendezvous κ η π ρ :=
  match r.results id with
  | some ⟨ticket, deadline, .pending⟩ =>
    (some ticket, { r with
      results := Function.update r.results id (some ⟨ticket, deadline, .done outcome⟩) })
  | _ => (none, r)

/-- What one turn of the loop of a poll comes to. -/
inductive Turn (π : Type) where
  /-- the item is handed to the poll, which ends -/
  | handed (ticket : ℕ) (item : π)
  /-- the item was expired, with the waiter this failed; the poll goes on -/
  | dropped (ticket : ℕ) (item : π) (failed : Option ℕ)
  deriving DecidableEq

/-- One turn of the loop of a poll: the first item of the queue, if there is one. -/
def poll_turn (expired : π → Bool) (id : π → κ) (expiry : ρ) (r : Rendezvous κ η π ρ) (host : η) :
    Option (Turn π × Rendezvous κ η π ρ) :=
  match r.queues host with
  | [] => none
  | (ticket, item) :: rest =>
    let taken := { r with queues := Function.update r.queues host rest }
    if expired item then
      let failed := taken.expire_waiter (id item) expiry
      some (.dropped ticket item failed.1, failed.2)
    else some (.handed ticket item, taken)

/-- A reply of a host resolves the future of the id: the ticket of the future. -/
def resolve (r : Rendezvous κ η π ρ) (id : κ) (host : η) (outcome : ρ) :
    Except CorrelationError (ℕ × Rendezvous κ η π ρ) :=
  match r.results id, r.issued_to id with
  | some ⟨ticket, deadline, future⟩, some issued_to =>
    if issued_to ≠ host then .error .host_mismatch
    else
      match future with
      | .pending =>
        .ok (ticket, { r with
          results := Function.update r.results id (some ⟨ticket, deadline, .done outcome⟩) })
      | _ => .error .already_resolved
  | _, _ => .error .unknown

/-- The timeout of a waiter passes: a future that is pending is cancelled. -/
def time_out (r : Rendezvous κ η π ρ) (loop_time : ℕ) (id : κ) : Option (Rendezvous κ η π ρ) :=
  match r.results id with
  | some ⟨ticket, deadline, .pending⟩ =>
    if deadline ≤ loop_time then
      some { r with
        results := Function.update r.results id (some ⟨ticket, deadline, .cancelled⟩) }
    else none
  | _ => none

/-- The waiter of an id goes on, once its future is not pending any more, and the
id is forgotten: its ticket and what it has. It can time out although an outcome
has come, when both happen in the same turn of the loop. -/
def finish (r : Rendezvous κ η π ρ) (loop_time : ℕ) (id : κ) (timed_out : Bool) :
    Option ((ℕ × Option ρ) × Rendezvous κ η π ρ) :=
  let left := { r with
    results := Function.update r.results id none
    issued_to := Function.update r.issued_to id none }
  match r.results id with
  | some ⟨ticket, deadline, .done outcome⟩ =>
    if ¬timed_out then some ((ticket, some outcome), left)
    else if deadline ≤ loop_time then some ((ticket, none), left)
    else none
  | some ⟨ticket, _, .cancelled⟩ => if timed_out then some ((ticket, none), left) else none
  | _ => none

/-! ## The agents' side -/

/-- What a rendezvous reads of its items and of the replies to them. -/
structure Protocol (κ η ν π δ ρ : Type) where
  id : π → κ
  /-- the host an item is issued to -/
  scope : π → η
  nonce : π → ν
  issued_at : π → Int
  expires_at : π → Int
  /-- the signature check of the agents -/
  signature_ok : π → Bool
  /-- the outcome of a waiter whose item is found expired by a poll -/
  expiry : ρ
  /-- the id a reply is for, and the outcome it brings -/
  reply : δ → κ × ρ

/-- What the checks before the nonce raise. -/
inductive VerificationError (η : Type) where
  | signature
  | expired
  | not_yet_valid
  | host_scope (scope expected : η)
  deriving DecidableEq

/-- The checks of an agent before the nonce, in their order. -/
def verify_checks (P : Protocol κ η ν π δ ρ) (expected : η) (now : Int) (signed : π) :
    Except (VerificationError η) Unit :=
  if ¬P.signature_ok signed then .error .signature
  else if P.expires_at signed ≤ now then .error .expired
  else if now < P.issued_at signed then .error .not_yet_valid
  else if P.scope signed ≠ expected then .error (.host_scope (P.scope signed) expected)
  else .ok ()

/-- An item that passes every check before the nonce. -/
structure Verifies (P : Protocol κ η ν π δ ρ) (expected : η) (now : Int) (signed : π) : Prop where
  signature : P.signature_ok signed = true
  not_expired : now < P.expires_at signed
  valid_yet : P.issued_at signed ≤ now
  in_scope : P.scope signed = expected

variable {host : η} {signed : π} {n : ℕ}

theorem verify_checks_ok {P : Protocol κ η ν π δ ρ} {expected : η} {now : Int} :
    verify_checks P expected now signed = .ok () ↔ Verifies P expected now signed := by
  unfold verify_checks
  constructor
  · intro h
    split_ifs at h with hs he hv hh
    exact ⟨by simpa using hs, by omega, by omega, by simpa using hh⟩
  · intro h
    have he := h.not_expired
    have hv := h.valid_yet
    rw [if_neg (by simp [h.signature]), if_neg (by omega), if_neg (by omega),
      if_neg (by simp [h.in_scope])]

/-- What the insertion of a nonce comes to. -/
inductive Spent where
  | fresh
  /-- the nonce is there -/
  | replay
  /-- the ledger could not be written: nothing was inserted -/
  | locked
  deriving DecidableEq

/-! ## The channel -/

/-- The rendezvous, the clocks, and of each host its ledger and the items that
have passed the checks and wait for their nonce. -/
structure Channel (κ η ν π ρ : Type) where
  core : Rendezvous κ η π ρ
  loop_time : ℕ
  core_now : Int
  agent_now : η → Int
  ledgers : η → Ledger ν κ
  checked : η → List π

/-- What can happen. A label says who moves and what comes of it. -/
inductive Label (κ η π δ : Type) where
  /-- a caller enqueues an item for the host it is issued to and starts to wait -/
  | enqueue (signed : π) (timeout : ℕ) (answer : Except CorrelationError ℕ)
  /-- one turn of the loop of a poll of a host -/
  | poll (host : η) (turn : Turn π)
  /-- a host posts a reply: the ticket it resolves, or the refusal -/
  | post (host : η) (reply : δ) (answer : Except CorrelationError ℕ)
  /-- the timeout of the waiter of an id passes -/
  | time_out (id : κ)
  /-- the waiter of an id goes on -/
  | finish (id : κ) (timed_out : Bool)
  /-- an agent runs the checks on an item, wherever it has it from -/
  | check (host : η) (signed : π) (outcome : Except (VerificationError η) Unit)
  /-- an agent inserts the nonce of an item it has checked, and acts on it if it is fresh -/
  | spend (host : η) (signed : π) (outcome : Spent)
  /-- an agent is killed and started again: its ledger is a file -/
  | restart (host : η)
  | tick (time : ℕ)
  | set_core_clock (now : Int)
  | set_agent_clock (host : η) (now : Int)

variable [DecidableEq π]

/-- `enqueue` with the host of the item. -/
def enqueue_step (P : Protocol κ η ν π δ ρ) (s : Channel κ η ν π ρ) (signed : π) (timeout : ℕ)
    (answer : Except CorrelationError ℕ) : Option (Channel κ η ν π ρ) :=
  match s.core.enqueue (P.id signed) (P.scope signed) signed (s.loop_time + timeout), answer with
  | .ok (ticket, core), .ok n => if ticket = n then some { s with core } else none
  | .error e, .error e' => if e = e' then some s else none
  | _, _ => none

/-- An item is expired by the core's clock. -/
def expired (P : Protocol κ η ν π δ ρ) (now : Int) (signed : π) : Bool := P.expires_at signed ≤ now

def poll_step (P : Protocol κ η ν π δ ρ) (s : Channel κ η ν π ρ) (host : η) (turn : Turn π) :
    Option (Channel κ η ν π ρ) :=
  match s.core.poll_turn (expired P s.core_now) P.id P.expiry host with
  | some (turn', core) => if turn' = turn then some { s with core } else none
  | none => none

def post_step (P : Protocol κ η ν π δ ρ) (s : Channel κ η ν π ρ) (host : η) (reply : δ)
    (answer : Except CorrelationError ℕ) : Option (Channel κ η ν π ρ) :=
  match s.core.resolve (P.reply reply).1 host (P.reply reply).2, answer with
  | .ok (ticket, core), .ok n => if ticket = n then some { s with core } else none
  | .error e, .error e' => if e = e' then some s else none
  | _, _ => none

def check_step (P : Protocol κ η ν π δ ρ) (s : Channel κ η ν π ρ) (host : η) (signed : π)
    (outcome : Except (VerificationError η) Unit) : Option (Channel κ η ν π ρ) :=
  if verify_checks P host (s.agent_now host) signed = outcome then
    match outcome with
    | .ok _ => some { s with
        checked := Function.update s.checked host (s.checked host ++ [signed]) }
    | .error _ => some s
  else none

/-- The `INSERT` against the primary key. -/
def spend_step (P : Protocol κ η ν π δ ρ) (s : Channel κ η ν π ρ) (host : η) (signed : π)
    (outcome : Spent) : Option (Channel κ η ν π ρ) :=
  if signed ∈ s.checked host then
    let left := { s with checked := Function.update s.checked host ((s.checked host).erase signed) }
    match outcome, (s.ledgers host).insert (P.nonce signed) (P.id signed) with
    | .locked, _ => some left
    | .fresh, (true, ledger) => some { left with ledgers := Function.update s.ledgers host ledger }
    | .replay, (false, _) => some left
    | _, _ => none
  else none

/-- One step of the channel. -/
def channel_step (P : Protocol κ η ν π δ ρ) (s : Channel κ η ν π ρ) :
    Label κ η π δ → Option (Channel κ η ν π ρ)
  | .enqueue signed timeout answer => enqueue_step P s signed timeout answer
  | .poll host turn => poll_step P s host turn
  | .post host reply answer => post_step P s host reply answer
  | .time_out id => (s.core.time_out s.loop_time id).map fun core => { s with core }
  | .finish id timed_out =>
    (s.core.finish s.loop_time id timed_out).map fun left => { s with core := left.2 }
  | .check host signed outcome => check_step P s host signed outcome
  | .spend host signed outcome => spend_step P s host signed outcome
  | .restart host => some { s with checked := Function.update s.checked host [] }
  | .tick time => some { s with loop_time := s.loop_time + time }
  | .set_core_clock now => some { s with core_now := now }
  | .set_agent_clock host now =>
    some { s with agent_now := Function.update s.agent_now host now }

/-- The channel from the start of the core, over ledgers that were there before. -/
def channel (P : Protocol κ η ν π δ ρ) (ledgers₀ : η → Ledger ν κ) :
    System (Channel κ η ν π ρ) (Label κ η π δ) where
  init := fun s => s.core = empty ∧ s.ledgers = ledgers₀ ∧ s.checked = fun _ => []
  step := channel_step P

/-! ## What an operation can do -/

section Operations

variable {r t : Rendezvous κ η π ρ}

theorem enqueue_ok {id : κ} {item : π} {deadline : ℕ}
    (h : r.enqueue id host item deadline = .ok (n, t)) :
    r.results id = none ∧ n = r.next ∧ t = {
      queues := Function.update r.queues host (r.queues host ++ [(r.next, item)])
      results := Function.update r.results id (some ⟨r.next, deadline, .pending⟩)
      issued_to := Function.update r.issued_to id (some host)
      next := r.next + 1 } := by
  unfold enqueue at h
  split_ifs at h with hflight
  have hpair := Except.ok.inj h
  rw [Prod.mk.injEq] at hpair
  exact ⟨by simpa using hflight, hpair.1.symm, hpair.2.symm⟩

theorem expire_waiter_cases (r : Rendezvous κ η π ρ) (id : κ) (outcome : ρ) :
    r.expire_waiter id outcome = (none, r) ∨
      ∃ ticket deadline, r.results id = some ⟨ticket, deadline, .pending⟩ ∧
        r.expire_waiter id outcome = (some ticket, { r with
          results := Function.update r.results id (some ⟨ticket, deadline, .done outcome⟩) }) := by
  unfold expire_waiter
  split
  · rename_i ticket deadline hw
    exact Or.inr ⟨ticket, deadline, hw, rfl⟩
  · exact Or.inl rfl

theorem poll_turn_handed {expired : π → Bool} {id : π → κ} {expiry : ρ} {item : π}
    (h : poll_turn expired id expiry r host = some (.handed n item, t)) :
    ∃ rest, r.queues host = (n, item) :: rest ∧ expired item = false ∧
      t = { r with queues := Function.update r.queues host rest } := by
  unfold poll_turn at h
  split at h
  · exact absurd h (by simp)
  · rename_i ticket first rest hq
    dsimp only at h
    split_ifs at h with hexp
    · exact absurd h (by simp)
    · rw [Option.some.injEq, Prod.mk.injEq, Turn.handed.injEq] at h
      obtain ⟨⟨hn, hitem⟩, ht⟩ := h
      rw [← hn, ← hitem]
      exact ⟨rest, hq, by simpa using hexp, ht.symm⟩

theorem poll_turn_dropped {expired : π → Bool} {id : π → κ} {expiry : ρ} {item : π}
    {failed : Option ℕ} (h : poll_turn expired id expiry r host = some (.dropped n item failed, t)) :
    ∃ rest, r.queues host = (n, item) :: rest ∧
      (failed, t) = { r with queues := Function.update r.queues host rest }.expire_waiter
        (id item) expiry := by
  unfold poll_turn at h
  split at h
  · exact absurd h (by simp)
  · rename_i ticket first rest hq
    dsimp only at h
    split_ifs at h with hexp
    · rw [Option.some.injEq, Prod.mk.injEq, Turn.dropped.injEq] at h
      obtain ⟨⟨hn, hitem, hfailed⟩, ht⟩ := h
      rw [← hn, ← hitem]
      exact ⟨rest, hq, by rw [← hfailed, ← ht]⟩
    · exact absurd h (by simp)

/-- A reply is accepted only from the host the id was issued to, for a pending future. -/
theorem resolve_ok {id : κ} {outcome : ρ} (h : r.resolve id host outcome = .ok (n, t)) :
    ∃ deadline, r.results id = some ⟨n, deadline, .pending⟩ ∧ r.issued_to id = some host ∧
      t = { r with
        results := Function.update r.results id (some ⟨n, deadline, .done outcome⟩) } := by
  unfold resolve at h
  split at h
  · rename_i ticket deadline future issued_to hw hi
    split_ifs at h with hhost
    split at h
    · have hpair := Except.ok.inj h
      rw [Prod.mk.injEq] at hpair
      rw [← hpair.1]
      exact ⟨deadline, hw, by rw [hi, not_not.mp hhost], hpair.2.symm⟩
    · exact absurd h (by simp)
  · exact absurd h (by simp)

theorem time_out_some {loop_time : ℕ} {id : κ} (h : r.time_out loop_time id = some t) :
    ∃ ticket deadline, r.results id = some ⟨ticket, deadline, .pending⟩ ∧
      t = { r with
        results := Function.update r.results id (some ⟨ticket, deadline, .cancelled⟩) } := by
  unfold time_out at h
  split at h
  · rename_i ticket deadline hw
    split_ifs at h
    exact ⟨ticket, deadline, hw, (Option.some.inj h).symm⟩
  · exact absurd h (by simp)

theorem finish_some {loop_time : ℕ} {id : κ} {timed_out : Bool} {ended : ℕ × Option ρ}
    (h : r.finish loop_time id timed_out = some (ended, t)) :
    t = { r with
      results := Function.update r.results id none
      issued_to := Function.update r.issued_to id none } := by
  unfold finish at h
  dsimp only at h
  split at h
  · split_ifs at h
    · exact (Prod.mk.inj (Option.some.inj h)).2.symm
    · exact (Prod.mk.inj (Option.some.inj h)).2.symm
  · split_ifs at h
    exact (Prod.mk.inj (Option.some.inj h)).2.symm
  · exact absurd h (by simp)

end Operations

/-! ## The queues -/

theorem nodup_snoc {α : Type} {xs : List α} {x : α} (hxs : xs.Nodup) (hx : x ∉ xs) : (xs ++ [x]).Nodup := by
  rw [← List.concat_eq_append]
  exact hxs.concat hx

/-- What ties the queues to what was enqueued and handed: an item waits in the queue
of its own host, once, and has not been handed. -/
structure QueueInv (P : Protocol κ η ν π δ ρ) (enqueued handed : List (ℕ × π))
    (r : Rendezvous κ η π ρ) : Prop where
  ticket_lt : ∀ e ∈ enqueued, e.1 < r.next
  ticket_nodup : (enqueued.map Prod.fst).Nodup
  queued : ∀ host, ∀ e ∈ r.queues host, e ∈ enqueued ∧ P.scope e.2 = host ∧ e.1 ∉ handed.map Prod.fst
  queue_nodup : ∀ host, ((r.queues host).map Prod.fst).Nodup
  handed_mem : ∀ e ∈ handed, e ∈ enqueued
  handed_nodup : (handed.map Prod.fst).Nodup

section Queue

variable {P : Protocol κ η ν π δ ρ} {enqueued handed : List (ℕ × π)} {r : Rendezvous κ η π ρ}

/-- A ticket names one item. -/
theorem QueueInv.ticket_unique (h : QueueInv P enqueued handed r) {p q : π} (hp : (n, p) ∈ enqueued)
    (hq : (n, q) ∈ enqueued) : p = q := by
  have hpair := List.inj_on_of_nodup_map h.ticket_nodup hp hq rfl
  exact (Prod.mk.inj hpair).2

/-- The futures are no part of it. -/
theorem QueueInv.congr {t : Rendezvous κ η π ρ} (h : QueueInv P enqueued handed r)
    (hqueues : t.queues = r.queues) (hnext : t.next = r.next) : QueueInv P enqueued handed t where
  ticket_lt := by rw [hnext]; exact h.ticket_lt
  ticket_nodup := h.ticket_nodup
  queued := by rw [hqueues]; exact h.queued
  queue_nodup := by rw [hqueues]; exact h.queue_nodup
  handed_mem := h.handed_mem
  handed_nodup := h.handed_nodup

theorem QueueInv.enqueue (h : QueueInv P enqueued handed r) (item : π)
    (results : κ → Option (Waiter ρ)) (issued_to : κ → Option η) :
    QueueInv P (enqueued ++ [(r.next, item)]) handed {
      queues := Function.update r.queues (P.scope item)
        (r.queues (P.scope item) ++ [(r.next, item)])
      results, issued_to, next := r.next + 1 } := by
  -- the new ticket names nothing yet
  have hnew : r.next ∉ enqueued.map Prod.fst := by
    intro hmem
    obtain ⟨e, he, heq⟩ := List.mem_map.mp hmem
    have hlt := h.ticket_lt e he
    omega
  refine ⟨?_, ?_, ?_, ?_, ?_, h.handed_nodup⟩
  · intro e he
    dsimp only
    rw [List.mem_append, List.mem_singleton] at he
    rcases he with he | rfl
    · have hlt := h.ticket_lt e he
      omega
    · exact Nat.lt_succ_self _
  · rw [List.map_append, List.map_singleton]
    exact nodup_snoc h.ticket_nodup hnew
  · intro host e he
    dsimp only at he
    by_cases hhost : host = P.scope item
    · rw [hhost, Function.update_self, List.mem_append, List.mem_singleton] at he
      rcases he with he | rfl
      · obtain ⟨hmem, hscope, hnot⟩ := h.queued _ e he
        exact ⟨List.mem_append_left _ hmem, by rw [hhost, hscope], hnot⟩
      · refine ⟨List.mem_append_right _ (List.mem_singleton.mpr rfl), hhost.symm, fun hmem => ?_⟩
        obtain ⟨e, he, heq⟩ := List.mem_map.mp hmem
        apply hnew
        rw [← show e.1 = r.next from heq]
        exact List.mem_map_of_mem (h.handed_mem e he)
    · rw [Function.update_of_ne hhost] at he
      obtain ⟨hmem, hscope, hnot⟩ := h.queued host e he
      exact ⟨List.mem_append_left _ hmem, hscope, hnot⟩
  · intro host
    dsimp only
    by_cases hhost : host = P.scope item
    · rw [hhost, Function.update_self, List.map_append, List.map_singleton]
      refine nodup_snoc (h.queue_nodup _) fun hmem => hnew ?_
      obtain ⟨e, he, heq⟩ := List.mem_map.mp hmem
      rw [← show e.1 = r.next from heq]
      exact List.mem_map_of_mem (h.queued _ e he).1
    · rw [Function.update_of_ne hhost]
      exact h.queue_nodup host
  · intro e he
    exact List.mem_append_left _ (h.handed_mem e he)

/-- The first item of a queue leaves it; whether it counts as handed makes no
difference to the others. -/
theorem QueueInv.take (h : QueueInv P enqueued handed r) {item : π} {rest : List (ℕ × π)}
    (hq : r.queues host = (n, item) :: rest) {handed' : List (ℕ × π)}
    (hhanded : handed' = handed ∨ handed' = handed ++ [(n, item)]) :
    QueueInv P enqueued handed' { r with queues := Function.update r.queues host rest } := by
  obtain ⟨hmem, hscope, hnot⟩ := h.queued host (n, item) (by rw [hq]; exact List.mem_cons_self ..)
  have hnodup := h.queue_nodup host
  rw [hq, List.map_cons, List.nodup_cons] at hnodup
  refine ⟨h.ticket_lt, h.ticket_nodup, ?_, ?_, ?_, ?_⟩
  · intro host' e he
    dsimp only at he
    -- an item that is left has another ticket than the one taken
    have hleft : e ∈ r.queues host' ∧ e.1 ≠ n := by
      by_cases hhost : host' = host
      · rw [hhost, Function.update_self] at he
        rw [hhost, hq]
        refine ⟨List.mem_cons_of_mem _ he, fun heq => hnodup.1 ?_⟩
        have hleft := List.mem_map_of_mem (f := Prod.fst) he
        rw [heq] at hleft
        exact hleft
      · rw [Function.update_of_ne hhost] at he
        obtain ⟨hmem', hscope', -⟩ := h.queued host' e he
        refine ⟨he, fun heq => hhost ?_⟩
        have hitem : e.2 = item := h.ticket_unique (by rw [← heq]; exact hmem') hmem
        rw [← hscope', ← hscope, hitem]
    obtain ⟨hmem', hscope', hnot'⟩ := h.queued host' e hleft.1
    refine ⟨hmem', hscope', ?_⟩
    rcases hhanded with rfl | rfl
    · exact hnot'
    · rw [List.map_append, List.mem_append, List.map_singleton, List.mem_singleton]
      exact fun hor => hor.elim hnot' hleft.2
  · intro host'
    dsimp only
    by_cases hhost : host' = host
    · rw [hhost, Function.update_self]
      exact hnodup.2
    · rw [Function.update_of_ne hhost]
      exact h.queue_nodup host'
  · intro e he
    rcases hhanded with rfl | rfl
    · exact h.handed_mem e he
    · rw [List.mem_append, List.mem_singleton] at he
      rcases he with he | rfl
      · exact h.handed_mem e he
      · exact hmem
  · rcases hhanded with rfl | rfl
    · exact h.handed_nodup
    · rw [List.map_append, List.map_singleton]
      exact nodup_snoc h.handed_nodup hnot

end Queue

/-! ## The waiters -/

/-- What ties the futures to what was enqueued and to the outcomes brought: a future
waits under the id and the host of its own item; a pending one has had no outcome, a
done one has the one it was brought. -/
structure WaiterInv (P : Protocol κ η ν π δ ρ) (enqueued : List (ℕ × π)) (brought : List (ℕ × ρ))
    (r : Rendezvous κ η π ρ) : Prop where
  waiting : ∀ id w, r.results id = some w →
    ∃ p, (w.ticket, p) ∈ enqueued ∧ P.id p = id ∧ r.issued_to id = some (P.scope p)
  pending : ∀ id w, r.results id = some w → w.future = .pending →
    w.ticket ∉ brought.map Prod.fst
  done : ∀ id w o, r.results id = some w → w.future = .done o → (w.ticket, o) ∈ brought
  brought_lt : ∀ b ∈ brought, b.1 < r.next
  brought_nodup : (brought.map Prod.fst).Nodup

section Waiters

variable {P : Protocol κ η ν π δ ρ} {enqueued handed : List (ℕ × π)}
  {brought : List (ℕ × ρ)} {r : Rendezvous κ η π ρ}

/-- The queues are no part of it. -/
theorem WaiterInv.congr {t : Rendezvous κ η π ρ} (h : WaiterInv P enqueued brought r)
    (hresults : t.results = r.results) (hissued : t.issued_to = r.issued_to)
    (hnext : t.next = r.next) : WaiterInv P enqueued brought t where
  waiting := by rw [hresults, hissued]; exact h.waiting
  pending := by rw [hresults]; exact h.pending
  done := by rw [hresults]; exact h.done
  brought_lt := by rw [hnext]; exact h.brought_lt
  brought_nodup := h.brought_nodup

theorem WaiterInv.enqueue (h : WaiterInv P enqueued brought r) (item : π) (deadline : ℕ)
    (queues : η → List (ℕ × π)) :
    WaiterInv P (enqueued ++ [(r.next, item)]) brought {
      queues
      results := Function.update r.results (P.id item) (some ⟨r.next, deadline, .pending⟩)
      issued_to := Function.update r.issued_to (P.id item) (some (P.scope item))
      next := r.next + 1 } := by
  refine ⟨?_, ?_, ?_, ?_, h.brought_nodup⟩
  · intro id w hw
    dsimp only at hw ⊢
    by_cases hid : id = P.id item
    · rw [hid, Function.update_self, Option.some.injEq] at hw
      rw [← hw, hid, Function.update_self]
      exact ⟨item, List.mem_append_right _ (List.mem_singleton.mpr rfl), rfl, rfl⟩
    · rw [Function.update_of_ne hid] at hw
      rw [Function.update_of_ne hid]
      obtain ⟨p, hp, hpid, hissued⟩ := h.waiting id w hw
      exact ⟨p, List.mem_append_left _ hp, hpid, hissued⟩
  · intro id w hw hpending hmem
    dsimp only at hw
    by_cases hid : id = P.id item
    · rw [hid, Function.update_self, Option.some.injEq] at hw
      rw [← hw] at hmem
      obtain ⟨b, hb, heq⟩ := List.mem_map.mp hmem
      have hlt := h.brought_lt b hb
      dsimp only at heq
      omega
    · rw [Function.update_of_ne hid] at hw
      exact h.pending id w hw hpending hmem
  · intro id w o hw hdone
    dsimp only at hw
    by_cases hid : id = P.id item
    · rw [hid, Function.update_self, Option.some.injEq] at hw
      rw [← hw] at hdone
      exact absurd hdone (by simp)
    · rw [Function.update_of_ne hid] at hw
      exact h.done id w o hw hdone
  · intro b hb
    have hlt := h.brought_lt b hb
    dsimp only
    omega

/-- A pending future gets its outcome. The futures of the other ids have other tickets. -/
theorem WaiterInv.bring (h : WaiterInv P enqueued brought r) (hqueue : QueueInv P enqueued handed r)
    {id : κ} {deadline : ℕ} (o : ρ) (hw : r.results id = some ⟨n, deadline, .pending⟩) :
    WaiterInv P enqueued (brought ++ [(n, o)]) { r with
      results := Function.update r.results id (some ⟨n, deadline, .done o⟩) } := by
  obtain ⟨p, hp, hpid, hissued⟩ := h.waiting id _ hw
  have hother : ∀ id' w', id' ≠ id → r.results id' = some w' → w'.ticket ≠ n := by
    intro id' w' hne hw' heq
    obtain ⟨p', hp', hpid', -⟩ := h.waiting id' w' hw'
    rw [heq] at hp'
    exact hne (by rw [← hpid', ← hpid, hqueue.ticket_unique hp' hp])
  refine ⟨?_, ?_, ?_, ?_, ?_⟩
  · intro id' w' hw'
    dsimp only at hw' ⊢
    by_cases hid : id' = id
    · rw [hid, Function.update_self, Option.some.injEq] at hw'
      rw [← hw', hid]
      exact ⟨p, hp, hpid, hissued⟩
    · rw [Function.update_of_ne hid] at hw'
      exact h.waiting id' w' hw'
  · intro id' w' hw' hpending
    dsimp only at hw'
    by_cases hid : id' = id
    · rw [hid, Function.update_self, Option.some.injEq] at hw'
      rw [← hw'] at hpending
      exact absurd hpending (by simp)
    · rw [Function.update_of_ne hid] at hw'
      rw [List.map_append, List.mem_append, List.map_singleton, List.mem_singleton]
      exact fun hor => hor.elim (h.pending id' w' hw' hpending) (hother id' w' hid hw')
  · intro id' w' o' hw' hdone
    dsimp only at hw'
    by_cases hid : id' = id
    · rw [hid, Function.update_self, Option.some.injEq] at hw'
      rw [← hw'] at hdone ⊢
      rw [← Future.done.inj hdone]
      exact List.mem_append_right _ (List.mem_singleton.mpr rfl)
    · rw [Function.update_of_ne hid] at hw'
      exact List.mem_append_left _ (h.done id' w' o' hw' hdone)
  · intro b hb
    rw [List.mem_append, List.mem_singleton] at hb
    rcases hb with hb | rfl
    · exact h.brought_lt b hb
    · exact hqueue.ticket_lt _ hp
  · rw [List.map_append, List.map_singleton]
    exact nodup_snoc h.brought_nodup (h.pending id _ hw rfl)

/-- A pending future is cancelled. -/
theorem WaiterInv.cancel (h : WaiterInv P enqueued brought r) {id : κ} {deadline : ℕ}
    (hw : r.results id = some ⟨n, deadline, .pending⟩) :
    WaiterInv P enqueued brought { r with
      results := Function.update r.results id (some ⟨n, deadline, .cancelled⟩) } := by
  have hkeep : ∀ id' w', Function.update r.results id (some ⟨n, deadline, .cancelled⟩) id' = some w' →
      (w'.future = .cancelled ∧ id' = id ∧ w'.ticket = n) ∨ r.results id' = some w' := by
    intro id' w' hw'
    by_cases hid : id' = id
    · rw [hid, Function.update_self, Option.some.injEq] at hw'
      rw [← hw']
      exact Or.inl ⟨rfl, hid, rfl⟩
    · rw [Function.update_of_ne hid] at hw'
      exact Or.inr hw'
  refine ⟨?_, ?_, ?_, h.brought_lt, h.brought_nodup⟩
  · intro id' w' hw'
    rcases hkeep id' w' hw' with ⟨-, hid, hticket⟩ | hold
    · rw [hid, hticket]
      exact h.waiting id _ hw
    · exact h.waiting id' w' hold
  · intro id' w' hw' hpending
    rcases hkeep id' w' hw' with ⟨hcancelled, -, -⟩ | hold
    · rw [hcancelled] at hpending
      exact absurd hpending (by simp)
    · exact h.pending id' w' hold hpending
  · intro id' w' o hw' hdone
    rcases hkeep id' w' hw' with ⟨hcancelled, -, -⟩ | hold
    · rw [hcancelled] at hdone
      exact absurd hdone (by simp)
    · exact h.done id' w' o hold hdone

/-- An id is forgotten. -/
theorem WaiterInv.forget (h : WaiterInv P enqueued brought r) (id : κ) :
    WaiterInv P enqueued brought { r with
      results := Function.update r.results id none
      issued_to := Function.update r.issued_to id none } := by
  have hkeep : ∀ id' w', Function.update r.results id none id' = some w' →
      id' ≠ id ∧ r.results id' = some w' := by
    intro id' w' hw'
    have hid : id' ≠ id := by
      intro hid
      rw [hid, Function.update_self] at hw'
      exact absurd hw' (by simp)
    rw [Function.update_of_ne hid] at hw'
    exact ⟨hid, hw'⟩
  refine ⟨?_, ?_, ?_, h.brought_lt, h.brought_nodup⟩
  · intro id' w' hw'
    obtain ⟨hid, hold⟩ := hkeep id' w' hw'
    dsimp only
    rw [Function.update_of_ne hid]
    exact h.waiting id' w' hold
  · intro id' w' hw'
    exact h.pending id' w' (hkeep id' w' hw').2
  · intro id' w' o hw'
    exact h.done id' w' o (hkeep id' w' hw').2

end Waiters

/-! ## What a run has done -/

/-- The ticket and the item of an accepted enqueue. -/
def enqueued_of : Label κ η π δ → Option (ℕ × π)
  | .enqueue signed _ (.ok ticket) => some (ticket, signed)
  | _ => none

/-- The ticket and the item a poll is handed. -/
def handed_of : Label κ η π δ → Option (ℕ × π)
  | .poll _ (.handed ticket item) => some (ticket, item)
  | _ => none

/-- The outcome a future is brought: by an accepted reply, or by a poll that finds
its item expired. -/
def brought_of (P : Protocol κ η ν π δ ρ) : Label κ η π δ → Option (ℕ × ρ)
  | .post _ reply (.ok ticket) => some (ticket, (P.reply reply).2)
  | .poll _ (.dropped _ _ (some ticket)) => some (ticket, P.expiry)
  | _ => none

/-- The nonce a host acts on, with the id it is used for. -/
def acted_of (P : Protocol κ η ν π δ ρ) (host : η) : Label κ η π δ → Option (ν × κ)
  | .spend host' signed .fresh => if host' = host then some (P.nonce signed, P.id signed) else none
  | _ => none

/-- The invariant of a run. -/
structure Inv (P : Protocol κ η ν π δ ρ) (tr : List (Label κ η π δ)) (s : Channel κ η ν π ρ) :
    Prop where
  queue : QueueInv P (tr.filterMap enqueued_of) (tr.filterMap handed_of) s.core
  waiter : WaiterInv P (tr.filterMap enqueued_of) (tr.filterMap (brought_of P)) s.core
  checked : ∀ host, ∀ signed ∈ s.checked host, Label.check host signed (.ok ()) ∈ tr

section Run

variable {P : Protocol κ η ν π δ ρ} {s t : Channel κ η ν π ρ} {tr : List (Label κ η π δ)}

variable {answer : Except CorrelationError ℕ} {a : Label κ η π δ} {ledgers₀ : η → Ledger ν κ}

theorem enqueue_step_some {timeout : ℕ} (h : enqueue_step P s signed timeout answer = some t) :
    (∃ e, answer = .error e ∧ t = s) ∨
      ∃ n core, answer = .ok n ∧ t = { s with core } ∧
        s.core.enqueue (P.id signed) (P.scope signed) signed (s.loop_time + timeout) =
          .ok (n, core) := by
  unfold enqueue_step at h
  split at h
  · rename_i ticket core n heq
    split_ifs at h with hn
    exact Or.inr ⟨n, core, rfl, (Option.some.inj h).symm, by rw [← hn]; exact heq⟩
  · rename_i e e' heq
    split_ifs at h
    exact Or.inl ⟨e', rfl, (Option.some.inj h).symm⟩
  · exact absurd h (by simp)

theorem post_step_some {reply : δ} (h : post_step P s host reply answer = some t) :
    (∃ e, answer = .error e ∧ t = s) ∨
      ∃ n core, answer = .ok n ∧ t = { s with core } ∧
        s.core.resolve (P.reply reply).1 host (P.reply reply).2 = .ok (n, core) := by
  unfold post_step at h
  split at h
  · rename_i ticket core n heq
    split_ifs at h with hn
    exact Or.inr ⟨n, core, rfl, (Option.some.inj h).symm, by rw [← hn]; exact heq⟩
  · rename_i e e' heq
    split_ifs at h
    exact Or.inl ⟨e', rfl, (Option.some.inj h).symm⟩
  · exact absurd h (by simp)

/-- An accepted reply is one that resolves a future. -/
theorem post_step_ok {reply : δ} :
    post_step P s host reply (.ok n) = some t ↔
      ∃ core, t = { s with core } ∧
        s.core.resolve (P.reply reply).1 host (P.reply reply).2 = .ok (n, core) := by
  constructor
  · intro h
    rcases post_step_some h with ⟨e, he, -⟩ | ⟨n', core, hn, ht, hres⟩
    · exact absurd he (by simp)
    · exact ⟨core, ht, by rw [Except.ok.inj hn]; exact hres⟩
  · rintro ⟨core, rfl, hres⟩
    unfold post_step
    rw [hres]
    exact if_pos rfl

theorem poll_step_iff {turn : Turn π} : poll_step P s host turn = some t ↔
    ∃ core, t = { s with core } ∧
      s.core.poll_turn (expired P s.core_now) P.id P.expiry host = some (turn, core) := by
  unfold poll_step
  constructor
  · intro h
    split at h
    · rename_i turn' core heq
      split_ifs at h with hturn
      exact ⟨core, (Option.some.inj h).symm, by rw [← hturn]; exact heq⟩
    · exact absurd h (by simp)
  · rintro ⟨core, rfl, heq⟩
    rw [heq]
    exact if_pos rfl

theorem check_step_some {outcome : Except (VerificationError η) Unit}
    (h : check_step P s host signed outcome = some t) :
    verify_checks P host (s.agent_now host) signed = outcome ∧
      ((∃ e, outcome = .error e ∧ t = s) ∨
        (outcome = .ok () ∧ t = { s with
          checked := Function.update s.checked host (s.checked host ++ [signed]) })) := by
  unfold check_step at h
  split_ifs at h with hv
  refine ⟨hv, ?_⟩
  rcases outcome with e | u
  · exact Or.inl ⟨e, rfl, (Option.some.inj h).symm⟩
  · exact Or.inr ⟨rfl, (Option.some.inj h).symm⟩

/-- An agent acts on a nonce that its ledger does not have, of an item it has checked. -/
theorem spend_step_some {outcome : Spent} (h : spend_step P s host signed outcome = some t) :
    signed ∈ s.checked host ∧ t.core = s.core ∧
      t.checked = Function.update s.checked host ((s.checked host).erase signed) ∧
      ((outcome ≠ .fresh ∧ t.ledgers = s.ledgers) ∨ (outcome = .fresh ∧ P.nonce signed ∉ (s.ledgers host).keys ∧
          t.ledgers = Function.update s.ledgers host ((s.ledgers host).insert (P.nonce signed) (P.id signed)).2)) := by
  unfold spend_step at h
  split_ifs at h with hmem
  refine ⟨hmem, ?_⟩
  dsimp only at h
  split at h
  · rw [← Option.some.inj h]
    exact ⟨rfl, rfl, Or.inl ⟨by decide, rfl⟩⟩
  · rename_i ledger hins
    rw [← Option.some.inj h]
    refine ⟨rfl, rfl, Or.inr ⟨rfl, ?_, by rw [hins]⟩⟩
    apply (Ledger.insert_fst _ _ (P.id signed)).mp
    rw [hins]
  · rw [← Option.some.inj h]
    exact ⟨rfl, rfl, Or.inl ⟨by decide, rfl⟩⟩
  · exact absurd h (by simp)

/-- A step that leaves the core as it is, and checks nothing, keeps the invariant. -/
theorem Inv.keep (h : Inv P tr s) (hcore : t.core = s.core) (henq : enqueued_of a = none) (hhanded : handed_of a = none)
    (hbrought : brought_of P a = none) (hchecked : ∀ host, ∀ signed ∈ t.checked host, signed ∈ s.checked host ∨
      a = .check host signed (.ok ())) : Inv P (tr ++ [a]) t where
  queue := by
    rw [System.filterMap_snoc_none henq, System.filterMap_snoc_none hhanded, hcore]
    exact h.queue
  waiter := by
    rw [System.filterMap_snoc_none henq, System.filterMap_snoc_none hbrought, hcore]
    exact h.waiter
  checked := by
    intro host signed hmem
    rcases hchecked host signed hmem with hold | rfl
    · exact List.mem_append_left _ (h.checked host signed hold)
    · exact List.mem_append_right _ (List.mem_singleton.mpr rfl)

/-- A step of the core, with the agents as they are. -/
theorem Inv.core {core : Rendezvous κ η π ρ} (h : Inv P tr s)
    (hqueue : QueueInv P ((tr ++ [a]).filterMap enqueued_of) ((tr ++ [a]).filterMap handed_of) core)
    (hwaiter : WaiterInv P ((tr ++ [a]).filterMap enqueued_of)
      ((tr ++ [a]).filterMap (brought_of P)) core) : Inv P (tr ++ [a]) { s with core } :=
  ⟨hqueue, hwaiter, fun host signed hmem => List.mem_append_left _ (h.checked host signed hmem)⟩

theorem Inv.enqueue {timeout : ℕ} (h : Inv P tr s) (hstep : enqueue_step P s signed timeout answer = some t) :
    Inv P (tr ++ [.enqueue signed timeout answer]) t := by
  rcases enqueue_step_some hstep with ⟨e, rfl, rfl⟩ | ⟨n, core, rfl, rfl, henq⟩
  · exact h.keep rfl rfl rfl rfl fun _ _ hmem => Or.inl hmem
  · obtain ⟨-, rfl, rfl⟩ := enqueue_ok henq
    have hnew : (tr ++ [Label.enqueue (η := η) (δ := δ) (κ := κ) signed timeout
        (.ok s.core.next)]).filterMap enqueued_of =
        tr.filterMap enqueued_of ++ [(s.core.next, signed)] := System.filterMap_snoc_some rfl
    apply h.core
    · rw [hnew, System.filterMap_snoc_none rfl]
      exact h.queue.enqueue signed _ _
    · rw [hnew, System.filterMap_snoc_none rfl]
      exact h.waiter.enqueue signed _ _

/-- A poll takes the first item of its queue; a waiter it fails is one that pends. -/
theorem Inv.poll {turn : Turn π} (h : Inv P tr s) (hstep : poll_step P s host turn = some t) :
    Inv P (tr ++ [.poll host turn]) t := by
  obtain ⟨core, rfl, hturn⟩ := poll_step_iff.mp hstep
  cases turn with
  | handed n item =>
      obtain ⟨rest, hq, -, rfl⟩ := poll_turn_handed hturn
      have hnew : (tr ++ [Label.poll (κ := κ) (δ := δ) host (.handed n item)]).filterMap handed_of =
          tr.filterMap handed_of ++ [(n, item)] := System.filterMap_snoc_some rfl
      apply h.core
      · rw [hnew, System.filterMap_snoc_none rfl]
        exact h.queue.take hq (Or.inr rfl)
      · rw [System.filterMap_snoc_none rfl, System.filterMap_snoc_none rfl]
        exact h.waiter.congr rfl rfl rfl
  | dropped n item failed =>
      obtain ⟨rest, hq, hexpire⟩ := poll_turn_dropped hturn
      have hqueue := h.queue.take hq (Or.inl rfl)
      have hwaiter := h.waiter.congr
        (t := { s.core with queues := Function.update s.core.queues host rest }) rfl rfl rfl
      rcases expire_waiter_cases { s.core with queues := Function.update s.core.queues host rest }
        (P.id item) P.expiry with hnone | ⟨m, deadline, hw, hsome⟩
      · rw [hnone, Prod.mk.injEq] at hexpire
        obtain ⟨rfl, rfl⟩ := hexpire
        apply h.core
        · rw [System.filterMap_snoc_none rfl, System.filterMap_snoc_none rfl]
          exact hqueue
        · rw [System.filterMap_snoc_none rfl, System.filterMap_snoc_none rfl]
          exact hwaiter
      · rw [hsome, Prod.mk.injEq] at hexpire
        obtain ⟨rfl, rfl⟩ := hexpire
        have hnew : (tr ++ [Label.poll (κ := κ) (δ := δ) host
            (.dropped n item (some m))]).filterMap (brought_of P) =
            tr.filterMap (brought_of P) ++ [(m, P.expiry)] := System.filterMap_snoc_some rfl
        apply h.core
        · rw [System.filterMap_snoc_none rfl, System.filterMap_snoc_none rfl]
          exact hqueue.congr rfl rfl
        · rw [System.filterMap_snoc_none rfl, hnew]
          exact hwaiter.bring hqueue P.expiry hw

theorem Inv.post {reply : δ} (h : Inv P tr s) (hstep : post_step P s host reply answer = some t) :
    Inv P (tr ++ [.post host reply answer]) t := by
  rcases post_step_some hstep with ⟨e, rfl, rfl⟩ | ⟨n, core, rfl, rfl, hres⟩
  · exact h.keep rfl rfl rfl rfl fun _ _ hmem => Or.inl hmem
  · obtain ⟨deadline, hw, -, rfl⟩ := resolve_ok hres
    have hnew : (tr ++ [Label.post (κ := κ) (π := π) host reply (.ok n)]).filterMap (brought_of P) =
        tr.filterMap (brought_of P) ++ [(n, (P.reply reply).2)] := System.filterMap_snoc_some rfl
    apply h.core
    · rw [System.filterMap_snoc_none rfl, System.filterMap_snoc_none rfl]
      exact h.queue.congr rfl rfl
    · rw [System.filterMap_snoc_none rfl, hnew]
      exact h.waiter.bring h.queue _ hw

theorem Inv.check {outcome : Except (VerificationError η) Unit} (h : Inv P tr s)
    (hstep : check_step P s host signed outcome = some t) : Inv P (tr ++ [.check host signed outcome]) t := by
  obtain ⟨-, ⟨e, rfl, rfl⟩ | ⟨rfl, rfl⟩⟩ := check_step_some hstep
  · exact h.keep rfl rfl rfl rfl fun _ _ hmem => Or.inl hmem
  · refine h.keep rfl rfl rfl rfl fun host' signed' hmem => ?_
    dsimp only at hmem
    by_cases hhost : host' = host
    · rw [hhost, Function.update_self, List.mem_append, List.mem_singleton] at hmem
      rcases hmem with hold | hnew
      · exact Or.inl (by rw [hhost]; exact hold)
      · exact Or.inr (by rw [hhost, hnew])
    · rw [Function.update_of_ne hhost] at hmem
      exact Or.inl hmem

/-- What a host has checked only gets less by a spend or a restart. -/
theorem update_checked_subset {checked : η → List π} {left : List π}
    (hleft : ∀ signed ∈ left, signed ∈ checked host) (host' : η) (signed : π)
    (hmem : signed ∈ Function.update checked host left host') : signed ∈ checked host' := by
  by_cases hhost : host' = host
  · rw [hhost, Function.update_self] at hmem
    rw [hhost]
    exact hleft signed hmem
  · rw [Function.update_of_ne hhost] at hmem
    exact hmem

theorem Inv.spend {outcome : Spent} (h : Inv P tr s) (hstep : spend_step P s host signed outcome = some t) :
    Inv P (tr ++ [.spend host signed outcome]) t := by
  obtain ⟨-, hcore, hchecked, -⟩ := spend_step_some hstep
  refine h.keep hcore rfl rfl rfl fun host' signed' hmem => Or.inl ?_
  rw [hchecked] at hmem
  exact update_checked_subset (fun _ hm => List.mem_of_mem_erase hm) host' signed' hmem

/-- Every step keeps the invariant. -/
theorem Inv.step (h : Inv P tr s) (hstep : channel_step P s a = some t) : Inv P (tr ++ [a]) t := by
  cases a with
  | enqueue signed timeout answer => exact h.enqueue hstep
  | poll host turn => exact h.poll hstep
  | post host reply answer => exact h.post hstep
  | time_out id =>
      obtain ⟨core, hcore, rfl⟩ := Option.map_eq_some_iff.mp hstep
      obtain ⟨n, deadline, hw, rfl⟩ := time_out_some hcore
      apply h.core
      · rw [System.filterMap_snoc_none rfl, System.filterMap_snoc_none rfl]
        exact h.queue.congr rfl rfl
      · rw [System.filterMap_snoc_none rfl, System.filterMap_snoc_none rfl]
        exact h.waiter.cancel hw
  | finish id timed_out =>
      obtain ⟨⟨ended, core⟩, hcore, rfl⟩ := Option.map_eq_some_iff.mp hstep
      rw [finish_some hcore]
      apply h.core
      · rw [System.filterMap_snoc_none rfl, System.filterMap_snoc_none rfl]
        exact h.queue.congr rfl rfl
      · rw [System.filterMap_snoc_none rfl, System.filterMap_snoc_none rfl]
        exact h.waiter.forget id
  | check host signed outcome => exact h.check hstep
  | spend host signed outcome => exact h.spend hstep
  | restart host =>
      rw [← Option.some.inj hstep]
      refine h.keep rfl rfl rfl rfl fun host' signed hmem => Or.inl ?_
      exact update_checked_subset (fun _ hm => absurd hm List.not_mem_nil) host' signed hmem
  | tick time =>
      rw [← Option.some.inj hstep]
      exact h.keep rfl rfl rfl rfl fun _ _ hmem => Or.inl hmem
  | set_core_clock now =>
      rw [← Option.some.inj hstep]
      exact h.keep rfl rfl rfl rfl fun _ _ hmem => Or.inl hmem
  | set_agent_clock host now =>
      rw [← Option.some.inj hstep]
      exact h.keep rfl rfl rfl rfl fun _ _ hmem => Or.inl hmem

theorem inv_of_trace (h : (channel P ledgers₀).Trace tr s) : Inv P tr s := by
  refine h.induct (P := fun tr s => Inv P tr s) ?_ fun tr s a t _ hs hstep => hs.step hstep
  rintro s ⟨hcore, -, hchecked⟩
  refine ⟨?_, ?_, ?_⟩
  · rw [hcore]
    exact ⟨by simp, List.nodup_nil, by simp [empty], fun _ => List.nodup_nil, by simp,
      List.nodup_nil⟩
  · rw [hcore]
    exact ⟨by simp [empty], by simp [empty], by simp [empty], by simp, List.nodup_nil⟩
  · rw [hchecked]
    simp

/-! ## The nonces -/

/-- With the ledger of one host in view, the channel is a single-use table. -/
theorem refines_single_use (P : Protocol κ η ν π δ ρ) (ledgers₀ : η → Ledger ν κ) (host : η) :
    System.Refines (channel P ledgers₀) (Ledger.single_use (ledgers₀ host))
      (fun s l => s.ledgers host = l) (fun a => (acted_of P host a).toList) where
  init := by
    rintro s ⟨-, hledgers, -⟩
    exact ⟨ledgers₀ host, rfl, by rw [hledgers]⟩
  step := by
    intro s l a t hR hstep
    -- every label but a spend leaves the ledgers as they are
    have hkeep : t.ledgers = s.ledgers → acted_of P host a = none →
        ∃ l', (Ledger.single_use (ledgers₀ host)).run l (acted_of P host a).toList = some l' ∧
          t.ledgers host = l' := by
      intro hledgers hnone
      rw [hnone]
      exact ⟨l, rfl, by rw [hledgers, hR]⟩
    cases a with
    | enqueue signed timeout answer =>
        rcases enqueue_step_some hstep with ⟨e, -, rfl⟩ | ⟨n, core, -, rfl, -⟩ <;> exact hkeep rfl rfl
    | poll host' turn =>
        obtain ⟨core, rfl, -⟩ := poll_step_iff.mp hstep
        exact hkeep rfl rfl
    | post host' reply answer =>
        rcases post_step_some hstep with ⟨e, -, rfl⟩ | ⟨n, core, -, rfl, -⟩ <;> exact hkeep rfl rfl
    | time_out id =>
        obtain ⟨core, -, rfl⟩ := Option.map_eq_some_iff.mp hstep
        exact hkeep rfl rfl
    | finish id timed_out =>
        obtain ⟨left, -, rfl⟩ := Option.map_eq_some_iff.mp hstep
        exact hkeep rfl rfl
    | check host' signed outcome =>
        obtain ⟨-, ⟨e, -, rfl⟩ | ⟨-, rfl⟩⟩ := check_step_some hstep <;> exact hkeep rfl rfl
    | spend host' signed outcome =>
        obtain ⟨-, -, -, hcase⟩ := spend_step_some hstep
        rcases hcase with ⟨hne, hledgers⟩ | ⟨rfl, hfresh, hledgers⟩
        · apply hkeep hledgers
          cases outcome with
          | fresh => exact absurd rfl hne
          | _ => rfl
        · rw [acted_of]
          by_cases hhost : host' = host
          · rw [if_pos hhost, Option.toList_some, System.run_singleton, ← hR, ← hhost]
            refine ⟨_, Ledger.single_use_step.mpr ⟨hfresh, rfl⟩, ?_⟩
            rw [hledgers, Function.update_self]
          · rw [if_neg hhost]
            exact ⟨l, rfl, by rw [hledgers, Function.update_of_ne (Ne.symm hhost), hR]⟩
    | restart host' =>
        obtain rfl := Option.some.inj hstep
        exact hkeep rfl rfl
    | tick time =>
        obtain rfl := Option.some.inj hstep
        exact hkeep rfl rfl
    | set_core_clock now =>
        obtain rfl := Option.some.inj hstep
        exact hkeep rfl rfl
    | set_agent_clock host' now =>
        obtain rfl := Option.some.inj hstep
        exact hkeep rfl rfl

/-- **A host acts on a nonce once**, and on none its ledger had before. -/
theorem acted_once (h : (channel P ledgers₀).Trace tr s) (host : η) :
    ((tr.filterMap (acted_of P host)).map Prod.fst).Nodup ∧
      ∀ n ∈ (tr.filterMap (acted_of P host)).map Prod.fst, n ∉ (ledgers₀ host).keys := by
  obtain ⟨l, hl, -⟩ := (refines_single_use P ledgers₀ host).trace h
  have hflat : tr.flatMap (fun a => (acted_of P host a).toList) = tr.filterMap (acted_of P host) := by
    rw [List.filterMap_eq_flatMap_toList]
  rw [hflat] at hl
  exact Ledger.single_use_nodup hl

/-! ## What the channel promises -/

/-- What a rendezvous promises of a run, and of every step that can follow it. -/
structure Faithful (P : Protocol κ η ν π δ ρ) (ledgers₀ : η → Ledger ν κ)
    (tr : List (Label κ η π δ)) (s : Channel κ η ν π ρ) : Prop where
  /-- what is enqueued once is handed at most once -/
  handed_once : ((tr.filterMap handed_of).map Prod.fst).Nodup
  /-- so no item is handed more often than it was enqueued -/
  handed_count : ∀ signed, ((tr.filterMap handed_of).map Prod.snd).count signed ≤
    ((tr.filterMap enqueued_of).map Prod.snd).count signed
  /-- and where no id is drawn twice, each item is handed at most once -/
  handed_nodup : ((tr.filterMap enqueued_of).map fun e => P.id e.2).Nodup →
    ((tr.filterMap handed_of).map Prod.snd).Nodup
  /-- it is handed to a poll of its own host, and before its expiry -/
  handed_own : ∀ host n signed t, channel_step P s (.poll host (.handed n signed)) = some t →
    (n, signed) ∈ tr.filterMap enqueued_of ∧ P.scope signed = host ∧
      s.core_now < P.expires_at signed
  /-- a waiter is resolved at most once -/
  resolved_once : ((tr.filterMap (brought_of P)).map Prod.fst).Nodup
  /-- by a reply only of the host its item was issued to, under the id of that item -/
  resolved_own : ∀ host reply n t, channel_step P s (.post host reply (.ok n)) = some t →
    ∃ signed, (n, signed) ∈ tr.filterMap enqueued_of ∧ P.scope signed = host ∧
      P.id signed = (P.reply reply).1
  /-- or by the core when a poll finds an item with its id expired, which is its own where
  no id is drawn twice -/
  resolved_expired : ∀ host n signed m t,
    channel_step P s (.poll host (.dropped n signed (some m))) = some t →
      P.expires_at signed ≤ s.core_now ∧
      (∃ waiting, (m, waiting) ∈ tr.filterMap enqueued_of ∧ P.id waiting = P.id signed) ∧
      (((tr.filterMap enqueued_of).map fun e => P.id e.2).Nodup → m = n)
  /-- what a waiter has is what it was resolved with -/
  outcome : ∀ id w o, s.core.results id = some w → w.future = .done o →
    (w.ticket, o) ∈ tr.filterMap (brought_of P)
  /-- a reply that is refused changes nothing -/
  refused : ∀ host reply e t, channel_step P s (.post host reply (.error e)) = some t → t = s
  /-- a host acts on a nonce at most once, and on none its ledger had before -/
  acted_once : ∀ host, ((tr.filterMap (acted_of P host)).map Prod.fst).Nodup ∧
    ∀ n ∈ (tr.filterMap (acted_of P host)).map Prod.fst, n ∉ (ledgers₀ host).keys
  /-- it spends a nonce only of an item that has passed its checks -/
  spent_checked : ∀ host signed outcome t,
    channel_step P s (.spend host signed outcome) = some t → Label.check host signed (.ok ()) ∈ tr
  /-- and the checks are those of signature, window and scope, and spend no nonce -/
  checked : ∀ host signed outcome t, channel_step P s (.check host signed outcome) = some t →
    t.ledgers = s.ledgers ∧
      (outcome = .ok () ↔ Verifies P host (s.agent_now host) signed)

theorem handed_count {tr : List (Label κ η π δ)} {r : Rendezvous κ η π ρ}
    (h : QueueInv P (tr.filterMap enqueued_of) (tr.filterMap handed_of) r) (signed : π) :
    ((tr.filterMap handed_of).map Prod.snd).count signed ≤ ((tr.filterMap enqueued_of).map Prod.snd).count signed := by
  have hnodup : (tr.filterMap handed_of).Nodup := List.Nodup.of_map Prod.fst h.handed_nodup
  obtain ⟨handed, hperm, hsub⟩ := List.subperm_of_subset hnodup h.handed_mem
  rw [← (hperm.map Prod.snd).count_eq signed]
  exact (hsub.map Prod.snd).count_le signed

/-- Where no id is enqueued twice, no item is. -/
theorem handed_nodup {tr : List (Label κ η π δ)} {r : Rendezvous κ η π ρ}
    (h : QueueInv P (tr.filterMap enqueued_of) (tr.filterMap handed_of) r)
    (hids : ((tr.filterMap enqueued_of).map fun e => P.id e.2).Nodup) :
    ((tr.filterMap handed_of).map Prod.snd).Nodup := by
  have hitems : ((tr.filterMap enqueued_of).map Prod.snd).Nodup := by
    rw [show (fun e : ℕ × π => P.id e.2) = P.id ∘ Prod.snd from rfl, ← List.map_map] at hids
    exact List.Nodup.of_map P.id hids
  rw [List.nodup_iff_count_le_one]
  intro signed
  have hle := handed_count h signed
  have hone := List.nodup_iff_count_le_one.mp hitems signed
  omega

/-- The waiter that an expired item fails is, where no id is drawn twice, the one that
waits for this item. -/
theorem dropped_spec (h : Inv P tr s) {m : ℕ}
    (hstep : poll_step P s host (.dropped n signed (some m)) = some t) :
    (∃ waiting, (m, waiting) ∈ tr.filterMap enqueued_of ∧ P.id waiting = P.id signed) ∧
      (((tr.filterMap enqueued_of).map fun e => P.id e.2).Nodup → m = n) := by
  obtain ⟨core, -, hturn⟩ := poll_step_iff.mp hstep
  obtain ⟨rest, hq, hexpire⟩ := poll_turn_dropped hturn
  rcases expire_waiter_cases { s.core with queues := Function.update s.core.queues host rest }
    (P.id signed) P.expiry with hnone | ⟨m', deadline, hw, hsome⟩
  · rw [hnone, Prod.mk.injEq] at hexpire
    exact absurd hexpire.1 (by simp)
  · rw [hsome, Prod.mk.injEq] at hexpire
    have hm := Option.some.inj hexpire.1
    obtain ⟨waiting, hmem, hid, -⟩ := h.waiter.waiting _ _ hw
    refine ⟨⟨waiting, by rw [hm]; exact hmem, hid⟩, fun hids => ?_⟩
    have hqueued := (h.queue.queued host (n, signed) (by rw [hq]; exact List.mem_cons_self ..)).1
    have hpair := List.inj_on_of_nodup_map hids hmem hqueued hid
    rw [hm]
    exact congrArg Prod.fst hpair

/-- An item is dropped by a poll when it is expired. -/
theorem dropped_expired {failed : Option ℕ} (hstep : poll_step P s host (.dropped n signed failed) = some t) :
    P.expires_at signed ≤ s.core_now := by
  obtain ⟨core, -, hturn⟩ := poll_step_iff.mp hstep
  unfold poll_turn at hturn
  split at hturn
  · exact absurd hturn (by simp)
  · dsimp only at hturn
    split_ifs at hturn with hexp
    · rw [Option.some.injEq, Prod.mk.injEq, Turn.dropped.injEq] at hturn
      rw [← hturn.1.2.1]
      exact of_decide_eq_true hexp
    · exact absurd hturn (by simp)

/-- **The rendezvous is faithful**, in every run and at every step. -/
theorem faithful (h : (channel P ledgers₀).Trace tr s) : Faithful P ledgers₀ tr s := by
  have hinv := inv_of_trace h
  refine { handed_once := hinv.queue.handed_nodup, handed_count := handed_count hinv.queue,
           handed_nodup := handed_nodup hinv.queue, resolved_once := hinv.waiter.brought_nodup,
           outcome := hinv.waiter.done, acted_once := acted_once h, handed_own := ?handed_own,
           resolved_own := ?resolved_own, resolved_expired := ?resolved_expired,
           refused := ?refused, spent_checked := ?spent_checked, checked := ?checked }
  case handed_own =>
    intro host n signed t hstep
    obtain ⟨core, -, hturn⟩ := poll_step_iff.mp hstep
    obtain ⟨rest, hq, hexp, -⟩ := poll_turn_handed hturn
    obtain ⟨hmem, hscope, -⟩ := hinv.queue.queued host (n, signed)
      (by rw [hq]; exact List.mem_cons_self ..)
    have hlive := of_decide_eq_false hexp
    exact ⟨hmem, hscope, Int.not_le.mp hlive⟩
  case resolved_own =>
    intro host reply n t hstep
    obtain ⟨core, -, hres⟩ := post_step_ok.mp hstep
    obtain ⟨deadline, hw, hissued, -⟩ := resolve_ok hres
    obtain ⟨signed, hmem, hid, hscope⟩ := hinv.waiter.waiting _ _ hw
    rw [hissued, Option.some.injEq] at hscope
    exact ⟨signed, hmem, hscope.symm, hid⟩
  case resolved_expired =>
    intro host n signed m t hstep
    exact ⟨dropped_expired hstep, dropped_spec hinv hstep⟩
  case refused =>
    intro host reply e t hstep
    rcases post_step_some hstep with ⟨e', -, rfl⟩ | ⟨n, core, hn, -, -⟩
    · rfl
    · exact absurd hn (by simp)
  case spent_checked =>
    intro host signed outcome t hstep
    exact hinv.checked host signed (spend_step_some hstep).1
  case checked =>
    intro host signed outcome t hstep
    obtain ⟨hv, hcase⟩ := check_step_some hstep
    refine ⟨?_, by rw [← hv]; exact verify_checks_ok⟩
    rcases hcase with ⟨e, -, rfl⟩ | ⟨-, rfl⟩ <;> rfl

end Run

end Rendezvous

end Fathom
