/-
**The job queue by itself** (`core/remediation/job_queue.py`, with `poll_job` and
`submit_job_result` of `api/routers/agent_jobs.py`): every operation by any host, in any
order, honest or not.

`JobQueue.lean` follows a job to the agent that acts on it. Here nothing is known of the
agents: any host polls whenever it likes, and posts any result under any job id. What
the queue keeps all the same is `job_queue_safety`.

The queue lives in one event loop, so a stretch of code without an `await` that waits is
one step. `enqueue_and_wait` is three: the part before its wait, the timeout, and the part
after it. A poll that finds its host's queue empty parks and goes on later. A posted
result waits for the nonce ledger between its first check and its correlation, and what
the ledger answers is not constrained. Job ids are drawn in order; the source draws 128
bits at random. Times are in microseconds.
-/
import Fathom.Remediation.JobQueue

set_option autoImplicit false

namespace Fathom.Remediation.Delivery

open Fathom.System (filterMap_snoc_none filterMap_snoc_some mem_filterMap_snoc)

/-! ## The queue -/

/-- `JobResultPayload`. -/
structure JobResultPayload where
  job_id : ℕ
  plan_id : String
  mode : JobMode
  result : JobResult
  deriving DecidableEq

/-- The future of an `enqueue_and_wait`. -/
inductive Future where
  | pending
  | result (payload : JobResultPayload)
  /-- `DispatchTimeoutError("job expired before an agent claimed it")` -/
  | failed
  | cancelled
  deriving DecidableEq

/-- A queued job, under its id. -/
abbrev Entry := ℕ × SignedJob

/-- `JobQueue`. -/
structure JobQueue where
  queues : String → List Entry
  results : ℕ → Option Future
  job_host : ℕ → Option String
  job_nonce : ℕ → Option String

/-- `DEFAULT_POLL_TIMEOUT_SECONDS`. -/
def DEFAULT_POLL_TIMEOUT : ℕ := 25000000

/-- `enqueue_and_wait` up to its wait. -/
def JobQueue.enqueue (q : JobQueue) (job_id : ℕ) (signed : SignedJob) (host_id : String) :
    JobQueue where
  results := Function.update q.results job_id (some .pending)
  job_host := Function.update q.job_host job_id (some host_id)
  job_nonce := Function.update q.job_nonce job_id (some signed.job.nonce)
  queues := Function.update q.queues host_id (q.queues host_id ++ [(job_id, signed)])

/-- The `finally` of `enqueue_and_wait`. -/
def JobQueue.forget (q : JobQueue) (job_id : ℕ) : JobQueue :=
  { q with
    results := Function.update q.results job_id none
    job_host := Function.update q.job_host job_id none
    job_nonce := Function.update q.job_nonce job_id none }

/-- A future is set, unless it is done or gone. -/
def JobQueue.set_future (q : JobQueue) (job_id : ℕ) (future : Future) : JobQueue :=
  if q.results job_id = some .pending then
    { q with results := Function.update q.results job_id (some future) }
  else q

/-- `JobQueue._fail`. -/
def JobQueue.fail (q : JobQueue) (job_id : ℕ) : JobQueue := q.set_future job_id .failed

/-- How a turn of `poll` ends. -/
inductive PollOutcome where
  /-- `ClaimedJob` -/
  | claimed (job_id : ℕ) (signed : SignedJob)
  /-- in `queue.get()`, on an empty queue -/
  | parked
  /-- `None` -/
  | ended
  deriving DecidableEq

/-- The loop of `poll`, on what is in its host's queue; the window is open while
`remaining > 0`. -/
def poll_loop (now : Int) (window : Bool) : JobQueue → List Entry →
    JobQueue × List Entry × PollOutcome
  | q, [] => (q, [], .parked)
  | q, (job_id, signed) :: rest =>
    if expired signed now then
      if window then poll_loop now window (q.fail job_id) rest else (q.fail job_id, rest, .ended)
    else (q, rest, .claimed job_id signed)

/-- A turn of `poll`. -/
def JobQueue.poll (q : JobQueue) (now : Int) (window : Bool) (host_id : String) :
    JobQueue × PollOutcome :=
  let turn := poll_loop now window q (q.queues host_id)
  ({ turn.1 with queues := Function.update turn.1.queues host_id turn.2.1 }, turn.2.2)

/-- `JobQueue.owner_of`. -/
def JobQueue.owner_of (q : JobQueue) (job_id : ℕ) : Option String := q.job_host job_id

/-- `JobQueue.nonce_of`. -/
def JobQueue.nonce_of (q : JobQueue) (job_id : ℕ) : Option String := q.job_nonce job_id

/-- `JobCorrelationError`. -/
inductive JobCorrelationError where
  /-- `no awaiting dispatch for job …` -/
  | no_dispatch (job_id : ℕ)
  /-- `result host does not match the job's issued host` -/
  | host_mismatch
  /-- `job … already resolved` -/
  | already_resolved (job_id : ℕ)
  deriving DecidableEq

/-- `JobQueue.resolve`. -/
def JobQueue.resolve (q : JobQueue) (host_id : String) (payload : JobResultPayload) :
    Except JobCorrelationError JobQueue :=
  match q.job_host payload.job_id with
  | none => .error (.no_dispatch payload.job_id)
  | some expected_host =>
    if expected_host ≠ host_id then .error .host_mismatch
    else if q.results payload.job_id = some .pending then
      .ok { q with
        results := Function.update q.results payload.job_id (some (.result payload)) }
    else .error (.already_resolved payload.job_id)

/-! ## The routes and the waits -/

/-- An `enqueue_and_wait` that is waiting; `timed_out` when its task was cancelled. -/
structure Waiter where
  deadline : ℕ
  timed_out : Bool
  deriving DecidableEq

/-- A `submit_job_result` past its first checks; `consumed` when the ledger took the nonce. -/
structure Post where
  host_name : String
  payload : JobResultPayload
  consumed : Bool
  deriving DecidableEq

/-- The queue, who waits on it, and the clocks. -/
structure Loop where
  queue : JobQueue
  next : ℕ
  waiters : ℕ → Option Waiter
  /-- parked polls: the host, and the end of the window -/
  polls : ℕ → Option (String × ℕ)
  posts : ℕ → Option Post
  now : Int
  loop_time : ℕ

/-- What can happen on the event loop. -/
inductive LoopLabel where
  /-- `enqueue_and_wait(signed, host_id=host_id, timeout_seconds=timeout)` -/
  | enqueue (job_id : ℕ) (signed : SignedJob) (host_id : String) (timeout : ℕ)
  /-- its `wait_for` gives up -/
  | timeout (job_id : ℕ)
  /-- it goes on: with the result, or with `DispatchTimeoutError` -/
  | wake (job_id : ℕ) (outcome : Option JobResultPayload)
  /-- a host calls `poll` -/
  | poll (poll_id : ℕ) (host_id : String) (outcome : PollOutcome)
  /-- a parked poll goes on, its queue no longer empty -/
  | resume (poll_id : ℕ) (host_id : String) (outcome : PollOutcome)
  /-- a parked poll times out -/
  | poll_timeout (poll_id : ℕ)
  /-- a host posts a result, up to the nonce ledger -/
  | submit (post_id : ℕ) (host_name : String) (job_id : ℕ) (payload : JobResultPayload)
    (passed : Bool)
  /-- the ledger answers -/
  | consume (post_id : ℕ) (fresh : Bool)
  /-- the result is correlated, or it is refused -/
  | resolve (host_name : String) (post_id : ℕ) (payload : JobResultPayload) (accepted : Bool)
  | advance_loop (time : ℕ)
  | advance_clock (time : ℕ)
  deriving DecidableEq

/-- How a wait ends, if it does. -/
def wait_outcome (waiter : Waiter) (future : Option Future) : Option (Option JobResultPayload) :=
  if waiter.timed_out then some none
  else
    match future with
    | some (.result payload) => some (some payload)
    | some .failed => some none
    | some .cancelled => some none
    | _ => none

/-- What is left of a poll: a parked one keeps the end of its window. -/
def left_poll (host_id : String) (deadline : ℕ) : PollOutcome → Option (String × ℕ)
  | .parked => some (host_id, deadline)
  | _ => none

/-- `submit_job_result` up to the nonce ledger. -/
def submit_checks (q : JobQueue) (host_name : String) (job_id : ℕ) (payload : JobResultPayload) :
    Bool :=
  payload.job_id = job_id && q.owner_of job_id = some host_name && (q.nonce_of job_id).isSome

/-- One step. -/
def loop_step (s : Loop) : LoopLabel → Option Loop
  | .enqueue job_id signed host_id timeout =>
    if job_id = s.next then
      some { s with
        queue := s.queue.enqueue job_id signed host_id
        next := s.next + 1
        waiters := Function.update s.waiters job_id (some ⟨s.loop_time + timeout, false⟩) }
    else none
  | .timeout job_id =>
    match s.waiters job_id with
    | some waiter =>
      if waiter.deadline ≤ s.loop_time ∧ waiter.timed_out = false then
        some { s with
          queue := s.queue.set_future job_id .cancelled
          waiters := Function.update s.waiters job_id (some { waiter with timed_out := true }) }
      else none
    | none => none
  | .wake job_id outcome =>
    match s.waiters job_id with
    | some waiter =>
      if wait_outcome waiter (s.queue.results job_id) = some outcome then
        some { s with
          queue := s.queue.forget job_id
          waiters := Function.update s.waiters job_id none }
      else none
    | none => none
  | .poll poll_id host_id outcome =>
    let turn := s.queue.poll s.now true host_id
    if s.polls poll_id = none ∧ turn.2 = outcome then
      some { s with
        queue := turn.1
        polls := Function.update s.polls poll_id
          (left_poll host_id (s.loop_time + DEFAULT_POLL_TIMEOUT) outcome) }
    else none
  | .resume poll_id host_id outcome =>
    match s.polls poll_id with
    | some (host, deadline) =>
      let turn := s.queue.poll s.now (s.loop_time < deadline) host
      if host = host_id ∧ s.queue.queues host ≠ [] ∧ turn.2 = outcome then
        some { s with
          queue := turn.1
          polls := Function.update s.polls poll_id (left_poll host deadline outcome) }
      else none
    | none => none
  | .poll_timeout poll_id =>
    match s.polls poll_id with
    | some (_, deadline) =>
      if deadline ≤ s.loop_time then
        some { s with polls := Function.update s.polls poll_id none }
      else none
    | none => none
  | .submit post_id host_name job_id payload passed =>
    if s.posts post_id = none ∧ submit_checks s.queue host_name job_id payload = passed then
      some { s with
        posts := Function.update s.posts post_id
          (if passed then some ⟨host_name, payload, false⟩ else none) }
    else none
  | .consume post_id fresh =>
    match s.posts post_id with
    | some ⟨host_name, payload, false⟩ =>
      some { s with
        posts := Function.update s.posts post_id
          (if fresh then some ⟨host_name, payload, true⟩ else none) }
    | _ => none
  | .resolve host_name post_id payload accepted =>
    if s.posts post_id = some ⟨host_name, payload, true⟩ then
      match s.queue.resolve host_name payload, accepted with
      | .ok queue, true => some { s with queue, posts := Function.update s.posts post_id none }
      | .error _, false => some { s with posts := Function.update s.posts post_id none }
      | _, _ => none
    else none
  | .advance_loop time => some { s with loop_time := s.loop_time + time }
  | .advance_clock time => some { s with now := s.now + time }

/-- The queue from the start of core. -/
def event_loop : System Loop LoopLabel where
  init := fun s => s.queue = ⟨fun _ => [], fun _ => none, fun _ => none, fun _ => none⟩ ∧
    s.next = 0 ∧ s.waiters = (fun _ => none) ∧ s.polls = (fun _ => none) ∧
    s.posts = fun _ => none
  step := loop_step

/-- The first that satisfies a condition, in a list and in a part of it that holds all
that satisfy it. -/
theorem find?_of_sublist {α : Type} {p p' : α → Bool} {part xs : List α}
    (hsub : part.Sublist xs) (hnodup : xs.Nodup) (hall : ∀ x ∈ xs, p x = true → x ∈ part)
    (hsame : ∀ x ∈ part, p' x = p x) : xs.find? p = part.find? p' := by
  induction hsub with
  | slnil => rfl
  | @cons part xs x hsub ih =>
      obtain ⟨hx, hnodup⟩ := List.nodup_cons.mp hnodup
      have hpx : p x = false := by
        rw [← Bool.not_eq_true]
        intro hpx
        exact hx (hsub.subset (hall x List.mem_cons_self hpx))
      rw [List.find?_cons_of_neg (by rw [hpx]; simp)]
      exact ih hnodup (fun y hy hpy => hall y (List.mem_cons_of_mem _ hy) hpy) hsame
  | @cons_cons part xs x hsub ih =>
      obtain ⟨hx, hnodup⟩ := List.nodup_cons.mp hnodup
      have hrest := ih hnodup ?_ fun y hy => hsame y (List.mem_cons_of_mem _ hy)
      · rw [List.find?_cons, List.find?_cons, hsame x List.mem_cons_self, hrest]
      · intro y hy hpy
        rcases List.mem_cons.mp (hall y (List.mem_cons_of_mem _ hy) hpy) with rfl | hin
        · exact absurd hy hx
        · exact hin

/-! ## What has happened -/

/-- The job a label enqueues for a host. -/
def enqueue_for (host_id : String) : LoopLabel → Option Entry
  | .enqueue job_id signed host _ => if host = host_id then some (job_id, signed) else none
  | _ => none

/-- The job a poll is answered with, and the host. -/
def delivery : LoopLabel → Option (String × Entry)
  | .poll _ host_id (.claimed job_id signed) => some (host_id, job_id, signed)
  | .resume _ host_id (.claimed job_id signed) => some (host_id, job_id, signed)
  | _ => none

/-- The result that is correlated, and the host that posted it. -/
def correlation : LoopLabel → Option (String × JobResultPayload)
  | .resolve host_name _ payload true => some (host_name, payload)
  | _ => none

/-- The wait that ends, and how. -/
def waited : LoopLabel → Option (ℕ × Option JobResultPayload)
  | .wake job_id outcome => some (job_id, outcome)
  | _ => none

/-- The jobs enqueued for a host, oldest first. -/
def enqueued (tr : List LoopLabel) (host_id : String) : List Entry :=
  tr.filterMap (enqueue_for host_id)

/-- The ids of the jobs delivered. -/
def delivered (tr : List LoopLabel) : List ℕ := (tr.filterMap delivery).map fun d => d.2.1

/-- The ids of the jobs whose waits got a result. -/
def correlated (tr : List LoopLabel) : List ℕ :=
  (tr.filterMap correlation).map fun c => c.2.job_id

/-- The host's oldest undelivered unexpired job. -/
def oldest (tr : List LoopLabel) (now : Int) (host_id : String) : Option Entry :=
  (enqueued tr host_id).find? fun job => job.1 ∉ delivered tr ∧ expired job.2 now = false

/-- What a poll of that job answers; without one it parks. -/
def answer : Option Entry → PollOutcome
  | some (job_id, signed) => .claimed job_id signed
  | none => .parked

variable {tr : List LoopLabel} {s t : Loop} {label : LoopLabel} {window : Bool} {host_id : String}
  {outcome : PollOutcome}

/-! ## What an operation can do -/

variable {signed : SignedJob} {now : Int} {job : Entry} {payload : JobResultPayload} {job_id : ℕ}

theorem expired_mono {now' : Int} (hle : now ≤ now') (h : expired signed now = true) : expired signed now' = true := by
  rw [expired, decide_eq_true_eq] at h ⊢
  omega

/-- Futures are set, and none to a result; nothing else changes. -/
structure Settles (q q' : JobQueue) : Prop where
  queues : q'.queues = q.queues
  job_host : q'.job_host = q.job_host
  pending : ∀ id, q'.results id = some .pending → q.results id = some .pending
  result : ∀ id payload, q'.results id = some (.result payload) →
    q.results id = some (.result payload)

theorem Settles.refl (q : JobQueue) : Settles q q := ⟨rfl, rfl, fun _ h => h, fun _ _ h => h⟩

theorem Settles.trans {q q' q'' : JobQueue} (h : Settles q q') (h' : Settles q' q'') :
    Settles q q'' where
  queues := h'.queues.trans h.queues
  job_host := h'.job_host.trans h.job_host
  pending := fun id hid => h.pending id (h'.pending id hid)
  result := fun id payload hid => h.result id payload (h'.result id payload hid)

theorem settles_set_future (q : JobQueue) (job_id : ℕ) {future : Future}
    (hpending : future ≠ .pending) (hresult : ∀ payload, future ≠ .result payload) :
    Settles q (q.set_future job_id future) := by
  unfold JobQueue.set_future
  split
  · refine ⟨rfl, rfl, ?_, ?_⟩
    · intro id hid
      dsimp only at hid
      by_cases heq : id = job_id
      · rw [heq, Function.update_self, Option.some.injEq] at hid
        exact absurd hid hpending
      · rw [Function.update_of_ne heq] at hid
        exact hid
    · intro id payload hid
      dsimp only at hid
      by_cases heq : id = job_id
      · rw [heq, Function.update_self, Option.some.injEq] at hid
        exact absurd hid (hresult payload)
      · rw [Function.update_of_ne heq] at hid
        exact hid
  · exact Settles.refl q

/-- What a turn of a poll does to what is queued: expired jobs are dropped from the
front; the first job that is not expired is claimed. -/
inductive Turned (now : Int) (window : Bool) : List Entry → List Entry → PollOutcome → Prop where
  | claimed {dropped : List Entry} {job_id : ℕ} {signed : SignedJob} {rest : List Entry}
      (hdropped : ∀ job ∈ dropped, expired job.2 now = true)
      (hlive : expired signed now = false) :
      Turned now window (dropped ++ (job_id, signed) :: rest) rest (.claimed job_id signed)
  | parked {dropped : List Entry} (hdropped : ∀ job ∈ dropped, expired job.2 now = true) :
      Turned now window dropped [] .parked
  | ended {dropped rest : List Entry} (hdropped : ∀ job ∈ dropped, expired job.2 now = true)
      (hclosed : window = false) : Turned now window (dropped ++ rest) rest .ended

/-- An expired job before a turn is dropped in it. -/
theorem Turned.cons {entries rest : List Entry} (h : Turned now window entries rest outcome)
    (hjob : expired job.2 now = true) : Turned now window (job :: entries) rest outcome := by
  have hall : ∀ {dropped : List Entry}, (∀ j ∈ dropped, expired j.2 now = true) →
      ∀ j ∈ job :: dropped, expired j.2 now = true := by
    intro dropped hdropped j hj
    rcases List.mem_cons.mp hj with rfl | hj
    · exact hjob
    · exact hdropped j hj
  cases h with
  | claimed hdropped hlive => exact Turned.claimed (hall hdropped) hlive
  | parked hdropped => exact Turned.parked (hall hdropped)
  | ended hdropped hclosed => exact Turned.ended (hall hdropped) hclosed

theorem poll_loop_spec {q : JobQueue} {entries : List Entry} :
    Settles q (poll_loop now window q entries).1 ∧ Turned now window entries (poll_loop now window q entries).2.1
        (poll_loop now window q entries).2.2 := by
  induction entries generalizing q with
  | nil => exact ⟨Settles.refl q, Turned.parked fun job hjob => absurd hjob List.not_mem_nil⟩
  | cons job rest ih =>
      obtain ⟨job_id, signed⟩ := job
      have hfail : Settles q (q.fail job_id) := settles_set_future q job_id (by simp) (by simp)
      rw [poll_loop]
      by_cases hexpired : expired signed now = true
      · rw [if_pos hexpired]
        by_cases hwindow : window = true
        · rw [if_pos hwindow]
          obtain ⟨hsettles, hturned⟩ := @ih (q.fail job_id)
          exact ⟨hfail.trans hsettles, hturned.cons hexpired⟩
        · rw [if_neg hwindow]
          refine ⟨hfail, @Turned.ended now window [(job_id, signed)] rest ?_ ?_⟩
          · intro job hjob
            rw [List.mem_singleton.mp hjob]
            exact hexpired
          · exact Bool.eq_false_iff.mpr hwindow
      · rw [if_neg hexpired]
        refine ⟨Settles.refl q, @Turned.claimed now window [] job_id signed rest ?_ ?_⟩
        · intro job hjob
          exact absurd hjob List.not_mem_nil
        · exact Bool.eq_false_iff.mpr hexpired

/-- What is left in the queue was there, in the same order. -/
theorem Turned.sublist {entries rest : List Entry} (h : Turned now window entries rest outcome) :
    rest.Sublist entries := by
  cases h with
  | claimed _ _ => exact (List.sublist_cons_self _ _).trans (List.sublist_append_right _ _)
  | parked _ => exact List.nil_sublist _
  | ended _ _ => exact List.sublist_append_right _ _

/-- What is not was claimed, or has expired. -/
theorem Turned.gone {entries rest : List Entry} (h : Turned now window entries rest outcome) (hjob : job ∈ entries)
    (hrest : job ∉ rest) : outcome = .claimed job.1 job.2 ∨ expired job.2 now = true := by
  cases h with
  | claimed hdropped _ =>
      rcases List.mem_append.mp hjob with hin | hin
      · exact Or.inr (hdropped job hin)
      · rcases List.mem_cons.mp hin with rfl | hin
        · exact Or.inl rfl
        · exact absurd hin hrest
  | parked hdropped => exact Or.inr (hdropped job hjob)
  | ended hdropped _ =>
      rcases List.mem_append.mp hjob with hin | hin
      · exact Or.inr (hdropped job hin)
      · exact absurd hin hrest

/-- The answer is the first job that has not expired. -/
theorem Turned.answer {entries rest : List Entry} (h : Turned now window entries rest outcome) :
    (outcome = .ended ∧ window = false) ∨
      outcome = answer (entries.find? fun job => expired job.2 now = false) := by
  have hskip : ∀ {dropped more : List Entry}, (∀ job ∈ dropped, expired job.2 now = true) →
      (dropped ++ more).find? (fun job => expired job.2 now = false) =
        more.find? fun job => expired job.2 now = false := by
    intro dropped more hdropped
    rw [List.find?_append]
    have hnone : dropped.find? (fun job => expired job.2 now = false) = none := by
      rw [List.find?_eq_none]
      intro job hjob
      rw [hdropped job hjob]
      simp
    rw [hnone, Option.none_or]
  cases h with
  | claimed hdropped hlive =>
      right
      rw [hskip hdropped, List.find?_cons_of_pos (by rw [hlive]; simp)]
      rfl
  | parked hdropped =>
      right
      have hnone := @hskip entries [] hdropped
      rw [List.append_nil] at hnone
      rw [hnone]
      rfl
  | ended _ hclosed => exact Or.inl ⟨rfl, hclosed⟩

/-- The labels of a poll, with the host and the outcome. -/
def polled : LoopLabel → Option (String × PollOutcome)
  | .poll _ host_id outcome => some (host_id, outcome)
  | .resume _ host_id outcome => some (host_id, outcome)
  | _ => none

/-- **A poll**: what it takes from its host's queue, and what it leaves alone. -/
structure Polled (s t : Loop) (window : Bool) (host_id : String) (outcome : PollOutcome)
    (rest : List Entry) : Prop where
  turned : Turned s.now window (s.queue.queues host_id) rest outcome
  queues : t.queue.queues = Function.update s.queue.queues host_id rest
  settles : Settles s.queue { t.queue with queues := s.queue.queues }
  next : t.next = s.next
  waiters : t.waiters = s.waiters
  now : t.now = s.now

theorem polled_of_turn (hqueue : (s.queue.poll s.now window host_id).1 = t.queue)
    (houtcome : (s.queue.poll s.now window host_id).2 = outcome) (hnext : t.next = s.next)
    (hwaiters : t.waiters = s.waiters) (hnow : t.now = s.now) : ∃ rest, Polled s t window host_id outcome rest := by
  obtain ⟨hsettles, hturned⟩ :=
    @poll_loop_spec window s.now s.queue (s.queue.queues host_id)
  rw [← houtcome]
  refine ⟨_, hturned, ?_, ?_, hnext, hwaiters, hnow⟩
  · rw [← hqueue, JobQueue.poll]
    dsimp only
    rw [hsettles.queues]
  · rw [← hqueue]
    exact ⟨rfl, hsettles.job_host, hsettles.pending, hsettles.result⟩

theorem polled_step (hlabel : polled label = some (host_id, outcome)) (hstep : loop_step s label = some t) :
    ∃ window rest, Polled s t window host_id outcome rest ∧
      (window = false → ∃ poll_id deadline, label = .resume poll_id host_id outcome ∧
        s.polls poll_id = some (host_id, deadline) ∧ deadline ≤ s.loop_time) := by
  cases label with
  | poll poll_id host outcome' =>
      obtain ⟨rfl, rfl⟩ := Prod.mk.inj (Option.some.inj hlabel)
      simp only [loop_step] at hstep
      by_cases hturn : s.polls poll_id = none ∧ (s.queue.poll s.now true host).2 = outcome'
      · rw [if_pos hturn] at hstep
        have ht := Option.some.inj hstep
        obtain ⟨rest, hpolled⟩ := @polled_of_turn s t true host outcome' (by rw [← ht]) hturn.2
          (by rw [← ht]) (by rw [← ht]) (by rw [← ht])
        exact ⟨true, rest, hpolled, fun h => absurd h (by simp)⟩
      · rw [if_neg hturn] at hstep
        exact absurd hstep (by simp)
  | resume poll_id host outcome' =>
      obtain ⟨rfl, rfl⟩ := Prod.mk.inj (Option.some.inj hlabel)
      simp only [loop_step] at hstep
      split at hstep
      · rename_i host' deadline hpoll
        split at hstep
        · rename_i hturn
          obtain ⟨rfl, -, houtcome⟩ := hturn
          have ht := Option.some.inj hstep
          obtain ⟨rest, hpolled⟩ := @polled_of_turn s t (s.loop_time < deadline) host' outcome'
            (by rw [← ht]) houtcome (by rw [← ht]) (by rw [← ht]) (by rw [← ht])
          refine ⟨_, rest, hpolled, ?_⟩
          intro hclosed
          exact ⟨poll_id, deadline, rfl, hpoll, not_lt.mp (of_decide_eq_false hclosed)⟩
        · exact absurd hstep (by simp)
      · exact absurd hstep (by simp)
  | _ => exact absurd hlabel (by simp [polled])

theorem delivery_polled (h : delivery label = some (host_id, job)) :
    polled label = some (host_id, .claimed job.1 job.2) := by
  unfold delivery at h
  split at h
  · obtain ⟨rfl, rfl⟩ := Prod.mk.inj (Option.some.inj h)
    rfl
  · obtain ⟨rfl, rfl⟩ := Prod.mk.inj (Option.some.inj h)
    rfl
  · exact absurd h (by simp)

theorem polled_delivery (h : polled label = some (host_id, outcome)) :
    (∀ host, enqueue_for host label = none) ∧ correlation label = none ∧ waited label = none ∧
      delivery label = match outcome with
        | .claimed job_id signed => some (host_id, job_id, signed)
        | _ => none := by
  cases label with
  | poll poll_id host outcome' =>
      obtain ⟨rfl, rfl⟩ := Prod.mk.inj (Option.some.inj h)
      cases outcome' <;> simp [enqueue_for, correlation, waited, delivery]
  | resume poll_id host outcome' =>
      obtain ⟨rfl, rfl⟩ := Prod.mk.inj (Option.some.inj h)
      cases outcome' <;> simp [enqueue_for, correlation, waited, delivery]
  | _ => exact absurd h (by simp [polled])

theorem resolve_ok {q q' : JobQueue} :
    q.resolve host_id payload = .ok q' ↔ q.job_host payload.job_id = some host_id ∧
      q.results payload.job_id = some .pending ∧
      q' = { q with
        results := Function.update q.results payload.job_id (some (.result payload)) } := by
  unfold JobQueue.resolve
  constructor
  · intro h
    split at h
    · exact absurd h (by simp)
    · rename_i expected_host hhost
      by_cases hne : expected_host ≠ host_id
      · rw [if_pos hne] at h
        exact absurd h (by simp)
      · rw [if_neg hne] at h
        by_cases hpending : q.results payload.job_id = some .pending
        · rw [if_pos hpending] at h
          rw [not_not.mp hne] at hhost
          exact ⟨hhost, hpending, (Except.ok.inj h).symm⟩
        · rw [if_neg hpending] at h
          exact absurd h (by simp)
  · rintro ⟨hhost, hpending, rfl⟩
    rw [hhost]
    dsimp only
    rw [if_neg (by simp), if_pos hpending]

theorem enqueue_step {timeout : ℕ} (hstep : loop_step s (.enqueue job_id signed host_id timeout) = some t) :
    job_id = s.next ∧ t = { s with
      queue := s.queue.enqueue job_id signed host_id
      next := s.next + 1
      waiters := Function.update s.waiters job_id (some ⟨s.loop_time + timeout, false⟩) } := by
  simp only [loop_step] at hstep
  by_cases hid : job_id = s.next
  · rw [if_pos hid] at hstep
    exact ⟨hid, (Option.some.inj hstep).symm⟩
  · rw [if_neg hid] at hstep
    exact absurd hstep (by simp)

theorem timeout_step (hstep : loop_step s (.timeout job_id) = some t) :
    ∃ waiter, s.waiters job_id = some waiter ∧ t = { s with
      queue := s.queue.set_future job_id .cancelled
      waiters := Function.update s.waiters job_id (some { waiter with timed_out := true }) } := by
  simp only [loop_step] at hstep
  split at hstep
  · rename_i waiter hwaiter
    split at hstep
    · exact ⟨waiter, hwaiter, (Option.some.inj hstep).symm⟩
    · exact absurd hstep (by simp)
  · exact absurd hstep (by simp)

theorem wake_step {outcome : Option JobResultPayload} (hstep : loop_step s (.wake job_id outcome) = some t) :
    ∃ waiter, s.waiters job_id = some waiter ∧
      wait_outcome waiter (s.queue.results job_id) = some outcome ∧ t = { s with
        queue := s.queue.forget job_id
        waiters := Function.update s.waiters job_id none } := by
  simp only [loop_step] at hstep
  split at hstep
  · rename_i waiter hwaiter
    split at hstep
    · rename_i houtcome
      exact ⟨waiter, hwaiter, houtcome, (Option.some.inj hstep).symm⟩
    · exact absurd hstep (by simp)
  · exact absurd hstep (by simp)

/-- A result is correlated to a future that waits for this host, or changes nothing. -/
theorem resolve_step {host_name : String} {post_id : ℕ} {accepted : Bool}
    (hstep : loop_step s (.resolve host_name post_id payload accepted) = some t) :
    t.next = s.next ∧ t.waiters = s.waiters ∧ t.now = s.now ∧
      ((accepted = false ∧ t.queue = s.queue) ∨
        (accepted = true ∧ s.queue.job_host payload.job_id = some host_name ∧
          s.queue.results payload.job_id = some .pending ∧ t.queue = { s.queue with
            results := Function.update s.queue.results payload.job_id
              (some (.result payload)) })) := by
  simp only [loop_step] at hstep
  split at hstep
  · split at hstep
    · rename_i queue hresolve
      obtain ⟨hhost, hpending, rfl⟩ := resolve_ok.mp hresolve
      rw [← Option.some.inj hstep]
      exact ⟨rfl, rfl, rfl, Or.inr ⟨rfl, hhost, hpending, rfl⟩⟩
    · rw [← Option.some.inj hstep]
      exact ⟨rfl, rfl, rfl, Or.inl ⟨rfl, rfl⟩⟩
    · exact absurd hstep (by simp)
  · exact absurd hstep (by simp)

/-- The labels of the steps that leave the queue alone. -/
def quiet : LoopLabel → Bool
  | .poll_timeout _ => true
  | .submit _ _ _ _ _ => true
  | .consume _ _ => true
  | .advance_loop _ => true
  | .advance_clock _ => true
  | _ => false

theorem quiet_step (hquiet : quiet label = true) (hstep : loop_step s label = some t) :
    t.queue = s.queue ∧ t.next = s.next ∧ t.waiters = s.waiters ∧ s.now ≤ t.now := by
  cases label with
  | poll_timeout poll_id =>
      simp only [loop_step] at hstep
      split at hstep
      · split at hstep
        · rw [← Option.some.inj hstep]
          exact ⟨rfl, rfl, rfl, le_refl _⟩
        · exact absurd hstep (by simp)
      · exact absurd hstep (by simp)
  | submit post_id host_name job_id payload passed =>
      simp only [loop_step] at hstep
      split at hstep
      · rw [← Option.some.inj hstep]
        exact ⟨rfl, rfl, rfl, le_refl _⟩
      · exact absurd hstep (by simp)
  | consume post_id fresh =>
      simp only [loop_step] at hstep
      split at hstep
      · rw [← Option.some.inj hstep]
        exact ⟨rfl, rfl, rfl, le_refl _⟩
      · exact absurd hstep (by simp)
  | advance_loop time =>
      rw [← Option.some.inj hstep]
      exact ⟨rfl, rfl, rfl, le_refl _⟩
  | advance_clock time =>
      rw [← Option.some.inj hstep]
      refine ⟨rfl, rfl, rfl, ?_⟩
      dsimp only
      omega
  | _ => exact absurd hquiet (by simp [quiet])

/-- What a step does to the lists of queued jobs: nothing, unless it enqueues or polls. -/
theorem frame_step (hstep : loop_step s label = some t)
    (henqueue : ∀ job_id signed host_id timeout, label ≠ .enqueue job_id signed host_id timeout)
    (hpolled : polled label = none) : t.queue.queues = s.queue.queues ∧ t.next = s.next ∧ s.now ≤ t.now ∧
      (∀ host, enqueue_for host label = none) ∧ delivery label = none := by
  cases label with
  | enqueue job_id signed host_id timeout => exact absurd rfl (henqueue _ _ _ _)
  | poll poll_id host_id outcome => exact absurd hpolled (by simp [polled])
  | resume poll_id host_id outcome => exact absurd hpolled (by simp [polled])
  | timeout job_id =>
      obtain ⟨waiter, -, rfl⟩ := timeout_step hstep
      have hsettles := settles_set_future s.queue job_id (by simp : Future.cancelled ≠ .pending)
        (by simp)
      exact ⟨hsettles.queues, rfl, le_refl _, fun _ => rfl, rfl⟩
  | wake job_id outcome =>
      obtain ⟨waiter, -, -, rfl⟩ := wake_step hstep
      exact ⟨rfl, rfl, le_refl _, fun _ => rfl, rfl⟩
  | resolve host_name post_id payload accepted =>
      obtain ⟨hnext, -, hnow, ⟨-, hqueue⟩ | ⟨-, -, -, hqueue⟩⟩ := resolve_step hstep
      · exact ⟨by rw [hqueue], hnext, hnow.ge, fun _ => rfl, rfl⟩
      · exact ⟨by rw [hqueue], hnext, hnow.ge, fun _ => rfl, rfl⟩
  | _ =>
      obtain ⟨hqueue, hnext, -, hnow⟩ := quiet_step rfl hstep
      exact ⟨by rw [hqueue], hnext, hnow, fun _ => rfl, rfl⟩

/-! ## The jobs -/

/-- Where jobs are: in their host's queue, in the order they came; or delivered; or
expired. -/
structure QueueInv (tr : List LoopLabel) (s : Loop) : Prop where
  enqueued_lt : ∀ host job, job ∈ enqueued tr host → job.1 < s.next
  enqueued_host : ∀ host host' job job', job ∈ enqueued tr host → job' ∈ enqueued tr host' →
    job.1 = job'.1 → host = host'
  nodup : ∀ host, ((enqueued tr host).map Prod.fst).Nodup
  sublist : ∀ host, (s.queue.queues host).Sublist (enqueued tr host)
  left : ∀ host job, job ∈ enqueued tr host → job ∉ s.queue.queues host →
    job.1 ∈ delivered tr ∨ expired job.2 s.now = true
  waiting : ∀ host job, job ∈ s.queue.queues host → job.1 ∉ delivered tr
  delivered_nodup : (delivered tr).Nodup
  delivered_for : ∀ host job, (host, job) ∈ tr.filterMap delivery → job ∈ enqueued tr host

theorem QueueInv.delivered_lt (h : QueueInv tr s) {id : ℕ} (hid : id ∈ delivered tr) : id < s.next := by
  obtain ⟨⟨host, job⟩, hmem, rfl⟩ := List.mem_map.mp hid
  exact h.enqueued_lt host job (h.delivered_for host job hmem)

theorem enqueued_keep (h : ∀ host, enqueue_for host label = none) (host : String) :
    enqueued (tr ++ [label]) host = enqueued tr host :=
  filterMap_snoc_none (h host)

theorem delivered_keep (h : delivery label = none) : delivered (tr ++ [label]) = delivered tr := by
  rw [delivered, filterMap_snoc_none h, delivered]

theorem delivered_snoc {host : String} (h : delivery label = some (host, job)) :
    delivered (tr ++ [label]) = delivered tr ++ [job.1] := by
  rw [delivered, filterMap_snoc_some h, List.map_append, List.map_singleton, delivered]

/-- A step that neither enqueues nor polls. -/
theorem QueueInv.keep (h : QueueInv tr s) (henqueue : ∀ host, enqueue_for host label = none)
    (hdelivery : delivery label = none) (hqueues : t.queue.queues = s.queue.queues)
    (hnext : t.next = s.next) (hnow : s.now ≤ t.now) : QueueInv (tr ++ [label]) t where
  enqueued_lt := by
    intro host job hjob
    rw [enqueued_keep henqueue] at hjob
    rw [hnext]
    exact h.enqueued_lt host job hjob
  enqueued_host := by
    intro host host' job job' hjob hjob'
    rw [enqueued_keep henqueue] at hjob hjob'
    exact h.enqueued_host host host' job job' hjob hjob'
  nodup := by
    intro host
    rw [enqueued_keep henqueue]
    exact h.nodup host
  sublist := by
    intro host
    rw [enqueued_keep henqueue, hqueues]
    exact h.sublist host
  left := by
    intro host job hjob hleft
    rw [enqueued_keep henqueue] at hjob
    rw [hqueues] at hleft
    rw [delivered_keep hdelivery]
    exact (h.left host job hjob hleft).imp id (expired_mono hnow)
  waiting := by
    intro host job hjob
    rw [hqueues] at hjob
    rw [delivered_keep hdelivery]
    exact h.waiting host job hjob
  delivered_nodup := by
    rw [delivered_keep hdelivery]
    exact h.delivered_nodup
  delivered_for := by
    intro host job hjob
    rw [filterMap_snoc_none hdelivery] at hjob
    rw [enqueued_keep henqueue]
    exact h.delivered_for host job hjob

/-- A new job goes to the end of its host's queue. -/
theorem QueueInv.enqueue (h : QueueInv tr s) {timeout : ℕ} (hqueue : t.queue = s.queue.enqueue s.next signed host_id)
    (hnext : t.next = s.next + 1) (hnow : t.now = s.now) :
    QueueInv (tr ++ [.enqueue s.next signed host_id timeout]) t := by
  have hself : enqueued (tr ++ [.enqueue s.next signed host_id timeout]) host_id =
      enqueued tr host_id ++ [(s.next, signed)] := filterMap_snoc_some (if_pos rfl)
  have hother : ∀ host, host ≠ host_id →
      enqueued (tr ++ [.enqueue s.next signed host_id timeout]) host = enqueued tr host :=
    fun host hne => filterMap_snoc_none (if_neg (Ne.symm hne))
  have hdelivered : delivered (tr ++ [.enqueue s.next signed host_id timeout]) = delivered tr :=
    delivered_keep rfl
  have hqueue_self : t.queue.queues host_id = s.queue.queues host_id ++ [(s.next, signed)] := by
    rw [hqueue, JobQueue.enqueue]
    exact Function.update_self ..
  have hqueue_other : ∀ host, host ≠ host_id → t.queue.queues host = s.queue.queues host := by
    intro host hne
    rw [hqueue, JobQueue.enqueue]
    exact Function.update_of_ne hne _ _
  -- a job is an old one, or the new one under its new number
  have hcases : ∀ host job,
      job ∈ enqueued (tr ++ [.enqueue s.next signed host_id timeout]) host →
      job ∈ enqueued tr host ∨ (host = host_id ∧ job = (s.next, signed)) := by
    intro host job hjob
    by_cases hhost : host = host_id
    · rw [hhost, hself] at hjob
      rcases List.mem_append.mp hjob with hold | hnew
      · exact Or.inl (by rw [hhost]; exact hold)
      · exact Or.inr ⟨hhost, List.mem_singleton.mp hnew⟩
    · rw [hother host hhost] at hjob
      exact Or.inl hjob
  refine ⟨?_, ?_, ?_, ?_, ?_, ?_, ?_, ?_⟩
  · intro host job hjob
    rw [hnext]
    rcases hcases host job hjob with hold | ⟨-, rfl⟩
    · have hlt := h.enqueued_lt host job hold
      omega
    · exact Nat.lt_succ_self _
  · intro host host' job job' hjob hjob' hid
    rcases hcases host job hjob with hold | ⟨rfl, rfl⟩
    · rcases hcases host' job' hjob' with hold' | ⟨rfl, rfl⟩
      · exact h.enqueued_host host host' job job' hold hold' hid
      · have hlt := h.enqueued_lt host job hold
        omega
    · rcases hcases host' job' hjob' with hold' | ⟨rfl, rfl⟩
      · have hlt := h.enqueued_lt host' job' hold'
        omega
      · rfl
  · intro host
    by_cases hhost : host = host_id
    · rw [hhost, hself, List.map_append, List.map_singleton]
      apply List.Nodup.append (h.nodup host_id) (List.nodup_singleton _)
      intro id hid hid'
      obtain ⟨job, hjob, rfl⟩ := List.mem_map.mp hid
      have hlt := h.enqueued_lt host_id job hjob
      rw [List.mem_singleton.mp hid'] at hlt
      omega
    · rw [hother host hhost]
      exact h.nodup host
  · intro host
    by_cases hhost : host = host_id
    · rw [hhost, hself, hqueue_self]
      exact (h.sublist host_id).append (List.Sublist.refl _)
    · rw [hother host hhost, hqueue_other host hhost]
      exact h.sublist host
  · intro host job hjob hleft
    rw [hdelivered, hnow]
    rcases hcases host job hjob with hold | ⟨rfl, rfl⟩
    · apply h.left host job hold
      intro hin
      apply hleft
      by_cases hhost : host = host_id
      · rw [hhost] at hin ⊢
        rw [hqueue_self]
        exact List.mem_append_left _ hin
      · rw [hqueue_other host hhost]
        exact hin
    · rw [hqueue_self] at hleft
      exact absurd (List.mem_append_right _ List.mem_cons_self) hleft
  · intro host job hjob
    rw [hdelivered]
    by_cases hhost : host = host_id
    · rw [hhost, hqueue_self] at hjob
      rcases List.mem_append.mp hjob with hold | hnew
      · exact h.waiting host_id job hold
      · rw [List.mem_singleton.mp hnew]
        intro hin
        exact absurd (h.delivered_lt hin) (lt_irrefl _)
    · rw [hqueue_other host hhost] at hjob
      exact h.waiting host job hjob
  · rw [hdelivered]
    exact h.delivered_nodup
  · intro host job hjob
    rw [filterMap_snoc_none rfl] at hjob
    exact mem_filterMap_snoc _ (h.delivered_for host job hjob)

/-- A poll takes jobs from the front of its host's queue. -/
theorem QueueInv.polled {rest : List Entry} (h : QueueInv tr s) (hlabel : polled label = some (host_id, outcome))
    (hpolled : Polled s t window host_id outcome rest) : QueueInv (tr ++ [label]) t := by
  obtain ⟨henqueue, -, -, hdelivery⟩ := polled_delivery hlabel
  have hself : t.queue.queues host_id = rest := by
    rw [hpolled.queues]
    exact Function.update_self ..
  have hother : ∀ host, host ≠ host_id → t.queue.queues host = s.queue.queues host := by
    intro host hne
    rw [hpolled.queues]
    exact Function.update_of_ne hne _ _
  have hsub : ∀ host, (t.queue.queues host).Sublist (s.queue.queues host) := by
    intro host
    by_cases hhost : host = host_id
    · rw [hhost, hself]
      exact hpolled.turned.sublist
    · rw [hother host hhost]
  -- what is delivered stands before what is left, under another number
  have hdelivered : (delivered (tr ++ [label]) = delivered tr ∧ delivery label = none ∧
        ∀ job_id signed, outcome ≠ .claimed job_id signed) ∨
      ∃ job, outcome = .claimed job.1 job.2 ∧ delivery label = some (host_id, job) ∧
        delivered (tr ++ [label]) = delivered tr ++ [job.1] ∧
        job ∈ s.queue.queues host_id ∧ ∀ j ∈ rest, j.1 ≠ job.1 := by
    have hturned := hpolled.turned
    have hnodup := (h.nodup host_id).sublist ((h.sublist host_id).map Prod.fst)
    generalize s.queue.queues host_id = entries at hturned hnodup ⊢
    cases hturned with
    | @claimed dropped job_id signed _ _ _ =>
        right
        refine ⟨(job_id, signed), rfl, hdelivery, delivered_snoc hdelivery,
          List.mem_append_right _ List.mem_cons_self, ?_⟩
        intro j hj hid
        rw [List.map_append, List.map_cons] at hnodup
        have hcons := hnodup.of_append_right
        rw [List.nodup_cons] at hcons
        apply hcons.1
        rw [← hid]
        exact List.mem_map_of_mem hj
    | parked _ => exact Or.inl ⟨delivered_keep hdelivery, hdelivery, by simp⟩
    | ended _ _ => exact Or.inl ⟨delivered_keep hdelivery, hdelivery, by simp⟩
  have hmono : ∀ id, id ∈ delivered tr → id ∈ delivered (tr ++ [label]) := by
    intro id hid
    obtain ⟨hsame, -⟩ | ⟨job, -, -, hsnoc, -⟩ := hdelivered
    · rw [hsame]
      exact hid
    · rw [hsnoc]
      exact List.mem_append_left _ hid
  refine ⟨?_, ?_, ?_, ?_, ?_, ?_, ?_, ?_⟩
  · intro host job hjob
    rw [enqueued_keep henqueue] at hjob
    rw [hpolled.next]
    exact h.enqueued_lt host job hjob
  · intro host host' job job' hjob hjob'
    rw [enqueued_keep henqueue] at hjob hjob'
    exact h.enqueued_host host host' job job' hjob hjob'
  · intro host
    rw [enqueued_keep henqueue]
    exact h.nodup host
  · intro host
    rw [enqueued_keep henqueue]
    exact (hsub host).trans (h.sublist host)
  · intro host job hjob hleft
    rw [enqueued_keep henqueue] at hjob
    rw [hpolled.now]
    by_cases hin : job ∈ s.queue.queues host
    · by_cases hhost : host = host_id
      · subst hhost
        rw [hself] at hleft
        rcases hpolled.turned.gone hin hleft with hclaimed | hexpired
        · left
          obtain ⟨-, -, hnot⟩ | ⟨job', houtcome, -, hsnoc, -⟩ := hdelivered
          · exact absurd hclaimed (hnot _ _)
          · rw [hclaimed] at houtcome
            obtain ⟨hid, -⟩ := PollOutcome.claimed.inj houtcome
            rw [hsnoc, hid]
            exact List.mem_append_right _ List.mem_cons_self
        · exact Or.inr hexpired
      · rw [hother host hhost] at hleft
        exact absurd hin hleft
    · exact (h.left host job hjob hin).imp (hmono job.1) id
  · intro host job hjob
    have hold := h.waiting host job ((hsub host).subset hjob)
    obtain ⟨hsame, -⟩ | ⟨job', -, -, hsnoc, hin, hne⟩ := hdelivered
    · rw [hsame]
      exact hold
    · rw [hsnoc, List.mem_append, not_or, List.mem_singleton]
      refine ⟨hold, ?_⟩
      by_cases hhost : host = host_id
      · rw [hhost, hself] at hjob
        exact hne job hjob
      · intro hid
        apply hhost
        exact h.enqueued_host host host_id job job'
          ((h.sublist host).subset ((hsub host).subset hjob)) ((h.sublist host_id).subset hin) hid
  · obtain ⟨hsame, -⟩ | ⟨job', -, -, hsnoc, hin, -⟩ := hdelivered
    · rw [hsame]
      exact h.delivered_nodup
    · rw [hsnoc]
      apply List.Nodup.append h.delivered_nodup (List.nodup_singleton _)
      intro id hid hid'
      rw [List.mem_singleton.mp hid'] at hid
      exact h.waiting host_id job' hin hid
  · intro host job hjob
    rw [enqueued_keep henqueue]
    obtain ⟨-, hnone, -⟩ | ⟨job', -, hsome, -, hin, -⟩ := hdelivered
    · rw [filterMap_snoc_none hnone] at hjob
      exact h.delivered_for host job hjob
    · rw [filterMap_snoc_some hsome] at hjob
      rcases List.mem_append.mp hjob with hold | hnew
      · exact h.delivered_for host job hold
      · obtain ⟨rfl, rfl⟩ := Prod.mk.inj (List.mem_singleton.mp hnew)
        exact (h.sublist host).subset hin

theorem QueueInv.step (h : QueueInv tr s) (hstep : loop_step s label = some t) : QueueInv (tr ++ [label]) t := by
  by_cases henqueue : ∃ job_id signed host_id timeout,
      label = .enqueue job_id signed host_id timeout
  · obtain ⟨job_id, signed, host_id, timeout, rfl⟩ := henqueue
    obtain ⟨rfl, rfl⟩ := enqueue_step hstep
    exact h.enqueue rfl rfl rfl
  · rcases hlabel : Delivery.polled label with _ | ⟨host_id, outcome⟩
    · obtain ⟨hqueues, hnext, hnow, hnone, hdelivery⟩ := frame_step hstep
        (fun job_id signed host_id timeout heq =>
          henqueue ⟨job_id, signed, host_id, timeout, heq⟩) hlabel
      exact h.keep hnone hdelivery hqueues hnext hnow
    · obtain ⟨window, rest, hpolled, -⟩ := polled_step hlabel hstep
      exact h.polled hlabel hpolled

theorem queue_inv (htr : event_loop.Trace tr s) : QueueInv tr s := by
  refine htr.induct ?_ fun tr s label t _ h hstep => h.step hstep
  rintro s ⟨hqueue, -⟩
  have hempty : ∀ host, s.queue.queues host = [] := by
    intro host
    rw [hqueue]
  refine ⟨?_, ?_, ?_, ?_, ?_, ?_, List.nodup_nil, ?_⟩
  · exact fun _ _ hjob => absurd hjob List.not_mem_nil
  · exact fun _ _ _ _ hjob => absurd hjob List.not_mem_nil
  · exact fun _ => List.nodup_nil
  · intro host
    rw [hempty host]
    exact List.nil_sublist _
  · exact fun _ _ hjob => absurd hjob List.not_mem_nil
  · intro host job hjob
    rw [hempty host] at hjob
    exact absurd hjob List.not_mem_nil
  · exact fun _ _ hjob => absurd hjob List.not_mem_nil

/-! ## The waits -/

/-- How waits stand: a future waits for one host, no result was correlated to it before,
and a result in it was. -/
structure WaitInv (tr : List LoopLabel) (s : Loop) : Prop where
  job_host : ∀ id host, s.queue.job_host id = some host →
    ∃ signed, (id, signed) ∈ enqueued tr host
  pending : ∀ id, s.queue.results id = some .pending → id ∉ correlated tr
  result : ∀ id payload, s.queue.results id = some (.result payload) →
    payload.job_id = id ∧ ∃ host, (host, payload) ∈ tr.filterMap correlation
  correlated_for : ∀ host payload, (host, payload) ∈ tr.filterMap correlation →
    ∃ signed, (payload.job_id, signed) ∈ enqueued tr host
  correlated_nodup : (correlated tr).Nodup
  waiter_lt : ∀ id waiter, s.waiters id = some waiter → id < s.next
  waiting : ∀ id waiter, s.waiters id = some waiter →
    id ∉ (tr.filterMap waited).map Prod.fst
  waited_gone : ∀ id, id ∈ (tr.filterMap waited).map Prod.fst →
    id < s.next ∧ s.queue.job_host id = none
  waited_nodup : ((tr.filterMap waited).map Prod.fst).Nodup
  returned : ∀ id payload, (id, some payload) ∈ tr.filterMap waited →
    payload.job_id = id ∧ ∃ host, (host, payload) ∈ tr.filterMap correlation

theorem correlated_keep (h : correlation label = none) : correlated (tr ++ [label]) = correlated tr := by
  rw [correlated, filterMap_snoc_none h, correlated]

/-- A step that neither enqueues nor correlates nor ends a wait. -/
theorem WaitInv.keep (h : WaitInv tr s) (hcorrelation : correlation label = none)
    (hwaited : waited label = none) (hnext : t.next = s.next) (hhost : t.queue.job_host = s.queue.job_host)
    (hpending : ∀ id, t.queue.results id = some .pending → s.queue.results id = some .pending)
    (hresult : ∀ id payload, t.queue.results id = some (.result payload) → s.queue.results id = some (.result payload))
    (hwaiters : ∀ id waiter, t.waiters id = some waiter → ∃ waiter', s.waiters id = some waiter') :
    WaitInv (tr ++ [label]) t where
  job_host := by
    intro id host hid
    rw [hhost] at hid
    obtain ⟨signed, hjob⟩ := h.job_host id host hid
    exact ⟨signed, mem_filterMap_snoc label hjob⟩
  pending := by
    intro id hid
    rw [correlated_keep hcorrelation]
    exact h.pending id (hpending id hid)
  result := by
    intro id payload hid
    rw [filterMap_snoc_none hcorrelation]
    exact h.result id payload (hresult id payload hid)
  correlated_for := by
    intro host payload hmem
    rw [filterMap_snoc_none hcorrelation] at hmem
    obtain ⟨signed, hjob⟩ := h.correlated_for host payload hmem
    exact ⟨signed, mem_filterMap_snoc label hjob⟩
  correlated_nodup := by
    rw [correlated_keep hcorrelation]
    exact h.correlated_nodup
  waiter_lt := by
    intro id waiter hid
    obtain ⟨waiter', hid'⟩ := hwaiters id waiter hid
    rw [hnext]
    exact h.waiter_lt id waiter' hid'
  waiting := by
    intro id waiter hid
    obtain ⟨waiter', hid'⟩ := hwaiters id waiter hid
    rw [filterMap_snoc_none hwaited]
    exact h.waiting id waiter' hid'
  waited_gone := by
    intro id hid
    rw [filterMap_snoc_none hwaited] at hid
    rw [hnext, hhost]
    exact h.waited_gone id hid
  waited_nodup := by
    rw [filterMap_snoc_none hwaited]
    exact h.waited_nodup
  returned := by
    intro id payload hmem
    rw [filterMap_snoc_none hwaited] at hmem
    rw [filterMap_snoc_none hcorrelation]
    exact h.returned id payload hmem

/-- Nor touches the queue or the waits. -/
theorem WaitInv.keep_queue (h : WaitInv tr s) (hcorrelation : correlation label = none)
    (hwaited : waited label = none) (hqueue : t.queue = s.queue) (hnext : t.next = s.next)
    (hwaiters : t.waiters = s.waiters) : WaitInv (tr ++ [label]) t := by
  refine h.keep hcorrelation hwaited hnext (by rw [hqueue]) ?_ ?_ ?_
  · rw [hqueue]
    exact fun _ hid => hid
  · rw [hqueue]
    exact fun _ _ hid => hid
  · rw [hwaiters]
    exact fun _ waiter hid => ⟨waiter, hid⟩

theorem WaitInv.correlated_lt (h : WaitInv tr s) (hqueue : QueueInv tr s) {id : ℕ}
    (hid : id ∈ correlated tr) : id < s.next := by
  obtain ⟨⟨host, payload⟩, hmem, rfl⟩ := List.mem_map.mp hid
  obtain ⟨signed, hjob⟩ := h.correlated_for host payload hmem
  exact hqueue.enqueued_lt host _ hjob

/-- A new wait. -/
theorem WaitInv.enqueue (h : WaitInv tr s) (hqueue : QueueInv tr s) (signed : SignedJob)
    (host_id : String) (timeout : ℕ) :
    WaitInv (tr ++ [.enqueue s.next signed host_id timeout]) { s with
      queue := s.queue.enqueue s.next signed host_id
      next := s.next + 1
      waiters := Function.update s.waiters s.next (some ⟨s.loop_time + timeout, false⟩) } := by
  have hresults : ∀ id, id ≠ s.next →
      (s.queue.enqueue s.next signed host_id).results id = s.queue.results id := fun id hne =>
    Function.update_of_ne hne _ _
  have hself : (s.queue.enqueue s.next signed host_id).results s.next = some .pending :=
    Function.update_self ..
  have hhosts : ∀ id, id ≠ s.next →
      (s.queue.enqueue s.next signed host_id).job_host id = s.queue.job_host id := fun id hne =>
    Function.update_of_ne hne _ _
  refine ⟨?_, ?_, ?_, ?_, ?_, ?_, ?_, ?_, ?_, ?_⟩
  · intro id host hid
    by_cases hnew : id = s.next
    · have hhost : (s.queue.enqueue s.next signed host_id).job_host s.next = some host_id :=
        Function.update_self ..
      dsimp only at hid
      rw [hnew, hhost, Option.some.injEq] at hid
      have hlast : enqueued (tr ++ [.enqueue s.next signed host_id timeout]) host =
          enqueued tr host ++ [(s.next, signed)] := filterMap_snoc_some (if_pos hid)
      refine ⟨signed, ?_⟩
      rw [hnew, hlast]
      exact List.mem_append_right _ List.mem_cons_self
    · dsimp only at hid
      rw [hhosts id hnew] at hid
      obtain ⟨old, hjob⟩ := h.job_host id host hid
      exact ⟨old, mem_filterMap_snoc _ hjob⟩
  · intro id hid
    rw [correlated_keep rfl]
    by_cases hnew : id = s.next
    · intro hin
      have hlt := h.correlated_lt hqueue hin
      omega
    · dsimp only at hid
      rw [hresults id hnew] at hid
      exact h.pending id hid
  · intro id payload hid
    rw [filterMap_snoc_none rfl]
    by_cases hnew : id = s.next
    · dsimp only at hid
      rw [hnew, hself] at hid
      exact absurd hid (by simp)
    · dsimp only at hid
      rw [hresults id hnew] at hid
      exact h.result id payload hid
  · intro host payload hmem
    rw [filterMap_snoc_none rfl] at hmem
    obtain ⟨old, hjob⟩ := h.correlated_for host payload hmem
    exact ⟨old, mem_filterMap_snoc _ hjob⟩
  · rw [correlated_keep rfl]
    exact h.correlated_nodup
  · intro id waiter hid
    by_cases hnew : id = s.next
    · rw [hnew]
      exact Nat.lt_succ_self _
    · dsimp only at hid
      rw [Function.update_of_ne hnew] at hid
      exact Nat.lt_succ_of_lt (h.waiter_lt id waiter hid)
  · intro id waiter hid
    rw [filterMap_snoc_none rfl]
    by_cases hnew : id = s.next
    · intro hin
      have hlt := (h.waited_gone id hin).1
      omega
    · dsimp only at hid
      rw [Function.update_of_ne hnew] at hid
      exact h.waiting id waiter hid
  · intro id hid
    rw [filterMap_snoc_none rfl] at hid
    obtain ⟨hlt, hgone⟩ := h.waited_gone id hid
    refine ⟨Nat.lt_succ_of_lt hlt, ?_⟩
    dsimp only
    rw [hhosts id (by omega)]
    exact hgone
  · rw [filterMap_snoc_none rfl]
    exact h.waited_nodup
  · intro id payload hmem
    rw [filterMap_snoc_none rfl] at hmem
    rw [filterMap_snoc_none rfl]
    exact h.returned id payload hmem

/-- A wait ends. -/
theorem WaitInv.wake (h : WaitInv tr s) {id : ℕ} {waiter : Waiter}
    {outcome : Option JobResultPayload} (hwaiter : s.waiters id = some waiter)
    (houtcome : wait_outcome waiter (s.queue.results id) = some outcome) :
    WaitInv (tr ++ [.wake id outcome]) { s with
      queue := s.queue.forget id
      waiters := Function.update s.waiters id none } := by
  have hresults : ∀ id' future, (s.queue.forget id).results id' = some future →
      s.queue.results id' = some future := fun _ _ hid' => (update_none_eq_some.mp hid').2
  have hhosts : ∀ id' host, (s.queue.forget id).job_host id' = some host →
      s.queue.job_host id' = some host := fun _ _ hid' => (update_none_eq_some.mp hid').2
  have hwaits : (tr ++ [LoopLabel.wake id outcome]).filterMap waited =
      tr.filterMap waited ++ [(id, outcome)] := filterMap_snoc_some rfl
  refine ⟨?_, ?_, ?_, ?_, ?_, ?_, ?_, ?_, ?_, ?_⟩
  · intro id' host hid'
    obtain ⟨signed, hjob⟩ := h.job_host id' host (hhosts id' host hid')
    exact ⟨signed, mem_filterMap_snoc _ hjob⟩
  · intro id' hid'
    rw [correlated_keep rfl]
    exact h.pending id' (hresults id' _ hid')
  · intro id' payload hid'
    rw [filterMap_snoc_none rfl]
    exact h.result id' payload (hresults id' _ hid')
  · intro host payload hmem
    rw [filterMap_snoc_none rfl] at hmem
    obtain ⟨signed, hjob⟩ := h.correlated_for host payload hmem
    exact ⟨signed, mem_filterMap_snoc _ hjob⟩
  · rw [correlated_keep rfl]
    exact h.correlated_nodup
  · exact fun id' waiter' hid' => h.waiter_lt id' waiter' (update_none_eq_some.mp hid').2
  · intro id' waiter' hid'
    obtain ⟨hne, hid'⟩ := update_none_eq_some.mp hid'
    rw [hwaits, List.map_append, List.mem_append, not_or, List.map_singleton,
      List.mem_singleton]
    exact ⟨h.waiting id' waiter' hid', hne⟩
  · intro id' hid'
    rw [hwaits, List.map_append, List.mem_append, List.map_singleton, List.mem_singleton] at hid'
    by_cases hsame : id' = id
    · rw [hsame]
      refine ⟨h.waiter_lt id waiter hwaiter, ?_⟩
      rw [JobQueue.forget]
      exact Function.update_self ..
    · obtain ⟨hlt, hgone⟩ := h.waited_gone id' (hid'.resolve_right hsame)
      refine ⟨hlt, ?_⟩
      rw [JobQueue.forget]
      dsimp only
      rw [Function.update_of_ne hsame]
      exact hgone
  · rw [hwaits, List.map_append, List.map_singleton]
    apply List.Nodup.append h.waited_nodup (List.nodup_singleton _)
    intro id' hid' hid''
    rw [List.mem_singleton.mp hid''] at hid'
    exact h.waiting id waiter hwaiter hid'
  · intro id' payload hmem
    rw [filterMap_snoc_none (f := correlation) rfl]
    rw [hwaits] at hmem
    rcases List.mem_append.mp hmem with hold | hnew
    · exact h.returned id' payload hold
    · obtain ⟨rfl, rfl⟩ := Prod.mk.inj (List.mem_singleton.mp hnew)
      -- the wait ended with what its future held
      apply h.result
      unfold wait_outcome at houtcome
      split at houtcome
      · exact absurd houtcome (by simp)
      · split at houtcome
        · rename_i payload' hresult
          rw [Option.some.injEq, Option.some.injEq] at houtcome
          rw [hresult, houtcome]
        · exact absurd houtcome (by simp)
        · exact absurd houtcome (by simp)
        · exact absurd houtcome (by simp)

/-- A result is correlated. -/
theorem WaitInv.correlate (h : WaitInv tr s) {host_name : String} {post_id : ℕ}
    (hhost : s.queue.job_host payload.job_id = some host_name)
    (hpending : s.queue.results payload.job_id = some .pending) (hqueue : t.queue = { s.queue with
      results := Function.update s.queue.results payload.job_id (some (.result payload)) }) (hnext : t.next = s.next)
    (hwaiters : t.waiters = s.waiters) : WaitInv (tr ++ [.resolve host_name post_id payload true]) t := by
  have hlist : (tr ++ [LoopLabel.resolve host_name post_id payload true]).filterMap correlation =
      tr.filterMap correlation ++ [(host_name, payload)] := filterMap_snoc_some rfl
  have hids : correlated (tr ++ [.resolve host_name post_id payload true]) =
      correlated tr ++ [payload.job_id] := by
    rw [correlated, hlist, List.map_append, List.map_singleton, correlated]
  have hself : t.queue.results payload.job_id = some (.result payload) := by
    rw [hqueue]
    exact Function.update_self ..
  have hother : ∀ id, id ≠ payload.job_id → t.queue.results id = s.queue.results id := by
    intro id hne
    rw [hqueue]
    exact Function.update_of_ne hne _ _
  have hhosts : t.queue.job_host = s.queue.job_host := by rw [hqueue]
  refine ⟨?_, ?_, ?_, ?_, ?_, ?_, ?_, ?_, ?_, ?_⟩
  · intro id host hid
    rw [hhosts] at hid
    obtain ⟨signed, hjob⟩ := h.job_host id host hid
    exact ⟨signed, mem_filterMap_snoc _ hjob⟩
  · intro id hid
    by_cases hsame : id = payload.job_id
    · rw [hsame, hself] at hid
      exact absurd hid (by simp)
    · rw [hother id hsame] at hid
      rw [hids, List.mem_append, not_or, List.mem_singleton]
      exact ⟨h.pending id hid, hsame⟩
  · intro id payload' hid
    by_cases hsame : id = payload.job_id
    · rw [hsame, hself, Option.some.injEq] at hid
      rw [← Future.result.inj hid, hlist]
      exact ⟨hsame.symm, host_name, List.mem_append_right _ List.mem_cons_self⟩
    · rw [hother id hsame] at hid
      obtain ⟨hjob, host, hmem⟩ := h.result id payload' hid
      exact ⟨hjob, host, mem_filterMap_snoc _ hmem⟩
  · intro host payload' hmem
    rw [hlist] at hmem
    rcases List.mem_append.mp hmem with hold | hnew
    · obtain ⟨signed, hjob⟩ := h.correlated_for host payload' hold
      exact ⟨signed, mem_filterMap_snoc _ hjob⟩
    · obtain ⟨rfl, rfl⟩ := Prod.mk.inj (List.mem_singleton.mp hnew)
      obtain ⟨signed, hjob⟩ := h.job_host _ _ hhost
      exact ⟨signed, mem_filterMap_snoc _ hjob⟩
  · rw [hids]
    apply List.Nodup.append h.correlated_nodup (List.nodup_singleton _)
    intro id hid hid'
    rw [List.mem_singleton.mp hid'] at hid
    exact h.pending _ hpending hid
  · intro id waiter hid
    rw [hwaiters] at hid
    rw [hnext]
    exact h.waiter_lt id waiter hid
  · intro id waiter hid
    rw [hwaiters] at hid
    rw [filterMap_snoc_none rfl]
    exact h.waiting id waiter hid
  · intro id hid
    rw [filterMap_snoc_none rfl] at hid
    rw [hnext, hhosts]
    exact h.waited_gone id hid
  · rw [filterMap_snoc_none rfl]
    exact h.waited_nodup
  · intro id payload' hmem
    rw [filterMap_snoc_none (f := waited) rfl] at hmem
    obtain ⟨hjob, host, hin⟩ := h.returned id payload' hmem
    exact ⟨hjob, host, mem_filterMap_snoc _ hin⟩

theorem WaitInv.step (h : WaitInv tr s) (hqueue : QueueInv tr s)
    (hstep : loop_step s label = some t) : WaitInv (tr ++ [label]) t := by
  rcases hlabel : polled label with _ | ⟨host_id, outcome⟩
  · cases label with
    | enqueue job_id signed host_id timeout =>
        obtain ⟨rfl, rfl⟩ := enqueue_step hstep
        exact h.enqueue hqueue signed host_id timeout
    | timeout job_id =>
        obtain ⟨waiter, hwaiter, rfl⟩ := timeout_step hstep
        have hsettles := settles_set_future s.queue job_id
          (by simp : Future.cancelled ≠ .pending) (by simp)
        refine h.keep rfl rfl rfl hsettles.job_host hsettles.pending hsettles.result ?_
        intro id waiter' hid
        by_cases hsame : id = job_id
        · exact ⟨waiter, by rw [hsame]; exact hwaiter⟩
        · dsimp only at hid
          rw [Function.update_of_ne hsame] at hid
          exact ⟨waiter', hid⟩
    | wake job_id outcome =>
        obtain ⟨waiter, hwaiter, houtcome, rfl⟩ := wake_step hstep
        exact h.wake hwaiter houtcome
    | resolve host_name post_id payload accepted =>
        obtain ⟨hnext, hwaiters, -, ⟨rfl, hsame⟩ | ⟨rfl, hhost, hpending, hset⟩⟩ :=
          resolve_step hstep
        · exact h.keep_queue rfl rfl hsame hnext hwaiters
        · exact h.correlate hhost hpending hset hnext hwaiters
    | poll poll_id host_id outcome => exact absurd hlabel (by simp [polled])
    | resume poll_id host_id outcome => exact absurd hlabel (by simp [polled])
    | _ =>
        obtain ⟨hsame, hnext, hwaiters, -⟩ := quiet_step rfl hstep
        exact h.keep_queue rfl rfl hsame hnext hwaiters
  · obtain ⟨window, rest, hpolled, -⟩ := polled_step hlabel hstep
    obtain ⟨-, hcorrelation, hwaited, -⟩ := polled_delivery hlabel
    refine h.keep hcorrelation hwaited hpolled.next hpolled.settles.job_host
      hpolled.settles.pending hpolled.settles.result ?_
    rw [hpolled.waiters]
    exact fun _ waiter hid => ⟨waiter, hid⟩

theorem wait_inv (htr : event_loop.Trace tr s) : WaitInv tr s := by
  refine htr.induct ?_ fun tr s label t htr h hstep => h.step (queue_inv htr) hstep
  rintro s ⟨hqueue, -, hwaiters, -, -⟩
  refine ⟨?_, ?_, ?_, ?_, List.nodup_nil, ?_, ?_, ?_, List.nodup_nil, ?_⟩
  · intro id host hid
    rw [hqueue] at hid
    exact absurd hid (by simp)
  · intro id hid
    rw [hqueue] at hid
    exact absurd hid (by simp)
  · intro id payload hid
    rw [hqueue] at hid
    exact absurd hid (by simp)
  · exact fun _ _ hmem => absurd hmem List.not_mem_nil
  · intro id waiter hid
    rw [hwaiters] at hid
    exact absurd hid (by simp)
  · intro id waiter hid
    rw [hwaiters] at hid
    exact absurd hid (by simp)
  · exact fun _ hid => absurd hid List.not_mem_nil
  · exact fun _ _ hmem => absurd hmem List.not_mem_nil

/-! ## Safety -/

/-- What has come of the jobs and the results. -/
structure QueueSafe (tr : List LoopLabel) : Prop where
  /-- a job is delivered at most once -/
  delivered_once : (delivered tr).Nodup
  /-- to the host it was enqueued for -/
  delivered_for : ∀ host job, (host, job) ∈ tr.filterMap delivery → job ∈ enqueued tr host
  /-- a job id stands for one job of one host -/
  one_host : ∀ host host' job job', job ∈ enqueued tr host → job' ∈ enqueued tr host' →
    job.1 = job'.1 → host = host'
  /-- a future gets at most one result -/
  resolved_once : (correlated tr).Nodup
  /-- from the host its job was enqueued for -/
  resolved_by : ∀ host payload, (host, payload) ∈ tr.filterMap correlation →
    ∃ signed, (payload.job_id, signed) ∈ enqueued tr host
  /-- a wait ends at most once -/
  waited_once : ((tr.filterMap waited).map Prod.fst).Nodup
  /-- and it returns what was posted under its own job id -/
  returned : ∀ id payload, (id, some payload) ∈ tr.filterMap waited →
    payload.job_id = id ∧ ∃ host, (host, payload) ∈ tr.filterMap correlation

/-- What the next step may do. -/
structure StepSafe (tr : List LoopLabel) (s t : Loop) (label : LoopLabel) : Prop where
  /-- what is delivered has not expired -/
  unexpired : ∀ host job, delivery label = some (host, job) →
    s.now < job.2.job.expires_at.instant
  /-- a poll is answered with the host's oldest undelivered unexpired job -/
  polled : ∀ poll_id host outcome, label = .poll poll_id host outcome →
    outcome = answer (oldest tr s.now host)
  /-- and so is one that was parked, within its window -/
  resumed : ∀ poll_id host outcome, label = .resume poll_id host outcome →
    outcome = answer (oldest tr s.now host) ∨
      (outcome = .ended ∧ ∃ deadline, s.polls poll_id = some (host, deadline) ∧
        deadline ≤ s.loop_time)
  /-- posting a result does not touch the queue before it is correlated -/
  submitted : quiet label = true → t.queue = s.queue
  /-- a result under a job id that is not the host's own, or that is resolved, or whose
  wait is over, changes nothing -/
  refused : ∀ host post_id payload accepted, label = .resolve host post_id payload accepted →
    ((∀ signed, (payload.job_id, signed) ∉ enqueued tr host) ∨
      payload.job_id ∈ correlated tr ∨ payload.job_id ∈ (tr.filterMap waited).map Prod.fst) →
    accepted = false ∧ t.queue = s.queue
  /-- the end of a wait leaves its job queued -/
  stays : ∀ id outcome, label = .timeout id ∨ label = .wake id outcome →
    t.queue.queues = s.queue.queues

/-- What a turn of a poll answers, in terms of what has happened. -/
theorem QueueInv.answer {rest : List Entry} (h : QueueInv tr s) (hpolled : Polled s t window host_id outcome rest) :
    (outcome = .ended ∧ window = false) ∨ outcome = answer (oldest tr s.now host_id) := by
  have hfind : oldest tr s.now host_id =
      (s.queue.queues host_id).find? fun job => expired job.2 s.now = false := by
    apply find?_of_sublist (h.sublist host_id) (List.Nodup.of_map _ (h.nodup host_id))
    · -- a job that is not in the queue was delivered or has expired
      intro job hjob hlive
      rw [decide_eq_true_eq] at hlive
      by_contra hleft
      rcases h.left host_id job hjob hleft with hdelivered | hexpired
      · exact hlive.1 hdelivered
      · rw [hlive.2] at hexpired
        exact absurd hexpired (by simp)
    · intro job hjob
      rw [decide_eq_decide]
      exact ⟨fun hlive => ⟨h.waiting host_id job hjob, hlive⟩, fun hlive => hlive.2⟩
  rw [hfind]
  exact hpolled.turned.answer

/-- **Queue safety.** In every run, whatever the hosts post and whenever they poll. -/
theorem job_queue_safety {tr : List LoopLabel} {s : Loop} (htr : event_loop.Trace tr s) :
    QueueSafe tr ∧ ∀ label t, event_loop.step s label = some t → StepSafe tr s t label := by
  have hqueue := queue_inv htr
  have hwait := wait_inv htr
  refine ⟨⟨hqueue.delivered_nodup, hqueue.delivered_for, hqueue.enqueued_host,
    hwait.correlated_nodup, hwait.correlated_for, hwait.waited_nodup, hwait.returned⟩, ?_⟩
  intro label t hstep
  change loop_step s label = some t at hstep
  refine ⟨?_, ?_, ?_, ?_, ?_, ?_⟩
  · intro host job hdelivery
    obtain ⟨window, rest, hpolled, -⟩ := polled_step (delivery_polled hdelivery) hstep
    have hturned := hpolled.turned
    generalize s.queue.queues host = entries at hturned
    cases hturned with
    | claimed _ hlive =>
        rw [expired, decide_eq_false_iff_not, not_le] at hlive
        exact hlive
  · rintro poll_id host outcome rfl
    obtain ⟨window, rest, hpolled, hclosed⟩ := polled_step rfl hstep
    obtain ⟨-, hwindow⟩ | hanswer := hqueue.answer hpolled
    · obtain ⟨_, _, hlabel, -⟩ := hclosed hwindow
      exact absurd hlabel (by simp)
    · exact hanswer
  · rintro poll_id host outcome rfl
    obtain ⟨window, rest, hpolled, hclosed⟩ := polled_step rfl hstep
    obtain ⟨hended, hwindow⟩ | hanswer := hqueue.answer hpolled
    · obtain ⟨_, deadline, hlabel, hpoll, hdeadline⟩ := hclosed hwindow
      obtain ⟨rfl, -, -⟩ := LoopLabel.resume.inj hlabel
      exact Or.inr ⟨hended, deadline, hpoll, hdeadline⟩
    · exact Or.inl hanswer
  · intro hquiet
    exact (quiet_step hquiet hstep).1
  · rintro host post_id payload accepted rfl hforeign
    obtain ⟨-, -, -, ⟨rfl, hsame⟩ | ⟨-, hhost, hpending, -⟩⟩ := resolve_step hstep
    · exact ⟨rfl, hsame⟩
    · -- it was correlated, so it is none of the three
      rcases hforeign with hunknown | hresolved | hover
      · obtain ⟨signed, hjob⟩ := hwait.job_host _ _ hhost
        exact absurd hjob (hunknown signed)
      · exact absurd hresolved (hwait.pending _ hpending)
      · have hgone := (hwait.waited_gone _ hover).2
        rw [hhost] at hgone
        exact absurd hgone (by simp)
  · rintro id outcome (rfl | rfl)
    · exact (frame_step hstep (by simp) rfl).1
    · exact (frame_step hstep (by simp) rfl).1

/-! ### A job that nobody waits for -/

/-- Core at the moment a job is issued. -/
def loop_start : Loop where
  queue := ⟨fun _ => [], fun _ => none, fun _ => none, fun _ => none⟩
  next := 0
  waiters := fun _ => none
  polls := fun _ => none
  posts := fun _ => none
  now := sample_time.instant
  loop_time := 0

/-- A job is enqueued without a wait; another host polls, then its own. -/
def unwaited_run : List LoopLabel :=
  [.enqueue 0 two_item_signed "nas" 0, .timeout 0, .wake 0 none, .poll 0 "web" .parked,
    .poll 1 "nas" (.claimed 0 two_item_signed)]

/-- The job is delivered, and its result is refused. -/
theorem job_queue_safety_unwaited :
    delivered unwaited_run = [0] ∧ QueueSafe unwaited_run ∧
      ∃ s t, event_loop.Trace unwaited_run s ∧
        StepSafe unwaited_run s t (.submit 0 "nas" 0 ⟨0, "p-1", .execute, ⟨[], [], []⟩⟩ false) := by
  have hrun : ∃ s t, event_loop.Trace unwaited_run s ∧
      event_loop.step s (.submit 0 "nas" 0 ⟨0, "p-1", .execute, ⟨[], [], []⟩⟩ false) = some t :=
    ⟨_, _, ⟨loop_start, ⟨rfl, rfl, rfl, rfl, rfl⟩, rfl⟩, rfl⟩
  obtain ⟨s, t, htr, hstep⟩ := hrun
  exact ⟨rfl, (job_queue_safety htr).1, s, t, htr, (job_queue_safety htr).2 _ t hstep⟩

end Fathom.Remediation.Delivery
